import Mathlib
import Zonix.Vm.AllocMap
import Zonix.Vm.Unmap

/-!
# The kernel's page table around the device window

Entering and removing pages at the addresses of a window, and what that does to the tables: the addresses find what was
entered, no table is left empty, and the free pages and the tables are together the same pages all the time.
-/

namespace Zonix.Vm

open Zonix.Lib
open Zonix.Lib.Radix

variable {a : Arch} {V : (ℕ → Fin 512) → Prop} {P : Word → Prop} {Q : ℕ → Word → Prop} {va l f g t : ℕ}
  {m m' : Pmm} {p : ℕ → Fin 512}

/-! ## Creating tables -/

structure Extends (a : Arch) (V : (ℕ → Fin 512) → Prop) (va l f : ℕ) (m m' : Pmm) : Prop where
  words : ∀ i, i ≠ levelIndex va l → m'.mem f i = m.mem f i
  content : ∀ p, content a.tableOf m'.mem p l f = content a.tableOf m.mem p l f
  tight : ∀ off, Tight a.tableOf m.mem l off f → Tight a.tableOf m'.mem l (fun p => off p ∨ p = levelIndex va) f
  clear : ∀ p, V p → Clearable a m V p l f → Clearable a m' V p l f
  kept : ∀ g, 0 < l → a.tableOf (m.mem f (levelIndex va l)) = some g → m'.mem f = m.mem f

theorem Extends.of_mem (hmem : m'.mem = m.mem) (hd : ∀ g, Dynamic m g → Dynamic m' g) : Extends a V va l f m m' where
  words _ _ := by rw [hmem]
  content _ := by rw [hmem]
  tight _ ht := by
    rw [hmem]
    exact ht.mono fun _ => Or.inl
  clear _ _ hc := hc.congr (fun _ _ => by rw [hmem]) fun g _ => hd g
  kept _ _ _ := by rw [hmem]

theorem Extends.trans {m'' : Pmm} (h : Extends a V va l f m m') (h' : Extends a V va l f m' m'') :
    Extends a V va l f m m'' where
  words i hi := (h'.words i hi).trans (h.words i hi)
  content p := (h'.content p).trans (h.content p)
  tight off ht := by
    refine (h'.tight _ (h.tight off ht)).mono fun p hp => ?_
    obtain hp | hp := hp
    · exact hp
    · exact Or.inr hp
  clear p hp hc := h'.clear p hp (h.clear p hp hc)
  kept g hl hg := by
    have hm := h.kept g hl hg
    rw [h'.kept g hl (by rw [hm]; exact hg), hm]

theorem Extends.lift {new : Multiset ℕ} {r : Option (ℕ × Fin 512)} (hT : Tree a Q m (l + 1) f) (hV : V (levelIndex va))
    (hg : a.tableOf (m.mem f (levelIndex va (l + 1))) = some g) (hw : Walked a P Q va l g m m' r new)
    (hd : ∀ g, Dynamic m g → Dynamic m' g) (h : Extends a V va l g m m') : Extends a V va (l + 1) f m m' := by
  have hnew : ∀ k ∈ nodes a.tableOf m.mem (l + 1) f, k ∉ new := by
    intro k hk hk'
    apply hT.held k hk
    rw [hw.free]
    exact Multiset.mem_add.2 (Or.inr hk')
  obtain ⟨hf, hn⟩ := hw.grows.outside hT.nodup hg hnew
  have hi : ∀ i, i ≠ levelIndex va (l + 1) → m'.mem f i = m.mem f i := fun i _ => by rw [hf]
  have hg' : a.tableOf (m'.mem f (levelIndex va (l + 1))) = some g := by rw [hf, hg]
  refine ⟨hi, fun p => ?_, fun off ht => ?_, fun p hp hc => ?_, fun _ _ _ => hf⟩
  · by_cases hp : p (l + 1) = levelIndex va (l + 1)
    · rw [content_child (by rw [hp]; exact hg'), content_child (by rw [hp]; exact hg), h.content p]
    · exact content_change hi hn hp
  · refine ht.change hi hn (fun p hp _ => Or.inl hp) fun k hk => ?_
    rw [hg'] at hk
    obtain rfl := Option.some.inj hk
    refine ⟨Or.inr ⟨levelIndex va, Or.inr rfl, rfl⟩, (h.tight _ (ht _ g hg).2).mono fun p hp => ?_⟩
    obtain ⟨hp, hi⟩ | rfl := hp
    · exact ⟨Or.inl hp, hi⟩
    · exact ⟨Or.inr rfl, rfl⟩
  · refine hc.change hi hn (fun _ _ _ _ k _ => hd k) fun hpj k hk => ?_
    rw [hg'] at hk
    obtain rfl := Option.some.inj hk
    obtain ⟨hor, hcg⟩ := hc g (by rw [hpj]; exact hg)
    refine ⟨hor.imp (hd g) ?_, h.clear p hp hcg⟩
    rintro ⟨i, hi, hoff⟩
    exact ⟨i, by rw [h.words i (Ne.symm (hoff _ hV))]; exact hi, hoff⟩

theorem Walked.dynamic {r : Option (ℕ × Fin 512)} {new : Multiset ℕ} (hw : Walked a P Q va l f m m' r new)
    (hd : Dynamic m g) : Dynamic m' g := by
  refine ⟨by rw [hw.pageCount]; exact hd.bound, ?_, ?_, ?_⟩
  · rw [hw.pageTable, hd.pageTable, ite_self]
  · rw [hw.reserved, hd.reserved, ite_self]
  · rw [hw.refCount, hd.refCount, ite_self]

theorem addTable_extends (hT : Tree a Q m (l + 1) f) (hP : Pool m) (ht : t ∈ m.free) (hcount : t < m.pageCount)
    (h0 : m.mem f (levelIndex va (l + 1)) = 0) :
    Extends a V va (l + 1) f m (m.addTable a (f, levelIndex va (l + 1)) t fun _ => 0) := by
  have hfresh : t ∉ nodes a.tableOf m.mem (l + 1) f := fun hm => hT.held t hm ht
  have htf : t ≠ f := fun h => hfresh (h ▸ self_mem_nodes)
  have hlinked := tableOf_makePteTable a (hP.bound t ht)
  obtain ⟨hw, hn⟩ := link_frame (levelIndex va (l + 1)) (a.makePteTable (pageToPhys t)) (fun _ => 0) hT.nodup hfresh
  obtain ⟨m₁, hm₁⟩ : ∃ m₁, m₁ = m.addTable a (f, levelIndex va (l + 1)) t fun _ => 0 := ⟨_, rfl⟩
  have hmem : m₁.mem = link m.mem f (levelIndex va (l + 1)) (a.makePteTable (pageToPhys t)) t fun _ => 0 := by rw [hm₁]; rfl
  have hchild : a.tableOf (m₁.mem f (levelIndex va (l + 1))) = some t := by rw [hmem, link_self, hlinked]
  have hempty : ∀ i, m₁.mem t i = 0 := fun i => by rw [hmem, link_node htf]
  have hnone : a.tableOf (m.mem f (levelIndex va (l + 1))) = none := by rw [h0, tableOf_zero]
  have hdyn : Dynamic m₁ t := by
    rw [hm₁]
    exact ⟨hcount, if_pos rfl, if_pos rfl, if_pos rfl⟩
  have hkeep : ∀ g, Dynamic m g → Dynamic m₁ g := by
    intro g hd
    by_cases hgt : g = t
    · rw [hgt]
      exact hdyn
    · rw [hm₁]
      exact ⟨hd.bound, (if_neg hgt).trans hd.pageTable, (if_neg hgt).trans hd.reserved, (if_neg hgt).trans hd.refCount⟩
  rw [← hm₁]
  rw [← hmem] at hw hn
  refine ⟨hw, fun p => ?_, fun off ht => ?_, fun p hp hc => ?_, fun g _ hg => ?_⟩
  · by_cases hp : p (l + 1) = levelIndex va (l + 1)
    · rw [content_child (by rw [hp]; exact hchild), content_empty (tableOf_zero a) hempty,
        content_end (by rw [hp]; exact hnone), hp, if_pos h0]
    · exact content_change hw hn hp
  · refine ht.change hw hn (fun p hp _ => Or.inl hp) fun k hk => ?_
    rw [hchild] at hk
    obtain rfl := Option.some.inj hk
    exact ⟨Or.inr ⟨levelIndex va, Or.inr rfl, rfl⟩, tight_empty (tableOf_zero a) hempty⟩
  · refine hc.change hw hn (fun _ _ _ _ k _ => hkeep k) fun _ k hk => ?_
    rw [hchild] at hk
    obtain rfl := Option.some.inj hk
    refine ⟨Or.inl hdyn, ?_⟩
    cases l with
    | zero => trivial
    | succ l =>
      intro g hg
      rw [hempty, tableOf_zero] at hg
      cases hg
  · rw [hnone] at hg
    cases hg

theorem getPteFrom_extends (hS : Shape a P Q) (E : Env) (hV : V (levelIndex va)) (hT : Tree a Q m l f) (hP : Pool m)
    (hcount : ∀ t ∈ m.free, t < m.pageCount)
    (hplain : ∀ e, content a.tableOf m.mem (levelIndex va) l f = some e → e.1 = 0) :
    Extends a V va l f m (getPteFrom a E true va l f m).2 := by
  induction l generalizing f m with
  | zero => exact .of_mem rfl fun _ hd => hd
  | succ l ih =>
    obtain ⟨g, hg, hd⟩ | ⟨hnone, hd | ⟨t, ht, hd⟩⟩ := descendLevel_cases a E (f, levelIndex va (l + 1)) l m
    · rw [getPteFrom, hd]
      rw [content_child hg] at hplain
      obtain ⟨new, hw⟩ := getPteFrom_walked hS E va (hT.child hg) hP
      exact .lift hT hV hg hw (fun _ => hw.dynamic) (ih (hT.child hg) hP hcount hplain)
    · rw [getPteFrom, hd]
      exact .of_mem rfl fun _ hd => ⟨hd.bound, hd.pageTable, hd.reserved, hd.refCount⟩
    · have h0 : m.mem f (levelIndex va (l + 1)) = 0 := by
        by_contra hne
        rw [content_end hnone, if_neg hne] at hplain
        have := hplain _ rfl
        omega
      have hadd := addTable_added hS hT hP ht hnone
      have hext := addTable_extends (V := V) hT hP ht (hcount t ht) h0
      have hwords : newWords a (m.mem f (levelIndex va (l + 1))) l = fun _ => 0 := by
        rw [h0, newWords_absent l a.ptePresent_zero]
      simp only [hwords] at hd hadd
      rw [getPteFrom, hd]
      obtain ⟨new, hw⟩ := getPteFrom_walked hS E va (hadd.tree.child hadd.linked) hadd.pool
      refine hext.trans (.lift hadd.tree hV hadd.linked hw (fun _ => hw.dynamic) (ih (hadd.tree.child hadd.linked)
        hadd.pool (fun k hk => hcount k (Multiset.mem_of_mem_erase hk)) fun e he => hplain e ?_))
      rw [← hext.content, content_child hadd.linked]
      exact he

/-! ## The tables of the kernel -/

variable {pgdir : ℕ} {off : (ℕ → Fin 512) → Prop}

def kernelTables (a : Arch) (pgdir : ℕ) (m : Pmm) : Multiset ℕ := nodes a.tableOf m.mem (a.ptWalkLevels - 1) pgdir

def kernelEntry (a : Arch) (pgdir : ℕ) (m : Pmm) (p : ℕ → Fin 512) : Option (ℕ × Word) :=
  content a.tableOf m.mem p (a.ptWalkLevels - 1) pgdir

/-- The page table of the kernel with a window `V` of pages, where no table is empty but perhaps some on the paths
in `off`. -/
structure Kernel (a : Arch) (V : (ℕ → Fin 512) → Prop) (pgdir : ℕ) (off : (ℕ → Fin 512) → Prop) (m : Pmm) : Prop where
  tree : Tree a (fun k w => a.WellFormed w k) m (a.ptWalkLevels - 1) pgdir
  pool : Pool m
  unused : ∀ t ∈ m.free, t < m.pageCount ∧ m.refCount t = 0
  count : m.pageCount ≤ 2 ^ 32
  tight : Tight a.tableOf m.mem (a.ptWalkLevels - 1) off pgdir
  clear : ∀ p, V p → Clearable a m V p (a.ptWalkLevels - 1) pgdir
  plain : ∀ p, V p → ∀ e, kernelEntry a pgdir m p = some e → e.1 = 0

structure Changes (a : Arch) (V : (ℕ → Fin 512) → Prop) (pgdir : ℕ) (S : ℕ → Prop) (m m' : Pmm) : Prop where
  pages : m'.free + kernelTables a pgdir m' = m.free + kernelTables a pgdir m
  entry : ∀ p, (∀ va, S va → ¬∀ k ≤ a.ptWalkLevels - 1, p k = levelIndex va k) →
    kernelEntry a pgdir m' p = kernelEntry a pgdir m p
  translate : ∀ va', (∀ va, S va → ¬SamePage a va va') → translate a m'.mem pgdir va' = translate a m.mem pgdir va'
  outside : ∀ k, k ∉ m.free → k ∉ kernelTables a pgdir m → m'.refCount k = m.refCount k ∧ m'.mem k = m.mem k
  static : ∀ g ∈ kernelTables a pgdir m, ¬Dynamic m g → g ∈ kernelTables a pgdir m' ∧ ¬Dynamic m' g
  root : ∀ i, (∀ p, V p → p (a.ptWalkLevels - 1) ≠ i) ∨ (∃ g, a.tableOf (m.mem pgdir i) = some g ∧ ¬Dynamic m g) →
    m'.mem pgdir i = m.mem pgdir i
  blockPages : m'.blockPages = m.blockPages
  pageCount : m'.pageCount = m.pageCount

theorem ptWalkLevels_pos (a : Arch) : 0 < a.ptWalkLevels - 1 := by cases a <;> decide

theorem mem_kernelTables {i : Fin 512} (hg : a.tableOf (m.mem pgdir i) = some g) : g ∈ kernelTables a pgdir m := by
  rw [kernelTables, ptWalkLevels_eq]
  exact mem_nodes_child hg self_mem_nodes

theorem Changes.refl (S : ℕ → Prop) : Changes a V pgdir S m m :=
  ⟨rfl, fun _ _ => rfl, fun _ _ => rfl, fun _ _ _ => ⟨rfl, rfl⟩, fun _ hg hd => ⟨hg, hd⟩, fun _ _ => rfl, rfl, rfl⟩

theorem Changes.mono {S S' : ℕ → Prop} (h : Changes a V pgdir S m m') (hS : ∀ va, S va → S' va) :
    Changes a V pgdir S' m m' :=
  { h with entry := fun p hp => h.entry p fun va hva => hp va (hS va hva)
           translate := fun va' hva' => h.translate va' fun va hva => hva' va (hS va hva) }

theorem Changes.trans {S : ℕ → Prop} {m'' : Pmm} (h : Changes a V pgdir S m m') (h' : Changes a V pgdir S m' m'') :
    Changes a V pgdir S m m'' where
  pages := h'.pages.trans h.pages
  entry p hp := (h'.entry p hp).trans (h.entry p hp)
  translate va' hva' := (h'.translate va' hva').trans (h.translate va' hva')
  outside k hk hk' := by
    obtain ⟨hr, hm⟩ := h.outside k hk hk'
    have hout : k ∉ m'.free + kernelTables a pgdir m' := by
      rw [h.pages, Multiset.mem_add, not_or]
      exact ⟨hk, hk'⟩
    rw [Multiset.mem_add, not_or] at hout
    obtain ⟨hr', hm'⟩ := h'.outside k hout.1 hout.2
    exact ⟨hr'.trans hr, hm'.trans hm⟩
  static g hg hd := by
    obtain ⟨hg', hd'⟩ := h.static g hg hd
    exact h'.static g hg' hd'
  root i hi := by
    have hm := h.root i hi
    rw [h'.root i, hm]
    obtain hi | ⟨g, hg, hd⟩ := hi
    · exact Or.inl hi
    · exact Or.inr ⟨g, by rw [hm]; exact hg, (h.static g (mem_kernelTables hg) hd).2⟩
  blockPages := h'.blockPages.trans h.blockPages
  pageCount := h'.pageCount.trans h.pageCount

theorem Kernel.get (E : Env) (hK : Kernel a V pgdir off m) (hva : V (levelIndex va)) :
    Kernel a V pgdir (fun p => off p ∨ p = levelIndex va) (getPte a E pgdir va true m).2 ∧
      Changes a V pgdir (fun _ => False) m (getPte a E pgdir va true m).2 ∧
      (getPte a E pgdir va true m).2.panicked = m.panicked ∧
      ∀ s, (getPte a E pgdir va true m).1 = some s →
        slot a.tableOf (getPte a E pgdir va true m).2.mem (levelIndex va) (a.ptWalkLevels - 1) pgdir = some s := by
  obtain ⟨new, hw⟩ := getPteFrom_walked (shape_wellFormed a) E va hK.tree hK.pool
  have hext := getPteFrom_extends (shape_wellFormed a) E hva hK.tree hK.pool (fun t ht => (hK.unused t ht).1)
    (hK.plain _ hva)
  obtain ⟨htree, hpool⟩ := hw.tree hK.tree hK.pool
  rw [← getPte] at hw hext htree hpool
  have hfresh : ∀ t ∈ (getPte a E pgdir va true m).2.free, t ∈ m.free ∧ t ∉ new := by
    intro t ht
    have hnd := hK.pool.nodup
    rw [hw.free, Multiset.nodup_add] at hnd
    exact ⟨by rw [hw.free]; exact Multiset.mem_add.2 (Or.inl ht), Multiset.disjoint_left.1 hnd.2.2 ht⟩
  refine ⟨⟨htree, hpool, ?_, by rw [hw.pageCount]; exact hK.count, hext.tight off hK.tight, fun p hp => hext.clear p hp (hK.clear p hp), ?_⟩,
    ⟨?_, fun p _ => hext.content p, fun va' _ => hw.same a.limits (neutral_limits a) va', ?_, ?_, ?_, hw.blockPages,
      hw.pageCount⟩, hw.panicked, hw.found⟩
  · intro t ht
    obtain ⟨hfree, hnew⟩ := hfresh t ht
    rw [hw.pageCount, hw.refCount, if_neg hnew]
    exact hK.unused t hfree
  · intro p hp e he
    exact hK.plain p hp e (by rw [← he]; exact (hext.content p).symm)
  · rw [kernelTables, hw.grows.nodes_eq, hw.free, kernelTables]
    abel
  · intro k hk hk'
    have hnew : k ∉ new := fun h => hk (by rw [hw.free]; exact Multiset.mem_add.2 (Or.inr h))
    rw [hw.refCount, if_neg hnew]
    exact ⟨rfl, hw.grows.frame k hk' hnew⟩
  · intro k hk hd
    have hnew : k ∉ new := fun h => hK.tree.held k hk (by rw [hw.free]; exact Multiset.mem_add.2 (Or.inr h))
    refine ⟨?_, fun hd' => hd ?_⟩
    · rw [kernelTables, hw.grows.nodes_eq]
      exact Multiset.mem_add.2 (Or.inl hk)
    · have hp := hw.pageTable k
      have hv := hw.reserved k
      have hr := hw.refCount k
      rw [if_neg hnew] at hp hv hr
      exact ⟨by rw [← hw.pageCount]; exact hd'.bound, hp.symm.trans hd'.pageTable, hv.symm.trans hd'.reserved,
        hr.symm.trans hd'.refCount⟩
  · intro i hi
    by_cases hidx : i = levelIndex va (a.ptWalkLevels - 1)
    · obtain hi | ⟨g, hg, -⟩ := hi
      · exact absurd hidx.symm (hi _ hva)
      · rw [hext.kept g (ptWalkLevels_pos a) (by rw [← hidx]; exact hg)]
    · exact hext.words i hidx

theorem Clearable.write {s : ℕ × Fin 512} {w : Word} (hc : Clearable a m V p l f) (hV : V (levelIndex va))
    (hd : (nodes a.tableOf m.mem l f).Nodup) (hs : slot a.tableOf m.mem (levelIndex va) l f = some s)
    (hmem : m'.mem = write m.mem s w) (hkeep : ∀ g, Dynamic m g → Dynamic m' g) : Clearable a m' V p l f := by
  induction l generalizing f with
  | zero => trivial
  | succ l ih =>
    cases hg : a.tableOf (m.mem f (levelIndex va (l + 1))) with
    | none => simp [slot, hg] at hs
    | some g =>
      simp only [slot, hg, Option.elim_some] at hs
      obtain ⟨hf, hn⟩ := write_frame (w := w) hd hg (mem_nodes_of_slot hs)
      rw [← hmem] at hf hn
      refine hc.change (j := levelIndex va (l + 1)) (fun i _ => by rw [hf]) hn (fun _ _ _ _ k _ => hkeep k) ?_
      intro hp k hk
      rw [hf, hg] at hk
      obtain rfl := Option.some.inj hk
      obtain ⟨hor, hcg⟩ := hc g (by rw [hp]; exact hg)
      refine ⟨hor.imp (hkeep g) ?_, ih hcg (nodup_child hd hg).1 hs⟩
      rintro ⟨j, hj, hoff⟩
      refine ⟨j, ?_, hoff⟩
      rw [hmem]
      cases l with
      | zero =>
        cases hs
        rw [write_index _ _ _ _ (Ne.symm (hoff _ hV))]
        exact hj
      | succ l =>
        cases hg' : a.tableOf (m.mem g (levelIndex va (l + 1))) with
        | none => simp [slot, hg'] at hs
        | some k =>
          simp only [slot, hg', Option.elim_some] at hs
          rw [(write_frame (w := w) (nodup_child hd hg).1 hg' (mem_nodes_of_slot hs)).1]
          exact hj

theorem Kernel.put (pan : Bool) {s : ℕ × Fin 512} {w : Word}
    (hK : Kernel a V pgdir (fun p => off p ∨ p = levelIndex va) m) (hva : V (levelIndex va))
    (hs : slot a.tableOf m.mem (levelIndex va) (a.ptWalkLevels - 1) pgdir = some s) (hw : w ≠ 0) :
    Kernel a V pgdir off { m with mem := write m.mem s w, panicked := pan } ∧
      Changes a V pgdir (· = va) m { m with mem := write m.mem s w, panicked := pan } ∧
      kernelEntry a pgdir { m with mem := write m.mem s w, panicked := pan } (levelIndex va) = some (0, w) := by
  have hd := hK.tree.nodup
  have hnodes := nodes_write (w := w) hd hs
  have hentry : ∀ p, kernelEntry a pgdir { m with mem := write m.mem s w, panicked := pan } p =
      if ∀ k ≤ a.ptWalkLevels - 1, p k = levelIndex va k then some (0, w) else kernelEntry a pgdir m p := by
    intro p
    rw [kernelEntry, content_write hd hs, if_neg hw]
    rfl
  refine ⟨⟨⟨?_, hK.tree.inner.write hd hs, ?_⟩, ⟨hK.pool.nodup, hK.pool.bound⟩, hK.unused,
    hK.count, hK.tight.write hd (tableOf_zero a) hs hw,
    fun p hp => (hK.clear p hp).write hva hd hs rfl fun _ hd => ⟨hd.bound, hd.pageTable, hd.reserved, hd.refCount⟩, ?_⟩,
    ⟨?_, ?_, ?_, ?_, ?_, ?_, rfl, rfl⟩, ?_⟩
  · show (nodes _ (write m.mem s w) _ _).Nodup
    rw [hnodes]
    exact hd
  · intro k hk
    change k ∈ nodes _ (write m.mem s w) _ _ at hk
    rw [hnodes] at hk
    exact hK.tree.held k hk
  · intro p hp e he
    rw [hentry] at he
    split at he
    · cases he
      rfl
    · exact hK.plain p hp e he
  · show m.free + nodes _ (write m.mem s w) _ _ = m.free + nodes _ m.mem _ _
    rw [hnodes]
  · intro p hp
    rw [hentry, if_neg (hp va rfl)]
  · intro va' hva'
    exact translateWith_write_other _ hd hs ((not_samePage_iff a va va').1 (hva' va rfl))
  · intro k _ hk
    exact ⟨rfl, write_node _ _ _ fun h => hk (h ▸ mem_nodes_of_slot hs)⟩
  · intro g hg hnd
    refine ⟨?_, fun hd => hnd ⟨hd.bound, hd.pageTable, hd.reserved, hd.refCount⟩⟩
    show g ∈ nodes _ (write m.mem s w) _ _
    rw [hnodes]
    exact hg
  · intro i _
    rw [ptWalkLevels_eq] at hs hd
    cases hg : a.tableOf (m.mem pgdir (levelIndex va (a.top + 1))) with
    | none => simp [slot, hg] at hs
    | some g =>
      simp only [slot, hg, Option.elim_some] at hs
      exact congrFun (write_frame (w := w) hd hg (mem_nodes_of_slot hs)).1 i
  · rw [hentry, if_pos fun _ _ => rfl]

theorem Kernel.unmap (hK : Kernel a V pgdir (fun p => off p ∨ p = levelIndex va) m) (hva : V (levelIndex va)) :
    Kernel a V pgdir off (unmapMmioPage a pgdir va m) ∧
      Changes a V pgdir (· = va) m (unmapMmioPage a pgdir va m) ∧
      (unmapMmioPage a pgdir va m).panicked = m.panicked ∧
      kernelEntry a pgdir (unmapMmioPage a pgdir va m) (levelIndex va) = none := by
  obtain ⟨freed, h, -⟩ := unmapFrom_unmapped (fun k => (shape_wellFormed a).zero k) hva hK.tree (hK.plain _ hva)
    (hK.clear _ hva)
  rw [← unmapMmioPage_eq] at h
  have hnd := hK.tree.nodup
  rw [h.nodes, Multiset.nodup_add] at hnd
  have hheld : ∀ k ∈ freed, k ∉ m.free := fun k hk => hK.tree.held k (h.freed_mem hk)
  refine ⟨⟨⟨hnd.1, h.inner, ?_⟩, ⟨?_, ?_⟩, ?_, by rw [h.pageCount]; exact hK.count, h.tight off hK.tight, fun p hp => h.clear p hp (hK.clear p hp), ?_⟩,
    ⟨?_, ?_, ?_, ?_, ?_, ?_, h.blockPages, h.pageCount⟩, h.panicked, ?_⟩
  · intro k hk hkf
    rw [h.free, Multiset.mem_add] at hkf
    obtain hkf | hkf := hkf
    · exact Multiset.disjoint_left.1 hnd.2.2 hk hkf
    · refine hK.tree.held k ?_ hkf
      rw [h.nodes]
      exact Multiset.mem_add.2 (Or.inl hk)
  · rw [h.free, Multiset.nodup_add]
    exact ⟨hnd.2.1, hK.pool.nodup, Multiset.disjoint_left.2 fun hk => hheld _ hk⟩
  · intro k hk
    rw [h.free, Multiset.mem_add] at hk
    exact hk.elim (fun hk => lt_of_lt_of_le (h.given k hk).2.bound hK.count) (hK.pool.bound k)
  · intro k hk
    rw [h.free, Multiset.mem_add] at hk
    rw [h.pageCount]
    by_cases hkf : k ∈ freed
    · exact ⟨(h.given k hkf).2.bound, (h.given k hkf).1⟩
    · rw [(h.flags k hkf).1]
      exact hK.unused k (hk.resolve_left hkf)
  · intro p hp e he
    rw [kernelEntry, h.content] at he
    split at he
    · cases he
    · exact hK.plain p hp e he
  · rw [kernelTables, kernelTables, h.free, h.nodes]
    abel
  · intro p hp
    rw [kernelEntry, h.content, if_neg (hp va rfl)]
    rfl
  · intro va' hva'
    exact h.other a.limits va' ((not_samePage_iff a va va').1 (hva' va rfl))
  · intro k _ hk
    exact ⟨(h.flags k fun hkf => hk (h.freed_mem hkf)).1, h.frame k hk⟩
  · intro g hg hd
    have hgf : g ∉ freed := fun hgf => hd (h.given g hgf).2
    obtain ⟨hr, hp, hv⟩ := h.flags g hgf
    refine ⟨?_, fun hd' => hd ⟨by rw [← h.pageCount]; exact hd'.bound, hp.symm.trans hd'.pageTable,
      hv.symm.trans hd'.reserved, hr.symm.trans hd'.refCount⟩⟩
    rw [kernelTables, h.nodes, Multiset.mem_add] at hg
    exact hg.resolve_right hgf
  · intro i hi
    by_cases hidx : i = levelIndex va (a.ptWalkLevels - 1)
    · obtain hi | ⟨g, hg, hd⟩ := hi
      · exact absurd hidx.symm (hi _ hva)
      · rw [h.kept g (ptWalkLevels_pos a) (by rw [← hidx]; exact hg) fun hgf => hd (h.given g hgf).2]
    · exact h.words i hidx
  · rw [kernelEntry, h.content, if_pos fun _ _ => rfl]

end Zonix.Vm
