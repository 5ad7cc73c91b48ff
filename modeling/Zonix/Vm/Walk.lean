import Mathlib
import Zonix.Vm.PageTable

/-!
# What a walk of the page table does

A walk that creates tables leaves a tree with the same meaning: the frames it took from the allocator are new tables
of the tree, the leaf words stay where they are, and every address is translated as before.
-/

namespace Zonix.Vm

open Zonix.Lib.Radix

/-- The free frames can be named by an entry, and none is listed twice. -/
structure Pool (m : Pmm) : Prop where
  nodup : m.free.Nodup
  bound : ∀ f ∈ m.free, f < 2 ^ 32

theorem frames_one (b : ℕ) : frames b 1 = {b} := rfl

theorem allocPages_one_cases (E : Env) (m : Pmm) :
    allocPages E 1 m = (none, { m with clock := m.clock + 1 }) ∨
      ∃ t ∈ m.free, allocPages E 1 m =
        (some t, { m with clock := m.clock + 1, free := m.free.erase t,
                          reserved := fun f => if f = t then false else m.reserved f }) := by
  unfold allocPages
  cases E.alloc m.clock m.free 1 with
  | none => exact Or.inl rfl
  | some b =>
    by_cases hb : frames b 1 ≤ m.free
    · refine Or.inr ⟨b, ?_, ?_⟩
      · rw [frames_one, Multiset.singleton_le] at hb
        exact hb
      · simp only [hb, if_true]
        rw [frames_one, Multiset.sub_singleton]
    · exact Or.inl (by simp only [hb, if_false])

def Pmm.addTable (a : Arch) (m : Pmm) (entry : ℕ × Fin 512) (t : ℕ) (ws : Fin 512 → Word) : Pmm :=
  { m with clock := m.clock + 1, free := m.free.erase t,
           reserved := fun f => if f = t then false else m.reserved f,
           refCount := fun f => if f = t then 1 else m.refCount f,
           pageTable := fun f => if f = t then true else m.pageTable f,
           mem := link m.mem entry.1 entry.2 (a.makePteTable (pageToPhys t)) t ws }

def newWords (a : Arch) (e : Word) (l : ℕ) : Fin 512 → Word := fun i =>
  if a.ptePresent e then a.splitPageEntry e (a.pieceBase e l i) (levelShift l) else 0

variable {e : Word} {a : Arch} {l f va : ℕ} {m : Pmm} {Q : ℕ → Word → Prop} {h : Heap 512 Word}
  {P : Word → Prop}

theorem newWords_absent (l : ℕ) (h : a.ptePresent e = false) : newWords a e l = fun _ => 0 := by
  funext i
  simp [newWords, h]

theorem newWords_block (l : ℕ) (h : a.ptePresent e = true) :
    newWords a e l = fun i => a.splitPageEntry e (a.pieceBase e l i) (levelShift l) := by
  funext i
  simp [newWords, h]

theorem fill_fill (h : Heap 512 Word) (t : ℕ) (us ws : Fin 512 → Word) : fill (fill h t us) t ws = fill h t ws := by
  funext f
  by_cases hf : f = t <;> simp [fill, hf]

theorem descendLevel_cases (a : Arch) (E : Env) (entry : ℕ × Fin 512) (l : ℕ) (m : Pmm) :
    (∃ g, a.tableOf (m.mem entry.1 entry.2) = some g ∧ descendLevel a E true entry l m = (some g, m)) ∨
    a.tableOf (m.mem entry.1 entry.2) = none ∧
      (descendLevel a E true entry l m = (none, { m with clock := m.clock + 1 }) ∨
        ∃ t ∈ m.free, descendLevel a E true entry l m =
          (some t, m.addTable a entry t (newWords a (m.mem entry.1 entry.2) l))) := by
  cases hp : a.ptePresent (m.mem entry.1 entry.2) with
  | false =>
    refine Or.inr ⟨by simp [Arch.tableOf, hp], ?_⟩
    obtain ha | ⟨t, ht, ha⟩ := allocPages_one_cases E m
    · exact Or.inl (by simp [descendLevel, hp, allocTablePage, ha])
    · refine Or.inr ⟨t, ht, ?_⟩
      simp [descendLevel, hp, allocTablePage, ha, Pmm.addTable, link, newWords_absent l hp]
  | true =>
    cases hb : a.pteIsBlock (m.mem entry.1 entry.2) with
    | false =>
      refine Or.inl ⟨physToPage (a.pteAddr (m.mem entry.1 entry.2)), ?_, ?_⟩
      · simp [Arch.tableOf, hp, hb]
      · simp [descendLevel, hp, hb]
    | true =>
      refine Or.inr ⟨by simp [Arch.tableOf, hp, hb], ?_⟩
      obtain ha | ⟨t, ht, ha⟩ := allocPages_one_cases E m
      · exact Or.inl (by simp [descendLevel, hp, hb, allocTablePage, ha])
      · refine Or.inr ⟨t, ht, ?_⟩
        simp [descendLevel, hp, hb, allocTablePage, ha, Pmm.addTable, link, newWords_block l hp, fill_fill]

theorem getPteFrom_lookup (a : Arch) (E : Env) (va l f : ℕ) (m : Pmm) :
    getPteFrom a E false va l f m = (slot a.tableOf m.mem (levelIndex va) l f, m) := by
  induction l generalizing f with
  | zero => rfl
  | succ l ih =>
    have hd : descendLevel a E false (f, levelIndex va (l + 1)) l m =
        (a.tableOf (m.mem f (levelIndex va (l + 1))), m) := by
      cases hp : a.ptePresent (m.mem f (levelIndex va (l + 1))) <;>
        cases hb : a.pteIsBlock (m.mem f (levelIndex va (l + 1))) <;>
          simp [descendLevel, hp, hb, allocTablePage, Arch.tableOf]
    rw [getPteFrom, hd]
    cases hg : a.tableOf (m.mem f (levelIndex va (l + 1))) with
    | none => simp [slot, hg]
    | some g => simp [slot, hg, ih]

/-- Conditions on the words above the leaves (`Q`, by level) and on new leaf words (`P`) that creating tables keeps. -/
structure Shape (a : Arch) (P : Word → Prop) (Q : ℕ → Word → Prop) : Prop where
  wellFormed : ∀ {k w}, Q k w → a.WellFormed w k
  zero : ∀ k, Q k 0
  table : ∀ k {t}, t < 2 ^ 32 → Q k (a.makePteTable (pageToPhys t))
  piece : ∀ {k e w i}, Q (k + 1) e → a.ptePresent e → a.pteIsBlock e → a.IsPiece e w k i → Q k w ∧ P w
  leafZero : P 0

/-- The tables below `f` form a tree of allocated frames. -/
structure Tree (a : Arch) (Q : ℕ → Word → Prop) (m : Pmm) (l f : ℕ) : Prop where
  nodup : (nodes a.tableOf m.mem l f).Nodup
  inner : Inner a.tableOf Q m.mem l f
  held : ∀ g ∈ nodes a.tableOf m.mem l f, g ∉ m.free

variable {g t : ℕ} {lim : Word → Limits} {new : Multiset ℕ} {r : Option (ℕ × Fin 512)} {m' : Pmm}

theorem Tree.child {i : Fin 512} (h : Tree a Q m (l + 1) f)
    (hg : a.tableOf (m.mem f i) = some g) : Tree a Q m l g where
  nodup := (nodup_child h.nodup hg).1
  inner := h.inner.child hg
  held k hk := h.held k (mem_nodes_child hg hk)

def Neutral (a : Arch) (lim : Word → Limits) : Prop :=
  ∀ t < 2 ^ 32, lim (a.makePteTable (pageToPhys t)) = ⟨false, false, false, false⟩

theorem neutral_limits (a : Arch) : Neutral a a.limits := by
  intro t ht
  exact (a.isTable_makePteTable (fits_pageToPhys a t ht)).limits

structure Walked (a : Arch) (P : Word → Prop) (Q : ℕ → Word → Prop) (va l f : ℕ) (m m' : Pmm)
    (r : Option (ℕ × Fin 512)) (new : Multiset ℕ) : Prop where
  free : m.free = m'.free + new
  grows : Grows a.tableOf P m.mem m'.mem l f new
  inner : Inner a.tableOf Q m'.mem l f
  same : ∀ lim, Neutral a lim → ∀ va', translateWith a lim m'.mem va' l f = translateWith a lim m.mem va' l f
  found : ∀ s, r = some s → slot a.tableOf m'.mem (levelIndex va) l f = some s
  refused : r = none → slot a.tableOf m.mem (levelIndex va) l f = none
  refCount : ∀ g, m'.refCount g = if g ∈ new then 1 else m.refCount g
  pageTable : ∀ g, m'.pageTable g = if g ∈ new then true else m.pageTable g
  reserved : ∀ g, m'.reserved g = if g ∈ new then false else m.reserved g
  blockPages : m'.blockPages = m.blockPages
  pageCount : m'.pageCount = m.pageCount
  panicked : m'.panicked = m.panicked

theorem tableOf_makePteTable (a : Arch) (ht : t < 2 ^ 32) : a.tableOf (a.makePteTable (pageToPhys t)) = some t := by
  have h := a.isTable_makePteTable (fits_pageToPhys a t ht)
  simp [Arch.tableOf, h.present, h.table, h.addr, physToPage_pageToPhys ht]

theorem tableOf_zero (a : Arch) : a.tableOf 0 = none := by
  rw [Arch.tableOf, a.ptePresent_zero]
  rfl

theorem isBlock_of_not_table (he : a.tableOf e = none) (hp : a.ptePresent e = true) :
    a.pteIsBlock e = true := by
  cases hb : a.pteIsBlock e with
  | true => rfl
  | false => simp [Arch.tableOf, hp, hb] at he

theorem newWords_not_table (i : Fin 512) (hwf : a.WellFormed e (l + 1))
    (he : a.tableOf e = none) (hl : 0 < l) : a.tableOf (newWords a e l i) = none := by
  cases hp : a.ptePresent e with
  | false =>
    rw [newWords_absent l hp]
    exact tableOf_zero a
  | true =>
    have hw := a.isPiece_splitPageEntry i hwf hp (isBlock_of_not_table he hp)
    rw [newWords_block l hp]
    simp [Arch.tableOf, hw.block hl]

theorem Attrs.limit_none (x : Attrs) : x.limit ⟨false, false, false, false⟩ = x := by
  simp [Attrs.limit]

theorem translateWith_child
    (hg : a.tableOf (h f (levelIndex va (l + 1))) = some g) :
    translateWith a lim h va (l + 1) f = (translateWith a lim h va l g).map fun x =>
      { x with attrs := x.attrs.limit (lim (h f (levelIndex va (l + 1)))) } := by
  simp only [translateWith, hg]

theorem translateWith_missing
    (hg : a.tableOf (h f (levelIndex va (l + 1))) = none) :
    translateWith a lim h va (l + 1) f = if a.ptePresent (h f (levelIndex va (l + 1))) then
      some (leafMapping a (h f (levelIndex va (l + 1))) (l + 1) va) else none := by
  simp only [translateWith, hg]

theorem translateWith_change {h' : Heap 512 Word} {j : Fin 512}
    (hw : ∀ i, i ≠ j → h' f i = h f i)
    (hn : ∀ i, i ≠ j → ∀ g, a.tableOf (h f i) = some g → ∀ k ∈ nodes a.tableOf h l g, h' k = h k)
    (hj : ∀ va, levelIndex va (l + 1) = j → translateWith a lim h' va (l + 1) f = translateWith a lim h va (l + 1) f)
    (va : ℕ) : translateWith a lim h' va (l + 1) f = translateWith a lim h va (l + 1) f := by
  by_cases hva : levelIndex va (l + 1) = j
  · exact hj va hva
  · have hwv := hw _ hva
    cases hg : a.tableOf (h f (levelIndex va (l + 1))) with
    | none => rw [translateWith_missing (by rw [hwv]; exact hg), translateWith_missing hg, hwv]
    | some g =>
      rw [translateWith_child (by rw [hwv]; exact hg), translateWith_child hg, hwv, translateWith_congr (hn _ hva g hg)]

theorem levelIndex_val (va l : ℕ) : (levelIndex va l).val = va / 2 ^ levelShift l % 512 := rfl

theorem mod_levelShift_succ (va l : ℕ) :
    va % 2 ^ levelShift (l + 1) = (levelIndex va l).val * 2 ^ levelShift l + va % 2 ^ levelShift l := by
  rw [levelIndex_val, Arch.levelShift_succ, pow_add, Nat.mod_mul, show (2 : ℕ) ^ 9 = 512 by norm_num]
  ring

theorem leafMapping_piece {w : Word} (hl : l ≤ 1)
    (hw : a.IsPiece e w l (levelIndex va l)) : leafMapping a w l va = leafMapping a e (l + 1) va := by
  rw [leafMapping, leafMapping, hw.attrs, hw.base, Arch.toNat_pieceBase a e l hl, mod_levelShift_succ va l,
    Nat.add_assoc]

theorem translateWith_newWords (ht : h t = newWords a e l)
    (he : a.tableOf e = none) (hwf : a.WellFormed e (l + 1)) :
    translateWith a lim h va l t = if a.ptePresent e then some (leafMapping a e (l + 1) va) else none := by
  cases hp : a.ptePresent e with
  | false =>
    have h0 : h t (levelIndex va l) = 0 := by rw [ht, newWords_absent l hp]
    cases l with
    | zero =>
      simp only [translateWith, h0, a.ptePresent_zero]
      rfl
    | succ l =>
      rw [translateWith_missing (by rw [h0, tableOf_zero]), h0, a.ptePresent_zero]
      rfl
  | true =>
    have hb := isBlock_of_not_table he hp
    have hl : l ≤ 1 := by have := (hwf hp hb (by omega)).1; omega
    have hw : a.IsPiece e (h t (levelIndex va l)) l (levelIndex va l) := by
      rw [ht, newWords_block l hp]
      exact a.isPiece_splitPageEntry _ hwf hp hb
    simp only [if_true]
    rw [← leafMapping_piece hl hw]
    cases l with
    | zero => simp [translateWith, hw.present]
    | succ l =>
      rw [translateWith_missing (by simp [Arch.tableOf, hw.block (by omega)]), if_pos hw.present]

structure Added (a : Arch) (P : Word → Prop) (Q : ℕ → Word → Prop) (l f t : ℕ) (j : Fin 512) (m m' : Pmm) : Prop where
  linked : a.tableOf (m'.mem f j) = some t
  grows : Grows a.tableOf P m.mem m'.mem (l + 1) f {t}
  tree : Tree a Q m' (l + 1) f
  pool : Pool m'
  same : ∀ lim, Neutral a lim → ∀ va, translateWith a lim m'.mem va (l + 1) f = translateWith a lim m.mem va (l + 1) f

theorem addTable_added (hS : Shape a P Q)
    {j : Fin 512} (hT : Tree a Q m (l + 1) f) (hP : Pool m) (ht : t ∈ m.free)
    (hj : a.tableOf (m.mem f j) = none) :
    Added a P Q l f t j m (m.addTable a (f, j) t (newWords a (m.mem f j) l)) := by
  have ht32 := hP.bound t ht
  have hfresh : t ∉ nodes a.tableOf m.mem (l + 1) f := fun hm => hT.held t hm ht
  have htf : t ≠ f := fun h => hfresh (h ▸ self_mem_nodes)
  have hlinked := tableOf_makePteTable a ht32
  have hwf : a.WellFormed (m.mem f j) (l + 1) := hS.wellFormed hT.inner.word
  have hwords : ∀ i, Q l (newWords a (m.mem f j) l i) ∧ P (newWords a (m.mem f j) l i) := by
    intro i
    cases hp : a.ptePresent (m.mem f j) with
    | false =>
      rw [newWords_absent l hp]
      exact ⟨hS.zero l, hS.leafZero⟩
    | true =>
      have hb := isBlock_of_not_table hj hp
      rw [newWords_block l hp]
      exact hS.piece hT.inner.word hp hb (a.isPiece_splitPageEntry i hwf hp hb)
  have hg : Grows a.tableOf P m.mem (m.addTable a (f, j) t (newWords a (m.mem f j) l)).mem (l + 1) f {t} :=
    Grows.link hT.nodup hfresh hj hlinked (fun h0 i => newWords_not_table i hwf hj h0) (fun _ i => (hwords i).2)
  obtain ⟨hw, hn⟩ := link_frame j (a.makePteTable (pageToPhys t)) (newWords a (m.mem f j) l) hT.nodup
    hfresh
  refine ⟨?_, hg, ⟨?_, ?_, ?_⟩, ⟨?_, ?_⟩, ?_⟩
  · rw [← hlinked]
    exact congrArg a.tableOf link_self
  · rw [hg.nodes_eq, Multiset.nodup_add]
    exact ⟨hT.nodup, Multiset.nodup_singleton t, by simpa using hfresh⟩
  · apply hT.inner.change hw hn
    show Q (l + 1) (link _ _ _ _ _ _ f j) ∧ ∀ g, a.tableOf (link _ _ _ _ _ _ f j) = some g → _
    rw [link_self, hlinked]
    refine ⟨hS.table _ ht32, ?_⟩
    rintro _ ⟨⟩
    apply inner_bare
    · intro h0 i
      show a.tableOf (link _ _ _ _ _ _ t i) = none
      rw [link_node htf]
      exact newWords_not_table i hwf hj h0
    · intro _ i
      show Q l (link _ _ _ _ _ _ t i)
      rw [link_node htf]
      exact (hwords i).1
  · intro g hgm
    rw [hg.nodes_eq, Multiset.mem_add, Multiset.mem_singleton] at hgm
    intro hfree
    rcases hgm with hgm | rfl
    · exact hT.held g hgm (Multiset.mem_of_mem_erase hfree)
    · exact Multiset.Nodup.notMem_erase hP.nodup hfree
  · exact hP.nodup.erase t
  · intro g hgf
    exact hP.bound g (Multiset.mem_of_mem_erase hgf)
  · intro lim hlim
    apply translateWith_change hw hn
    intro va hva
    have hl : a.tableOf (link m.mem f j (a.makePteTable (pageToPhys t)) t (newWords a (m.mem f j) l) f
        (levelIndex va (l + 1))) = some t := by
      rw [hva, link_self, hlinked]
    rw [translateWith_child hl, translateWith_newWords (link_node htf) hj hwf, translateWith_missing (by rw [hva]; exact hj), hva,
      link_self, hlim t ht32]
    simp only [Attrs.limit_none]
    exact Option.map_id'

theorem Walked.lift (hT : Tree a Q m (l + 1) f)
    (hg : a.tableOf (m.mem f (levelIndex va (l + 1))) = some g) (h : Walked a P Q va l g m m' r new) :
    Walked a P Q va (l + 1) f m m' r new := by
  have hnew : ∀ k ∈ nodes a.tableOf m.mem (l + 1) f, k ∉ new := by
    intro k hk hk'
    apply hT.held k hk
    rw [h.free]
    exact Multiset.mem_add.2 (Or.inr hk')
  obtain ⟨hf, hn⟩ := h.grows.outside hT.nodup hg hnew
  refine { h with grows := h.grows.lift hT.nodup hg hnew, inner := ?_, same := ?_, found := ?_, refused := ?_ }
  · apply hT.inner.change (j := levelIndex va (l + 1)) (fun i _ => by rw [hf]) hn
    rw [hf, hg]
    refine ⟨hT.inner.word, ?_⟩
    rintro _ ⟨⟩
    exact h.inner
  · intro lim hlim
    apply translateWith_change (j := levelIndex va (l + 1)) (fun i _ => by rw [hf]) hn
    intro va' hva'
    have hg' : a.tableOf (m.mem f (levelIndex va' (l + 1))) = some g := by rw [hva', hg]
    rw [translateWith_child (by rw [hf]; exact hg'), translateWith_child hg', hf, h.same lim hlim va']
  · intro s hs
    simp only [slot, hf, hg, Option.elim_some]
    exact h.found s hs
  · intro hr
    simp only [slot, hg, Option.elim_some]
    exact h.refused hr

theorem Walked.prepend {ws : Fin 512 → Word}
    (hadd : Added a P Q l f t (levelIndex va (l + 1)) m (m.addTable a (f, levelIndex va (l + 1)) t ws))
    (ht : t ∈ m.free) (hnone : a.tableOf (m.mem f (levelIndex va (l + 1))) = none)
    (h : Walked a P Q va (l + 1) f (m.addTable a (f, levelIndex va (l + 1)) t ws) m' r new) :
    Walked a P Q va (l + 1) f m m' r ({t} + new) := by
  refine { h with free := ?_, grows := hadd.grows.trans h.grows, same := ?_, refused := ?_, refCount := ?_,
                  pageTable := ?_, reserved := ?_ }
  · have herase : m.free.erase t = m'.free + new := h.free
    rw [← Multiset.cons_erase ht, herase, ← Multiset.singleton_add]
    abel
  · intro lim hlim va'
    rw [h.same lim hlim va', hadd.same lim hlim va']
  · intro _
    simp only [slot, hnone, Option.elim_none]
  · intro g
    rw [h.refCount g]
    by_cases hg : g ∈ new
    · simp [hg]
    · by_cases hgt : g = t <;> simp [hg, hgt, Pmm.addTable]
  · intro g
    rw [h.pageTable g]
    by_cases hg : g ∈ new
    · simp [hg]
    · by_cases hgt : g = t <;> simp [hg, hgt, Pmm.addTable]
  · intro g
    rw [h.reserved g]
    by_cases hg : g ∈ new
    · simp [hg]
    · by_cases hgt : g = t <;> simp [hg, hgt, Pmm.addTable]

theorem Walked.still {c : ℕ} (hi : Inner a.tableOf Q m.mem l f)
    (hr : slot a.tableOf m.mem (levelIndex va) l f = r) :
    Walked a P Q va l f m { m with clock := c } r 0 where
  free := by simp
  grows := Grows.refl
  inner := hi
  same _ _ _ := rfl
  found s hs := hr.trans hs
  refused hn := hr.trans hn
  refCount _ := by simp
  pageTable _ := by simp
  reserved _ := by simp
  blockPages := rfl
  pageCount := rfl
  panicked := rfl

theorem getPteFrom_walked (hS : Shape a P Q) (E : Env)
    (va : ℕ) (hT : Tree a Q m l f) (hP : Pool m) :
    ∃ new, Walked a P Q va l f m (getPteFrom a E true va l f m).2 (getPteFrom a E true va l f m).1 new := by
  -- by induction on the level; a step follows a table, is refused one, or adds one and goes on inside it
  induction l generalizing f m with
  | zero => exact ⟨0, Walked.still hT.inner rfl⟩
  | succ l ih =>
    obtain ⟨g, hg, hd⟩ | ⟨hnone, hd | ⟨t, ht, hd⟩⟩ := descendLevel_cases a E (f, levelIndex va (l + 1)) l m
    · rw [getPteFrom, hd]
      obtain ⟨new, h⟩ := ih (hT.child hg) hP
      exact ⟨new, h.lift hT hg⟩
    · rw [getPteFrom, hd]
      refine ⟨0, Walked.still hT.inner ?_⟩
      simp only [slot, hnone, Option.elim_none]
    · rw [getPteFrom, hd]
      have hadd := addTable_added hS hT hP ht hnone
      obtain ⟨new, h⟩ := ih (hadd.tree.child hadd.linked) hadd.pool
      exact ⟨{t} + new, (h.lift hadd.tree hadd.linked).prepend hadd ht hnone⟩

theorem Walked.tree (h : Walked a P Q va l f m m' r new) (hT : Tree a Q m l f)
    (hP : Pool m) : Tree a Q m' l f ∧ Pool m' := by
  have hd : m'.free.Nodup ∧ new.Nodup ∧ Disjoint m'.free new := by
    have := hP.nodup
    rw [h.free, Multiset.nodup_add] at this
    exact this
  have hheld : ∀ g ∈ nodes a.tableOf m.mem l f, g ∉ m'.free ∧ g ∉ new := by
    intro g hg
    have := hT.held g hg
    rw [h.free, Multiset.mem_add, not_or] at this
    exact this
  refine ⟨⟨?_, h.inner, ?_⟩, ⟨hd.1, ?_⟩⟩
  · rw [h.grows.nodes_eq, Multiset.nodup_add]
    exact ⟨hT.nodup, hd.2.1, Multiset.disjoint_left.2 fun hg => (hheld _ hg).2⟩
  · intro g hg
    rw [h.grows.nodes_eq, Multiset.mem_add] at hg
    rcases hg with hg | hg
    · exact (hheld g hg).1
    · exact fun hf => Multiset.disjoint_left.1 hd.2.2 hf hg
  · intro g hg
    apply hP.bound
    rw [h.free]
    exact Multiset.mem_add.2 (Or.inl hg)

theorem translateWith_slot {s : ℕ × Fin 512}
    (hs : slot a.tableOf h (levelIndex va) l f = some s) :
    translateWith a (fun _ => ⟨false, false, false, false⟩) h va l f =
      if a.ptePresent (h s.1 s.2) then some (leafMapping a (h s.1 s.2) 0 va) else none := by
  induction l generalizing f with
  | zero =>
    cases hs
    rfl
  | succ l ih =>
    cases hg : a.tableOf (h f (levelIndex va (l + 1))) with
    | none => simp [slot, hg] at hs
    | some g =>
      simp only [slot, hg, Option.elim_some] at hs
      rw [translateWith_child hg, ih hs]
      simp only [Attrs.limit_none]
      exact Option.map_id'

theorem shape_wellFormed (a : Arch) : Shape a (fun _ => True) fun k w => a.WellFormed w k where
  wellFormed h := h
  zero k := by
    intro h
    rw [a.ptePresent_zero] at h
    cases h
  table k t ht := by
    intro _ hb
    rw [(a.isTable_makePteTable (fits_pageToPhys a t ht)).table] at hb
    cases hb
  piece _ _ _ hw := ⟨hw.wellFormed, trivial⟩
  leafZero := trivial

/-- A creating walk changes no translation and no attribute, whether it succeeds or is refused a table; on success it
ends at the place of the leaf entry, which maps the 4 KiB piece that the old leaf mapped there, or nothing. -/
theorem getPte_preserves_translation (a : Arch) (E : Env) (m : Pmm) (pgdir va : ℕ)
    (hT : Tree a (fun k w => a.WellFormed w k) m (a.ptWalkLevels - 1) pgdir) (hP : Pool m) :
    (∀ va', translate a (getPte a E pgdir va true m).2.mem pgdir va' = translate a m.mem pgdir va') ∧
      ∀ s, (getPte a E pgdir va true m).1 = some s →
        slot a.tableOf (getPte a E pgdir va true m).2.mem (levelIndex va) (a.ptWalkLevels - 1) pgdir = some s ∧
        translateLeaf a m.mem pgdir va =
          (let w := (getPte a E pgdir va true m).2.mem s.1 s.2
           if a.ptePresent w then some (leafMapping a w 0 va) else none) := by
  obtain ⟨new, h⟩ := getPteFrom_walked (shape_wellFormed a) E va hT hP
  refine ⟨fun va' => h.same a.limits (neutral_limits a) va', fun s hs => ?_⟩
  have hslot := h.found s hs
  refine ⟨hslot, ?_⟩
  rw [translateLeaf, ← h.same _ (fun _ _ => rfl) va, translateWith_slot hslot]
  rfl

/-- The 1 GiB leaf at physical address 0 that `head.S` puts into the Sv39 root, here at index 0 of frame 1. -/
def gigapage : Pmm where
  mem f i := if f = 1 ∧ i = 0 then 0xCF else 0
  free := {10, 11}
  refCount _ := 0
  pageTable _ := false
  reserved _ := false
  blockPages _ := 0
  pageCount := 16
  clock := 0
  panicked := false

def bump : Env where
  alloc t _ _ := some (10 + t)

theorem gigapage_tree : Tree .riscv64 (fun k w => Arch.riscv64.WellFormed w k) gigapage 2 1 := by
  have hw : ∀ i, gigapage.mem 1 i = if i = 0 then 0xCF else 0 := by simp [gigapage]
  have hbare : ∀ i, Arch.riscv64.tableOf (gigapage.mem 1 i) = none := by
    intro i
    rw [hw]
    split
    · decide
    · exact tableOf_zero _
  have hnodes : nodes Arch.riscv64.tableOf gigapage.mem 2 1 = {1} := nodes_bare hbare
  refine ⟨?_, ?_, ?_⟩
  · rw [hnodes]
    exact Multiset.nodup_singleton 1
  · apply inner_bare (fun _ => hbare)
    intro _ i
    rw [hw]
    split
    · intro _ _ _
      exact ⟨le_refl 2, by decide +kernel, by decide +kernel⟩
    · exact (shape_wellFormed .riscv64).zero 2
  · intro g hg
    rw [hnodes, Multiset.mem_singleton] at hg
    rw [hg]
    decide

theorem getPte_preserves_translation_gigapage :
    (getPte .riscv64 bump 1 0x201234 true gigapage).1 = some (11, 1) ∧
      translate .riscv64 (getPte .riscv64 bump 1 0x201234 true gigapage).2.mem 1 0x3FFFFFFF =
        some ⟨0x3FFFFFFF, ⟨true, true, false, true, true, 0xC0⟩⟩ := by
  have hP : Pool gigapage := ⟨by decide, by decide⟩
  refine ⟨by decide +kernel, ?_⟩
  rw [(getPte_preserves_translation .riscv64 bump gigapage 1 0x201234 gigapage_tree hP).1]
  decide +kernel

end Zonix.Vm
