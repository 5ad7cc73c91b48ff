import Mathlib
import Zonix.Lib.Tight
import Zonix.Vm.Mmio

/-!
# What `unmap_mmio_page` does

The walk and the loop that prunes, as one recursion over the levels: what is found at every address, which tables stay,
and which frames go back to the allocator.
-/

namespace Zonix.Vm

open Zonix.Lib
open Zonix.Lib.Radix

variable {a : Arch} {va l f g : ℕ} {m m' : Pmm}

/-! ## The loops as a recursion -/

def pruneOne (a : Arch) (table : ℕ) (entry : ℕ × Fin 512) (m : Pmm) : Pmm × Bool :=
  let page := physToPage (a.pteAddr (m.mem entry.1 entry.2))
  if ¬(∀ i, m.mem table i = 0) ∨ m.pageCount ≤ page then (m, false)
  else if m.pageTable page = false ∨ m.reserved page = true then (m, false)
  else (freeTablePage page { m with mem := write m.mem entry 0 }, true)

def unmapFrom (a : Arch) (va : ℕ) : ℕ → ℕ → Pmm → Pmm × Bool
  | 0, f, m => ({ m with mem := write m.mem (f, levelIndex va 0) 0 }, true)
  | l + 1, f, m =>
    match a.tableOf (m.mem f (levelIndex va (l + 1))) with
    | none => (m, true)
    | some g =>
      match unmapFrom a va l g m with
      | (m, false) => (m, false)
      | (m, true) => pruneOne a g (f, levelIndex va (l + 1)) m

def pruneRest (a : Arch) (f : ℕ) (entries : List (ℕ × Fin 512)) (r : Pmm × Bool) : Pmm :=
  if r.2 then pruneTables a f entries r.1 else r.1

theorem pruneTables_cons (a : Arch) (table : ℕ) (entry : ℕ × Fin 512) (entries : List (ℕ × Fin 512)) (m : Pmm) :
    pruneTables a table (entry :: entries) m = pruneRest a entry.1 entries (pruneOne a table entry m) := by
  simp only [pruneTables, pruneOne, pruneRest]
  split
  · rfl
  · split <;> rfl

theorem mmioEntries_unmapFrom (a : Arch) (va l f : ℕ) (above : List (ℕ × Fin 512)) (m : Pmm) :
    ∃ last entries, mmioEntries a m.mem va l f above = last :: entries ∧
      pruneTables a last.1 entries
          (if entries.length = l + above.length then { m with mem := write m.mem last 0 } else m) =
        pruneRest a f above (unmapFrom a va l f m) := by
  induction l generalizing f above with
  | zero =>
    refine ⟨(f, levelIndex va 0), above, rfl, ?_⟩
    rw [if_pos (Nat.zero_add _).symm]
    rfl
  | succ l ih =>
    rw [mmioEntries, unmapFrom]
    cases hg : a.tableOf (m.mem f (levelIndex va (l + 1))) with
    | none =>
      have hend : (!a.ptePresent (m.mem f (levelIndex va (l + 1))) ||
          a.pteIsBlock (m.mem f (levelIndex va (l + 1)))) = true := by
        cases hp : a.ptePresent (m.mem f (levelIndex va (l + 1))) with
        | false => rfl
        | true => exact isBlock_of_not_table hg hp
      refine ⟨(f, levelIndex va (l + 1)), above, by simp only [hend, if_true], ?_⟩
      rw [if_neg (by omega)]
      rfl
    | some g =>
      obtain ⟨hp, hb, rfl⟩ : a.ptePresent (m.mem f (levelIndex va (l + 1))) = true ∧
          a.pteIsBlock (m.mem f (levelIndex va (l + 1))) = false ∧
          physToPage (a.pteAddr (m.mem f (levelIndex va (l + 1)))) = g := by
        simp only [Arch.tableOf] at hg
        split at hg
        · rename_i h
          rw [Bool.and_eq_true, Bool.not_eq_true'] at h
          exact ⟨h.1, h.2, Option.some.inj hg⟩
        · cases hg
      simp only [hp, hb, Bool.not_true, Bool.or_false, Bool.false_eq_true, if_false]
      obtain ⟨last, entries, he, hprune⟩ :=
        ih (physToPage (a.pteAddr (m.mem f (levelIndex va (l + 1))))) ((f, levelIndex va (l + 1)) :: above)
      refine ⟨last, entries, he, ?_⟩
      rw [List.length_cons, show l + (above.length + 1) = l + 1 + above.length by omega] at hprune
      rw [hprune]
      generalize unmapFrom a va l _ m = r
      obtain ⟨m', go⟩ := r
      cases go with
      | false => simp only [pruneRest, Bool.false_eq_true, if_false]
      | true =>
        simp only
        rw [pruneRest, if_pos rfl, pruneTables_cons]

theorem unmapMmioPage_eq (a : Arch) (pgdir va : ℕ) (m : Pmm) :
    unmapMmioPage a pgdir va m = (unmapFrom a va (a.ptWalkLevels - 1) pgdir m).1 := by
  obtain ⟨last, entries, he, hprune⟩ := mmioEntries_unmapFrom a va (a.ptWalkLevels - 1) pgdir [] m
  rw [List.length_nil, Nat.add_zero] at hprune
  rw [unmapMmioPage, he]
  simp only
  rw [hprune, pruneRest]
  split <;> rfl

/-! ## Tables that can be pruned -/

/-- A table that `alloc_table_page` made. -/
structure Dynamic (m : Pmm) (g : ℕ) : Prop where
  bound : g < m.pageCount
  pageTable : m.pageTable g = true
  reserved : m.reserved g = false
  refCount : m.refCount g = 1

variable {V : (ℕ → Fin 512) → Prop} {p q : ℕ → Fin 512}

/-- Every table on path `p` below `f` can be given back, or has a word that no path in `V` reaches. -/
def Clearable (a : Arch) (m : Pmm) (V : (ℕ → Fin 512) → Prop) (p : ℕ → Fin 512) : ℕ → ℕ → Prop
  | 0, _ => True
  | l + 1, f => ∀ g, a.tableOf (m.mem f (p (l + 1))) = some g →
      (Dynamic m g ∨ ∃ j, m.mem g j ≠ 0 ∧ ∀ q, V q → q l ≠ j) ∧ Clearable a m V p l g

theorem Clearable.congr (hc : Clearable a m V p l f) (hh : ∀ g ∈ nodes a.tableOf m.mem l f, m'.mem g = m.mem g)
    (hd : ∀ g ∈ nodes a.tableOf m.mem l f, Dynamic m g → Dynamic m' g) : Clearable a m' V p l f := by
  induction l generalizing f with
  | zero => trivial
  | succ l ih =>
    intro g hg
    rw [hh f self_mem_nodes] at hg
    obtain ⟨hor, hc⟩ := hc g hg
    refine ⟨?_, ih hc (fun k hk => hh k (mem_nodes_child hg hk)) fun k hk => hd k (mem_nodes_child hg hk)⟩
    have hself : g ∈ nodes a.tableOf m.mem l g := self_mem_nodes
    have hmem := mem_nodes_child hg hself
    rw [hh g hmem]
    exact hor.imp_left (hd g hmem)

theorem Clearable.change {j : Fin 512} (hc : Clearable a m V p (l + 1) f) (hw : ∀ i, i ≠ j → m'.mem f i = m.mem f i)
    (hn : ∀ i, i ≠ j → ∀ g, a.tableOf (m.mem f i) = some g → ∀ k ∈ nodes a.tableOf m.mem l g, m'.mem k = m.mem k)
    (hd : ∀ i, i ≠ j → ∀ g, a.tableOf (m.mem f i) = some g → ∀ k ∈ nodes a.tableOf m.mem l g,
      Dynamic m k → Dynamic m' k)
    (hj : p (l + 1) = j → ∀ g, a.tableOf (m'.mem f j) = some g →
      (Dynamic m' g ∨ ∃ i, m'.mem g i ≠ 0 ∧ ∀ q, V q → q l ≠ i) ∧ Clearable a m' V p l g) :
    Clearable a m' V p (l + 1) f := by
  intro g hg
  by_cases hp : p (l + 1) = j
  · rw [hp] at hg
    exact hj hp g hg
  · rw [hw _ hp] at hg
    obtain ⟨hor, hc⟩ := hc g hg
    refine ⟨?_, hc.congr (hn _ hp g hg) (hd _ hp g hg)⟩
    rw [hn _ hp g hg g self_mem_nodes]
    exact hor.imp_left (hd _ hp g hg g self_mem_nodes)

/-! ## Removing one page -/

variable {P : Word → Prop} {Q : ℕ → Word → Prop} {freed : Multiset ℕ}

structure Unmapped (a : Arch) (Q : ℕ → Word → Prop) (V : (ℕ → Fin 512) → Prop) (va l f : ℕ) (m m' : Pmm)
    (freed : Multiset ℕ) : Prop where
  free : m'.free = freed + m.free
  nodes : nodes a.tableOf m.mem l f = nodes a.tableOf m'.mem l f + freed
  frame : ∀ g, g ∉ Radix.nodes a.tableOf m.mem l f → m'.mem g = m.mem g
  words : ∀ i, i ≠ levelIndex va l → m'.mem f i = m.mem f i
  inner : Inner a.tableOf Q m'.mem l f
  content : ∀ p, content a.tableOf m'.mem p l f =
    if ∀ k ≤ l, p k = levelIndex va k then none else content a.tableOf m.mem p l f
  other : ∀ lim va', (∃ k ≤ l, levelIndex va k ≠ levelIndex va' k) →
    translateWith a lim m'.mem va' l f = translateWith a lim m.mem va' l f
  tight : ∀ off, Tight a.tableOf m.mem l (fun p => off p ∨ p = levelIndex va) f → Tight a.tableOf m'.mem l off f
  clear : ∀ p, V p → Clearable a m V p l f → Clearable a m' V p l f
  flags : ∀ g, g ∉ freed → m'.refCount g = m.refCount g ∧ m'.pageTable g = m.pageTable g ∧ m'.reserved g = m.reserved g
  given : ∀ g ∈ freed, m'.refCount g = 0 ∧ Dynamic m g
  kept : ∀ g, 0 < l → a.tableOf (m.mem f (levelIndex va l)) = some g → g ∉ freed → m'.mem f = m.mem f
  blockPages : m'.blockPages = m.blockPages
  pageCount : m'.pageCount = m.pageCount
  clock : m'.clock = m.clock
  panicked : m'.panicked = m.panicked

theorem Unmapped.dynamic (h : Unmapped a Q V va l f m m' freed) (hg : g ∉ freed) (hd : Dynamic m g) : Dynamic m' g := by
  obtain ⟨hr, ht, hv⟩ := h.flags g hg
  exact ⟨by rw [h.pageCount]; exact hd.bound, ht.trans hd.pageTable, hv.trans hd.reserved, hr.trans hd.refCount⟩

theorem Unmapped.freed_mem (h : Unmapped a Q V va l f m m' freed) {k : ℕ} (hk : k ∈ freed) :
    k ∈ Radix.nodes a.tableOf m.mem l f := by
  rw [h.nodes]
  exact Multiset.mem_add.2 (Or.inr hk)

theorem Unmapped.root_kept (h : Unmapped a Q V va l f m m' freed) (hd : (Radix.nodes a.tableOf m.mem l f).Nodup) :
    f ∉ freed := by
  rw [h.nodes, Multiset.nodup_add] at hd
  exact Multiset.disjoint_left.1 hd.2.2 self_mem_nodes

theorem Unmapped.outside {j : Fin 512} (h : Unmapped a Q V va l g m m' freed)
    (hd : (Radix.nodes a.tableOf m.mem (l + 1) f).Nodup) (hg : a.tableOf (m.mem f j) = some g) :
    m'.mem f = m.mem f ∧ ∀ i, i ≠ j → ∀ g', a.tableOf (m.mem f i) = some g' →
      ∀ k ∈ Radix.nodes a.tableOf m.mem l g', m'.mem k = m.mem k ∧ k ∉ freed := by
  refine ⟨h.frame f (nodup_child hd hg).2, fun i hi g' hg' k hk => ?_⟩
  have hout := disjoint_children hd hi hg' hg hk
  exact ⟨h.frame k hout, fun hf => hout (h.freed_mem hf)⟩

theorem unmapped_leaf (V : (ℕ → Fin 512) → Prop) :
    Unmapped a Q V va 0 f m { m with mem := write m.mem (f, levelIndex va 0) 0 } 0 where
  free := (Multiset.zero_add _).symm
  nodes := by rw [nodes_zero, nodes_zero, Multiset.add_zero]
  frame g hg := write_node _ _ _ (by simpa [nodes_zero] using hg)
  words i hi := write_index _ _ _ _ hi
  inner := trivial
  content p := by
    have hd : (Radix.nodes a.tableOf m.mem 0 f).Nodup := by
      rw [nodes_zero]
      exact Multiset.nodup_singleton f
    exact content_write (p := levelIndex va) (w := 0) hd rfl
  other lim va' hne := by
    obtain ⟨k, hk, hne⟩ := hne
    obtain rfl : k = 0 := Nat.le_zero.1 hk
    simp only [translateWith, write_index _ _ _ _ (Ne.symm hne)]
  tight _ _ := trivial
  clear _ _ _ := trivial
  flags _ _ := ⟨rfl, rfl, rfl⟩
  given g hg := absurd hg (Multiset.notMem_zero g)
  kept _ h := absurd h (Nat.lt_irrefl 0)
  blockPages := rfl
  pageCount := rfl
  clock := rfl
  panicked := rfl

theorem unmapped_absent (V : (ℕ → Fin 512) → Prop) (hi : Inner a.tableOf Q m.mem (l + 1) f)
    (hg : a.tableOf (m.mem f (levelIndex va (l + 1))) = none) (h0 : m.mem f (levelIndex va (l + 1)) = 0) :
    Unmapped a Q V va (l + 1) f m m 0 where
  free := (Multiset.zero_add _).symm
  nodes := (Multiset.add_zero _).symm
  frame _ _ := rfl
  words _ _ := rfl
  inner := hi
  content p := by
    split
    · rename_i hp
      have hp' := hp (l + 1) (Nat.le_refl _)
      rw [content_end (by rw [hp']; exact hg), if_pos (by rw [hp']; exact h0)]
    · rfl
  other _ _ _ := rfl
  tight off ht := by
    refine ht.change (j := levelIndex va (l + 1)) (fun _ _ => rfl) (fun _ _ _ _ _ _ => rfl) ?_ ?_
    · intro p hp hne
      obtain hp | rfl := hp
      · exact hp
      · exact absurd rfl hne
    · intro g hg'
      rw [hg] at hg'
      cases hg'
  clear _ _ hc := hc
  flags _ _ := ⟨rfl, rfl, rfl⟩
  given g hg := absurd hg (Multiset.notMem_zero g)
  kept _ _ _ _ := rfl
  blockPages := rfl
  pageCount := rfl
  clock := rfl
  panicked := rfl

theorem agree_succ {p : ℕ → Fin 512} (hp : p (l + 1) = levelIndex va (l + 1)) :
    (∀ k ≤ l + 1, p k = levelIndex va k) ↔ ∀ k ≤ l, p k = levelIndex va k := by
  refine ⟨fun hall k hk => hall k (by omega), fun hall k hk => ?_⟩
  obtain hk | rfl : k ≤ l ∨ k = l + 1 := by omega
  · exact hall k hk
  · exact hp

theorem Unmapped.lift (hT : Tree a Q m (l + 1) f) (hV : V (levelIndex va))
    (hg : a.tableOf (m.mem f (levelIndex va (l + 1))) = some g) (h : Unmapped a Q V va l g m m' freed)
    (hne : ∃ j, m'.mem g j ≠ 0) : Unmapped a Q V va (l + 1) f m m' freed := by
  obtain ⟨hf, hn⟩ := h.outside hT.nodup hg
  have hw : ∀ i, i ≠ levelIndex va (l + 1) → m'.mem f i = m.mem f i := fun i _ => by rw [hf]
  have hn' : ∀ i, i ≠ levelIndex va (l + 1) → ∀ g', a.tableOf (m.mem f i) = some g' →
      ∀ k ∈ Radix.nodes a.tableOf m.mem l g', m'.mem k = m.mem k := fun i hi g' hg' k hk => (hn i hi g' hg' k hk).1
  have hg' : a.tableOf (m'.mem f (levelIndex va (l + 1))) = some g := by rw [hf, hg]
  have hgf := h.root_kept (nodup_child hT.nodup hg).1
  refine { h with nodes := ?_, frame := ?_, words := hw, inner := ?_, content := ?_, other := ?_, tight := ?_,
                  clear := ?_, kept := fun _ _ _ _ => hf }
  · have hsum : Radix.nodes a.tableOf m'.mem (l + 1) f + freed = Radix.nodes a.tableOf m.mem (l + 1) f + 0 := by
      apply nodes_change hw hn'
      rw [below_eq hg, below_eq hg', add_zero]
      exact h.nodes.symm
    rw [hsum, add_zero]
  · intro k hk
    exact h.frame k fun hm => hk (mem_nodes_child hg hm)
  · apply hT.inner.change hw hn'
    rw [hf, hg]
    refine ⟨hT.inner.word, ?_⟩
    rintro _ ⟨⟩
    exact h.inner
  · intro p
    by_cases hp : p (l + 1) = levelIndex va (l + 1)
    · rw [content_child (by rw [hp]; exact hg'), content_child (by rw [hp]; exact hg), h.content p]
      simp only [agree_succ hp]
    · rw [content_change hw hn' hp, if_neg fun hall => hp (hall (l + 1) (Nat.le_refl _))]
  · intro lim va' hdiff
    by_cases hp : levelIndex va' (l + 1) = levelIndex va (l + 1)
    · obtain ⟨k, hk, hkne⟩ := hdiff
      have hkl : k ≠ l + 1 := by
        rintro rfl
        exact hkne hp.symm
      rw [translateWith_child (by rw [hp]; exact hg'), translateWith_child (by rw [hp]; exact hg), hf,
        h.other lim va' ⟨k, by omega, hkne⟩]
    · simp only [translateWith, hf]
      cases hgv : a.tableOf (m.mem f (levelIndex va' (l + 1))) with
      | none => rfl
      | some k =>
        simp only
        rw [translateWith_congr (hn' _ hp k hgv)]
  · intro off ht
    refine ht.change hw hn' ?_ ?_
    · intro p hp hpne
      obtain hp | rfl := hp
      · exact hp
      · exact absurd rfl hpne
    · intro k hk
      rw [hg'] at hk
      obtain rfl := Option.some.inj hk
      refine ⟨Or.inl hne, h.tight _ ((ht _ g hg).2.mono ?_)⟩
      rintro p ⟨hp | rfl, hi⟩
      · exact Or.inl ⟨hp, hi⟩
      · exact Or.inr rfl
  · intro p hp hc
    refine hc.change hw hn' (fun i hi k hk k' hk' => h.dynamic (hn i hi k hk k' hk').2) ?_
    intro hpj k hk
    rw [hg'] at hk
    obtain rfl := Option.some.inj hk
    obtain ⟨hor, hcg⟩ := hc g (by rw [hpj]; exact hg)
    refine ⟨hor.imp (h.dynamic hgf) ?_, h.clear p hp hcg⟩
    rintro ⟨i, hi, hoff⟩
    exact ⟨i, by rw [h.words i (Ne.symm (hoff _ hV))]; exact hi, hoff⟩

theorem translateWith_empty {lim : Word → Limits} {h : Heap 512 Word} (hg : ∀ i, h g i = 0) :
    translateWith a lim h va l g = none := by
  cases l with
  | zero =>
    simp only [translateWith, hg, a.ptePresent_zero]
    rfl
  | succ l =>
    rw [translateWith_missing (by rw [hg, tableOf_zero]), hg, a.ptePresent_zero]
    rfl

theorem freeTablePage_dynamic (hd : Dynamic m g) :
    (freeTablePage g m).panicked = m.panicked ∧ (freeTablePage g m).refCount g = 0 ∧
      ∀ k, k ≠ g → (freeTablePage g m).refCount k = m.refCount k ∧ (freeTablePage g m).pageTable k = m.pageTable k ∧
        (freeTablePage g m).reserved k = m.reserved k := by
  refine ⟨?_, ?_, fun k hk => ?_⟩
  · simp [freeTablePage, freePages, hd.refCount]
  · simp [freeTablePage, freePages]
  · have hne : ¬(g ≤ k ∧ k < g + 1) := by omega
    simp only [freeTablePage, freePages, if_neg hne, if_neg hk]
    exact ⟨trivial, trivial, trivial⟩

theorem Unmapped.prune (hQ : ∀ k, Q k 0) (hT : Tree a Q m (l + 1) f)
    (hg : a.tableOf (m.mem f (levelIndex va (l + 1))) = some g) (h : Unmapped a Q V va l g m m' freed)
    (hempty : ∀ i, m'.mem g i = 0) (hdyn : Dynamic m g) :
    Unmapped a Q V va (l + 1) f m
      (freeTablePage g { m' with mem := write m'.mem (f, levelIndex va (l + 1)) 0 }) ({g} + freed) := by
  obtain ⟨hf, hn⟩ := h.outside hT.nodup hg
  have hbare : Radix.nodes a.tableOf m'.mem l g = {g} := nodes_bare fun i => by rw [hempty, tableOf_zero]
  have hnodes : Radix.nodes a.tableOf m.mem l g = {g} + freed := by rw [h.nodes, hbare]
  have hgf := h.root_kept (nodup_child hT.nodup hg).1
  obtain ⟨hpan, href, hflags⟩ := freeTablePage_dynamic (m := { m' with mem := write m'.mem (f, levelIndex va (l + 1)) 0 })
    (show Dynamic _ g from ⟨(h.dynamic hgf hdyn).bound, (h.dynamic hgf hdyn).pageTable, (h.dynamic hgf hdyn).reserved,
      (h.dynamic hgf hdyn).refCount⟩)
  have hmem : (freeTablePage g { m' with mem := write m'.mem (f, levelIndex va (l + 1)) 0 }).mem =
      write m'.mem (f, levelIndex va (l + 1)) 0 := rfl
  have hzero : write m'.mem (f, levelIndex va (l + 1)) 0 f (levelIndex va (l + 1)) = 0 :=
    write_self m'.mem (f, levelIndex va (l + 1)) 0
  have hnone : a.tableOf (write m'.mem (f, levelIndex va (l + 1)) 0 f (levelIndex va (l + 1))) = none := by
    rw [hzero, tableOf_zero]
  have hw : ∀ i, i ≠ levelIndex va (l + 1) → write m'.mem (f, levelIndex va (l + 1)) 0 f i = m.mem f i := by
    intro i hi
    rw [write_index _ _ _ _ hi, hf]
  have hn' : ∀ i, i ≠ levelIndex va (l + 1) → ∀ g', a.tableOf (m.mem f i) = some g' →
      ∀ k ∈ Radix.nodes a.tableOf m.mem l g', write m'.mem (f, levelIndex va (l + 1)) 0 k = m.mem k := by
    intro i hi g' hg' k hk
    have hkf : k ≠ f := fun hkf => (nodup_child hT.nodup hg').2 (hkf ▸ hk)
    rw [write_node _ (f, _) _ hkf, (hn i hi g' hg' k hk).1]
  -- the paths through the child found nothing but the page
  have hchild : ∀ p, p (l + 1) = levelIndex va (l + 1) → ¬(∀ k ≤ l + 1, p k = levelIndex va k) →
      Radix.content a.tableOf m.mem p l g = none := by
    intro p hp hne
    have hc := h.content p
    rw [content_empty (tableOf_zero a) hempty, if_neg (by rwa [agree_succ hp] at hne)] at hc
    exact hc.symm
  refine ⟨?_, ?_, ?_, hw, ?_, ?_, ?_, ?_, ?_, ?_, ?_, ?_, h.blockPages, h.pageCount, h.clock, hpan.trans h.panicked⟩
  · show frames g 1 + m'.free = {g} + freed + m.free
    rw [h.free, frames_one, add_assoc]
  · have hsum : Radix.nodes a.tableOf (write m'.mem (f, levelIndex va (l + 1)) 0) (l + 1) f + ({g} + freed) =
        Radix.nodes a.tableOf m.mem (l + 1) f + 0 := by
      apply nodes_change hw hn'
      rw [below_none hnone, below_eq hg, zero_add, add_zero]
      exact hnodes.symm
    rw [hmem, hsum, add_zero]
  · intro k hk
    have hkf : k ≠ f := fun hkf => hk (hkf ▸ self_mem_nodes)
    rw [hmem, write_node _ (f, _) _ hkf]
    exact h.frame k fun hm => hk (mem_nodes_child hg hm)
  · rw [hmem]
    apply hT.inner.change hw hn'
    rw [hzero]
    refine ⟨hQ _, fun k hk => ?_⟩
    rw [tableOf_zero] at hk
    cases hk
  · intro p
    rw [hmem]
    by_cases hp : p (l + 1) = levelIndex va (l + 1)
    · rw [content_end (by rw [hp]; exact hnone), hp, if_pos hzero, content_child (by rw [hp]; exact hg)]
      split
      · rfl
      · rename_i hne
        exact (hchild p hp hne).symm
    · rw [content_change hw hn' hp, if_neg fun hall => hp (hall (l + 1) (Nat.le_refl _))]
  · intro lim va' hdiff
    rw [hmem]
    by_cases hp : levelIndex va' (l + 1) = levelIndex va (l + 1)
    · obtain ⟨k, hk, hkne⟩ := hdiff
      have hkl : k ≠ l + 1 := by
        rintro rfl
        exact hkne hp.symm
      rw [translateWith_missing (by rw [hp]; exact hnone), translateWith_child (by rw [hp]; exact hg),
        ← h.other lim va' ⟨k, by omega, hkne⟩, translateWith_empty hempty, hp, hzero, a.ptePresent_zero]
      rfl
    · simp only [translateWith, hw _ hp]
      cases hgv : a.tableOf (m.mem f (levelIndex va' (l + 1))) with
      | none => rfl
      | some k =>
        simp only
        rw [translateWith_congr (hn' _ hp k hgv)]
  · intro off ht
    rw [hmem]
    refine ht.change hw hn' ?_ ?_
    · intro p hp hpne
      obtain hp | rfl := hp
      · exact hp
      · exact absurd rfl hpne
    · intro k hk
      rw [hnone] at hk
      cases hk
  · intro p hp hc
    refine hc.change hw hn' ?_ ?_
    · intro i hi k hk k' hk' hd
      have hkg : k' ≠ g := fun hkg => disjoint_children hT.nodup hi hk hg hk' (hkg ▸ self_mem_nodes)
      have hd' := h.dynamic (hn i hi k hk k' hk').2 hd
      obtain ⟨hr, ht, hv⟩ := hflags k' hkg
      exact ⟨hd'.bound, ht.trans hd'.pageTable, hv.trans hd'.reserved, hr.trans hd'.refCount⟩
    · intro _ k hk
      rw [hmem, hnone] at hk
      cases hk
  · intro k hk
    rw [Multiset.mem_add, not_or, Multiset.mem_singleton] at hk
    obtain ⟨hr, ht, hv⟩ := hflags k hk.1
    obtain ⟨hr', ht', hv'⟩ := h.flags k hk.2
    exact ⟨hr.trans hr', ht.trans ht', hv.trans hv'⟩
  · intro k hk
    rw [Multiset.mem_add, Multiset.mem_singleton] at hk
    by_cases hkg : k = g
    · rw [hkg]
      exact ⟨href, hdyn⟩
    · rw [(hflags k hkg).1]
      exact h.given k (hk.resolve_left hkg)
  · intro k _ hk hkf
    rw [hg] at hk
    obtain rfl := Option.some.inj hk
    exact absurd (Multiset.mem_add.2 (Or.inl (Multiset.mem_singleton_self g))) hkf

theorem pruneOne_cases (a : Arch) (entry : ℕ × Fin 512) (hg : a.tableOf (m.mem entry.1 entry.2) = some g) :
    ((∃ j, m.mem g j ≠ 0) ∨ ¬Dynamic m g) ∧ pruneOne a g entry m = (m, false) ∨
      (∀ j, m.mem g j = 0) ∧ pruneOne a g entry m = (freeTablePage g { m with mem := write m.mem entry 0 }, true) := by
  have hpage : physToPage (a.pteAddr (m.mem entry.1 entry.2)) = g := by
    simp only [Arch.tableOf] at hg
    split at hg
    · exact Option.some.inj hg
    · cases hg
  rw [pruneOne, hpage]
  by_cases hempty : ∀ i, m.mem g i = 0
  · by_cases hcount : m.pageCount ≤ g
    · refine Or.inl ⟨Or.inr fun hd => ?_, if_pos (Or.inr hcount)⟩
      have := hd.bound
      omega
    · simp only [hempty, implies_true, not_true_eq_false, hcount, or_self, if_false]
      by_cases hflag : m.pageTable g = false ∨ m.reserved g = true
      · refine Or.inl ⟨Or.inr fun hd => ?_, if_pos hflag⟩
        rw [hd.pageTable, hd.reserved] at hflag
        simp at hflag
      · exact Or.inr ⟨trivial, if_neg hflag⟩
  · refine Or.inl ⟨Or.inl ?_, if_pos (Or.inl hempty)⟩
    rwa [not_forall] at hempty

theorem unmapFrom_unmapped (hQ : ∀ k, Q k 0) (hV : V (levelIndex va)) (hT : Tree a Q m l f)
    (hplain : ∀ e, content a.tableOf m.mem (levelIndex va) l f = some e → e.1 = 0)
    (hc : Clearable a m V (levelIndex va) l f) :
    ∃ freed, Unmapped a Q V va l f m (unmapFrom a va l f m).1 freed ∧
      ((unmapFrom a va l f m).2 = false → (unmapFrom a va l f m).1.mem f (levelIndex va l) ≠ 0) := by
  -- by induction on the level; the loop ends below, ends at the child, or gives the child back
  induction l generalizing f with
  | zero => exact ⟨0, unmapped_leaf V, fun h => by cases h⟩
  | succ l ih =>
    rw [unmapFrom]
    cases hg : a.tableOf (m.mem f (levelIndex va (l + 1))) with
    | none =>
      refine ⟨0, unmapped_absent V hT.inner hg ?_, fun h => by cases h⟩
      by_contra hne
      rw [content_end hg, if_neg hne] at hplain
      have := hplain _ rfl
      omega
    | some g =>
      obtain ⟨hor, hcg⟩ := hc g hg
      rw [content_child hg] at hplain
      obtain ⟨freed, h, hgo⟩ := ih (hT.child hg) hplain hcg
      have hword : m.mem f (levelIndex va (l + 1)) ≠ 0 := by
        intro h0
        rw [h0, tableOf_zero] at hg
        cases hg
      simp only
      generalize unmapFrom a va l g m = r at h hgo ⊢
      obtain ⟨m', go⟩ := r
      have hf := (h.outside hT.nodup hg).1
      cases go with
      | false => exact ⟨freed, h.lift hT hV hg ⟨_, hgo rfl⟩, fun _ => by rw [hf]; exact hword⟩
      | true =>
        obtain ⟨hstop, heq⟩ | ⟨hempty, heq⟩ :=
          pruneOne_cases a (f, levelIndex va (l + 1)) (show a.tableOf (m'.mem f _) = some g by rw [hf, hg])
        · simp only [heq]
          refine ⟨freed, h.lift hT hV hg ?_, fun _ => by rw [hf]; exact hword⟩
          obtain hne | hnot := hstop
          · exact hne
          · obtain hdyn | ⟨j, hj, hoff⟩ := hor
            · exact absurd (h.dynamic (h.root_kept (nodup_child hT.nodup hg).1) hdyn) hnot
            · exact ⟨j, by rw [h.words j (Ne.symm (hoff _ hV))]; exact hj⟩
        · simp only [heq]
          refine ⟨{g} + freed, h.prune hQ hT hg hempty ?_, fun h => by cases h⟩
          obtain hdyn | ⟨j, hj, hoff⟩ := hor
          · exact hdyn
          · rw [← h.words j (Ne.symm (hoff _ hV))] at hj
            exact absurd (hempty j) hj

end Zonix.Vm
