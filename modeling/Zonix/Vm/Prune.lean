import Mathlib
import Zonix.Vm.Mapping
import Zonix.Vm.Unmap

/-!
# Which tables `unmap_mmio_page` prunes

For any kernel page table, with static tables and large leaves: the second loop gives back the lowest tables of the
walk as far as they are empty and were allocated as table pages, and nothing above the first table that is not.
-/

namespace Zonix.Vm

open Zonix.Lib
open Zonix.Lib.Radix

variable {a : Arch} {va l f g : ℕ} {m m' : Pmm} {h : Heap 512 Word} {kept freed : List ℕ}

def walkTables (a : Arch) (h : Heap 512 Word) (va : ℕ) : ℕ → ℕ → List ℕ
  | 0, _ => []
  | l + 1, f =>
    match a.tableOf (h f (levelIndex va (l + 1))) with
    | none => []
    | some g => g :: walkTables a h va l g

theorem walkTables_some (hg : a.tableOf (h f (levelIndex va (l + 1))) = some g) :
    walkTables a h va (l + 1) f = g :: walkTables a h va l g := by
  rw [walkTables, hg]

theorem walkTables_none (hg : a.tableOf (h f (levelIndex va (l + 1))) = none) :
    walkTables a h va (l + 1) f = [] := by
  rw [walkTables, hg]

theorem walkTables_nodes {k : ℕ} (hk : k ∈ walkTables a h va l f) : k ∈ nodes a.tableOf h l f := by
  induction l generalizing f with
  | zero => exact absurd hk List.not_mem_nil
  | succ l ih =>
    cases hg : a.tableOf (h f (levelIndex va (l + 1))) with
    | none =>
      rw [walkTables_none hg] at hk
      exact absurd hk List.not_mem_nil
    | some g =>
      rw [walkTables_some hg] at hk
      rcases List.mem_cons.1 hk with rfl | hk
      · exact mem_nodes_child hg self_mem_nodes
      · exact mem_nodes_child hg (ih hk)

theorem walkTables_nodup (hd : (nodes a.tableOf h l f).Nodup) : (f :: walkTables a h va l f).Nodup := by
  induction l generalizing f with
  | zero => exact List.nodup_singleton f
  | succ l ih =>
    cases hg : a.tableOf (h f (levelIndex va (l + 1))) with
    | none =>
      rw [walkTables_none hg]
      exact List.nodup_singleton f
    | some g =>
      obtain ⟨hchild, hroot⟩ := nodup_child hd hg
      rw [walkTables_some hg, List.nodup_cons]
      refine ⟨fun hf => hroot ?_, ih hchild⟩
      rcases List.mem_cons.1 hf with rfl | hf
      · exact self_mem_nodes
      · exact walkTables_nodes hf

structure Prunable (m m' : Pmm) (g : ℕ) : Prop where
  bound : g < m.pageCount
  pageTable : m.pageTable g = true
  reserved : m.reserved g = false
  empty : ∀ i, m'.mem g i = 0

structure Pruned (a : Arch) (va l f : ℕ) (m m' : Pmm) (kept freed : List ℕ) : Prop where
  walk : walkTables a m.mem va l f = kept ++ freed
  free : m'.free = (freed : Multiset ℕ) + m.free
  nodes : nodes a.tableOf m.mem l f = nodes a.tableOf m'.mem l f + (freed : Multiset ℕ)
  frame : ∀ k, k ∉ Radix.nodes a.tableOf m.mem l f → m'.mem k = m.mem k
  words : ∀ k i, m'.mem k i ≠ m.mem k i → m'.mem k i = 0 ∧
    (slot a.tableOf m.mem (levelIndex va) l f = some (k, i) ∨ ∃ t ∈ freed, a.tableOf (m.mem k i) = some t)
  other : ∀ lim va', (∃ k ≤ l, levelIndex va k ≠ levelIndex va' k) →
    translateWith a lim m'.mem va' l f = translateWith a lim m.mem va' l f
  page : ∀ lim va', (∀ k ≤ l, levelIndex va k = levelIndex va' k) → translateWith a lim m'.mem va' l f =
    if (slot a.tableOf m.mem (levelIndex va) l f).isSome then none else translateWith a lim m.mem va' l f
  given : ∀ k ∈ freed, Prunable m m' k ∧ m'.refCount k = 0
  stop : ∀ k ∈ kept.getLast?, ¬Prunable m m' k
  flags : ∀ k, k ∉ freed → m'.refCount k = m.refCount k ∧ m'.pageTable k = m.pageTable k ∧ m'.reserved k = m.reserved k
  blockPages : m'.blockPages = m.blockPages
  pageCount : m'.pageCount = m.pageCount
  clock : m'.clock = m.clock
  panicked : m'.panicked = m.panicked

theorem pruned_leaf : Pruned a va 0 f m { m with mem := write m.mem (f, levelIndex va 0) 0 } [] [] where
  walk := rfl
  free := (Multiset.zero_add _).symm
  nodes := by
    rw [nodes_zero, nodes_zero]
    exact (Multiset.add_zero _).symm
  frame k hk := write_node _ _ _ (by simpa [nodes_zero] using hk)
  words k i hne := by
    by_cases hs : k = f ∧ i = levelIndex va 0
    · obtain ⟨rfl, rfl⟩ := hs
      exact ⟨write_self m.mem (k, levelIndex va 0) 0, Or.inl rfl⟩
    · exact absurd (if_neg hs) hne
  other lim va' hne := by
    obtain ⟨k, hk, hne⟩ := hne
    obtain rfl : k = 0 := Nat.le_zero.1 hk
    simp only [translateWith, write_index _ _ _ _ (Ne.symm hne)]
  page lim va' hsame := by
    have hw : write m.mem (f, levelIndex va 0) 0 f (levelIndex va' 0) = 0 := by
      rw [← hsame 0 le_rfl]
      exact write_self m.mem (f, levelIndex va 0) 0
    simp only [translateWith, hw, a.ptePresent_zero]
    rfl
  given k hk := absurd hk List.not_mem_nil
  stop k hk := by cases hk
  flags _ _ := ⟨rfl, rfl, rfl⟩
  blockPages := rfl
  pageCount := rfl
  clock := rfl
  panicked := rfl

theorem pruned_absent (hg : a.tableOf (m.mem f (levelIndex va (l + 1))) = none) :
    Pruned a va (l + 1) f m m [] [] where
  walk := walkTables_none hg
  free := (Multiset.zero_add _).symm
  nodes := (Multiset.add_zero _).symm
  frame _ _ := rfl
  words _ _ hne := absurd rfl hne
  other _ _ _ := rfl
  page lim va' _ := by
    have hslot : slot a.tableOf m.mem (levelIndex va) (l + 1) f = none := by rw [slot, hg]; rfl
    rw [hslot]
    rfl
  given k hk := absurd hk List.not_mem_nil
  stop k hk := by cases hk
  flags _ _ := ⟨rfl, rfl, rfl⟩
  blockPages := rfl
  pageCount := rfl
  clock := rfl
  panicked := rfl

theorem Pruned.freed_nodes (h : Pruned a va l f m m' kept freed) {k : ℕ} (hk : k ∈ freed) :
    k ∈ Radix.nodes a.tableOf m.mem l f :=
  walkTables_nodes (by rw [h.walk]; exact List.mem_append_right _ hk)

theorem Pruned.root_kept (h : Pruned a va l f m m' kept freed) (hd : (Radix.nodes a.tableOf m.mem l f).Nodup) :
    f ∉ freed := by
  intro hf
  have hn : (f :: walkTables a m.mem va l f).Nodup := walkTables_nodup hd
  rw [h.walk, List.nodup_cons] at hn
  exact hn.1 (List.mem_append_right _ hf)

theorem Pruned.outside {j : Fin 512} (h : Pruned a va l g m m' kept freed)
    (hd : (Radix.nodes a.tableOf m.mem (l + 1) f).Nodup) (hg : a.tableOf (m.mem f j) = some g) :
    m'.mem f = m.mem f ∧ ∀ i, i ≠ j → ∀ g', a.tableOf (m.mem f i) = some g' →
      ∀ k ∈ Radix.nodes a.tableOf m.mem l g', m'.mem k = m.mem k :=
  ⟨h.frame f (nodup_child hd hg).2, fun _ hi _ hg' k hk => h.frame k (disjoint_children hd hi hg' hg hk)⟩

theorem slot_succ (hg : a.tableOf (h f (levelIndex va (l + 1))) = some g) :
    slot a.tableOf h (levelIndex va) (l + 1) f = slot a.tableOf h (levelIndex va) l g := by
  rw [slot, hg]
  rfl

section

variable (hd : (Radix.nodes a.tableOf m.mem (l + 1) f).Nodup) (hg : a.tableOf (m.mem f (levelIndex va (l + 1))) = some g)
include hd hg

theorem Pruned.lift (h : Pruned a va l g m m' kept freed)
    (hstop : ∀ k ∈ (g :: kept).getLast?, ¬Prunable m m' k) : Pruned a va (l + 1) f m m' (g :: kept) freed := by
  obtain ⟨hf, hn⟩ := h.outside hd hg
  have hw : ∀ i, i ≠ levelIndex va (l + 1) → m'.mem f i = m.mem f i := fun i _ => by rw [hf]
  have hg' : a.tableOf (m'.mem f (levelIndex va (l + 1))) = some g := by rw [hf, hg]
  refine { h with walk := ?_, nodes := ?_, frame := ?_, words := ?_, other := ?_, page := ?_, stop := hstop }
  · rw [walkTables_some hg, h.walk, List.cons_append]
  · have hsum : Radix.nodes a.tableOf m'.mem (l + 1) f + (freed : Multiset ℕ) =
        Radix.nodes a.tableOf m.mem (l + 1) f + 0 := by
      apply nodes_change hw hn
      rw [below_eq hg, below_eq hg', add_zero]
      exact h.nodes.symm
    rw [hsum, add_zero]
  · intro k hk
    exact h.frame k fun hm => hk (mem_nodes_child hg hm)
  · rw [slot_succ hg]
    exact h.words
  · intro lim va' hdiff
    by_cases hp : levelIndex va' (l + 1) = levelIndex va (l + 1)
    · obtain ⟨k, hk, hne⟩ := hdiff
      have hkl : k ≠ l + 1 := by
        rintro rfl
        exact hne hp.symm
      rw [translateWith_child (by rw [hp]; exact hg'), translateWith_child (by rw [hp]; exact hg), hf,
        h.other lim va' ⟨k, by omega, hne⟩]
    · simp only [translateWith, hf]
      cases hgv : a.tableOf (m.mem f (levelIndex va' (l + 1))) with
      | none => rfl
      | some k =>
        simp only
        rw [translateWith_congr (hn _ hp k hgv)]
  · intro lim va' hsame
    have hp := (hsame (l + 1) le_rfl).symm
    rw [translateWith_child (by rw [hp]; exact hg'), translateWith_child (by rw [hp]; exact hg), slot_succ hg, hf,
      h.page lim va' fun k hk => hsame k (by omega)]
    split <;> rfl

theorem Pruned.prune (h : Pruned a va l g m m' [] freed)
    (hprune : Prunable m m' g) (href : m.refCount g = 1) :
    Pruned a va (l + 1) f m (freeTablePage g { m' with mem := write m'.mem (f, levelIndex va (l + 1)) 0 }) []
      (g :: freed) := by
  obtain ⟨hf, hn⟩ := h.outside hd hg
  obtain ⟨hdg, hroot⟩ := nodup_child hd hg
  have hgf : g ∉ freed := h.root_kept hdg
  obtain ⟨hr, ht, hv⟩ := h.flags g hgf
  have hdyn : Dynamic { m' with mem := write m'.mem (f, levelIndex va (l + 1)) 0 } g :=
    ⟨by rw [h.pageCount]; exact hprune.bound, ht.trans hprune.pageTable, hv.trans hprune.reserved, hr.trans href⟩
  obtain ⟨hpan, hcount, hflags⟩ := freeTablePage_dynamic hdyn
  have hmem : (freeTablePage g { m' with mem := write m'.mem (f, levelIndex va (l + 1)) 0 }).mem =
      write m'.mem (f, levelIndex va (l + 1)) 0 := rfl
  have hzero : write m'.mem (f, levelIndex va (l + 1)) 0 f (levelIndex va (l + 1)) = 0 :=
    write_self m'.mem (f, levelIndex va (l + 1)) 0
  have hnone : a.tableOf (write m'.mem (f, levelIndex va (l + 1)) 0 f (levelIndex va (l + 1))) = none := by
    rw [hzero, tableOf_zero]
  have hw : ∀ i, i ≠ levelIndex va (l + 1) → write m'.mem (f, levelIndex va (l + 1)) 0 f i = m.mem f i := by
    intro i hi
    rw [write_index _ _ _ _ hi, hf]
  have hn' : ∀ i, i ≠ levelIndex va (l + 1) → ∀ g', a.tableOf (m.mem f i) = some g' →
      ∀ k ∈ Radix.nodes a.tableOf m.mem l g', write m'.mem (f, levelIndex va (l + 1)) 0 k = m.mem k := by
    intro i hi g' hg' k hk
    have hkf : k ≠ f := fun hkf => (nodup_child hd hg').2 (hkf ▸ hk)
    rw [write_node _ (f, _) _ hkf, hn i hi g' hg' k hk]
  have hempty : ∀ k ∈ Radix.nodes a.tableOf m.mem l g, write m'.mem (f, levelIndex va (l + 1)) 0 k = m'.mem k :=
    by
    intro k hk
    have hkf : k ≠ f := fun hkf => hroot (hkf ▸ hk)
    exact write_node _ (f, _) _ hkf
  have hbare : Radix.nodes a.tableOf m'.mem l g = {g} := nodes_bare fun i => by rw [hprune.empty, tableOf_zero]
  -- after the removal nothing was found below the child
  have hgone : ∀ lim va', levelIndex va' (l + 1) = levelIndex va (l + 1) →
      translateWith a lim (write m'.mem (f, levelIndex va (l + 1)) 0) va' (l + 1) f = none := by
    intro lim va' hp
    rw [translateWith_missing (by rw [hp]; exact hnone), hp, hzero, a.ptePresent_zero]
    rfl
  have hnothing : ∀ lim va', translateWith a lim m'.mem va' l g = none := fun lim va' =>
    translateWith_empty hprune.empty
  refine ⟨?_, ?_, ?_, ?_, ?_, ?_, ?_, ?_, ?_, ?_, h.blockPages, h.pageCount, h.clock, hpan.trans h.panicked⟩
  · rw [walkTables_some hg, h.walk, List.nil_append, List.nil_append]
  · show frames g 1 + m'.free = ((g :: freed : List ℕ) : Multiset ℕ) + m.free
    rw [h.free, frames_one, ← add_assoc]
    rfl
  · have hsum : Radix.nodes a.tableOf (write m'.mem (f, levelIndex va (l + 1)) 0) (l + 1) f +
        ((g :: freed : List ℕ) : Multiset ℕ) = Radix.nodes a.tableOf m.mem (l + 1) f + 0 := by
      apply nodes_change hw hn'
      rw [below_none hnone, below_eq hg, zero_add, add_zero, h.nodes, hbare]
      rfl
    rw [hmem, hsum, add_zero]
  · intro k hk
    have hkf : k ≠ f := fun hkf => hk (hkf ▸ self_mem_nodes)
    rw [hmem, write_node _ (f, _) _ hkf]
    exact h.frame k fun hm => hk (mem_nodes_child hg hm)
  · intro k i hne
    rw [hmem] at hne ⊢
    rw [slot_succ hg]
    by_cases hs : k = f ∧ i = levelIndex va (l + 1)
    · obtain ⟨rfl, rfl⟩ := hs
      exact ⟨hzero, Or.inr ⟨g, List.mem_cons_self, hg⟩⟩
    · have hsame : write m'.mem (f, levelIndex va (l + 1)) 0 k i = m'.mem k i := if_neg hs
      rw [hsame] at hne ⊢
      obtain ⟨h0, hor⟩ := h.words k i hne
      refine ⟨h0, hor.imp_right ?_⟩
      rintro ⟨t, ht, htk⟩
      exact ⟨t, List.mem_cons_of_mem g ht, htk⟩
  · intro lim va' hdiff
    rw [hmem]
    by_cases hp : levelIndex va' (l + 1) = levelIndex va (l + 1)
    · obtain ⟨k, hk, hne⟩ := hdiff
      have hkl : k ≠ l + 1 := by
        rintro rfl
        exact hne hp.symm
      rw [hgone lim va' hp, translateWith_child (by rw [hp]; exact hg), ← h.other lim va' ⟨k, by omega, hne⟩,
        hnothing lim va']
      rfl
    · simp only [translateWith, hw _ hp]
      cases hgv : a.tableOf (m.mem f (levelIndex va' (l + 1))) with
      | none => rfl
      | some k =>
        simp only
        rw [translateWith_congr (hn' _ hp k hgv)]
  · intro lim va' hsame
    have hp := (hsame (l + 1) le_rfl).symm
    have hchild := h.page lim va' fun k hk => hsame k (by omega)
    rw [hmem, hgone lim va' hp, slot_succ hg, translateWith_child (by rw [hp]; exact hg)]
    rw [hnothing lim va'] at hchild
    split
    · rfl
    · rename_i hslot
      rw [if_neg hslot] at hchild
      rw [← hchild]
      rfl
  · intro k hk
    rcases List.mem_cons.1 hk with rfl | hk
    · refine ⟨⟨hprune.bound, hprune.pageTable, hprune.reserved, ?_⟩, hcount⟩
      rw [hmem, hempty k self_mem_nodes]
      exact hprune.empty
    · have hkg : k ≠ g := fun hkg => hgf (hkg ▸ hk)
      obtain ⟨hk', hz⟩ := h.given k hk
      refine ⟨⟨hk'.bound, hk'.pageTable, hk'.reserved, ?_⟩, (hflags k hkg).1.trans hz⟩
      rw [hmem, hempty k (h.freed_nodes hk)]
      exact hk'.empty
  · intro k hk
    cases hk
  · intro k hk
    rw [List.mem_cons, not_or] at hk
    obtain ⟨hr', ht', hv'⟩ := hflags k hk.1
    obtain ⟨hr, ht, hv⟩ := h.flags k hk.2
    exact ⟨hr'.trans hr, ht'.trans ht, hv'.trans hv⟩

end

theorem pruneOne_prunable (a : Arch) (entry : ℕ × Fin 512) (hg : a.tableOf (m.mem entry.1 entry.2) = some g) :
    Prunable m m g ∧ pruneOne a g entry m = (freeTablePage g { m with mem := write m.mem entry 0 }, true) ∨
      ¬Prunable m m g ∧ pruneOne a g entry m = (m, false) := by
  have hpage : physToPage (a.pteAddr (m.mem entry.1 entry.2)) = g := by
    simp only [Arch.tableOf] at hg
    split at hg
    · exact Option.some.inj hg
    · cases hg
  rw [pruneOne, hpage]
  by_cases hstop : ¬(∀ i, m.mem g i = 0) ∨ m.pageCount ≤ g
  · refine Or.inr ⟨fun hp => ?_, if_pos hstop⟩
    rcases hstop with hne | hout
    · exact hne hp.empty
    · exact absurd hp.bound (Nat.not_lt.2 hout)
  · simp only [if_neg hstop]
    rw [not_or, not_not, Nat.not_le] at hstop
    by_cases hflag : m.pageTable g = false ∨ m.reserved g = true
    · refine Or.inr ⟨fun hp => ?_, if_pos hflag⟩
      rw [hp.pageTable, hp.reserved] at hflag
      simp at hflag
    · rw [not_or, Bool.not_eq_false, Bool.not_eq_true] at hflag
      refine Or.inl ⟨⟨hstop.2, hflag.1, hflag.2, hstop.1⟩, ?_⟩
      rw [hflag.1, hflag.2]
      rfl

/-- A table page that may be given back has the one reference that `free_table_page` asserts. -/
def Counted (m : Pmm) (g : ℕ) : Prop :=
  g < m.pageCount → m.pageTable g = true → m.reserved g = false → m.refCount g = 1

theorem unmapFrom_pruned (hd : (nodes a.tableOf m.mem l f).Nodup) (hc : ∀ k ∈ walkTables a m.mem va l f, Counted m k) :
    ∃ kept freed, Pruned a va l f m (unmapFrom a va l f m).1 kept freed ∧
      ((unmapFrom a va l f m).2 = true ↔ kept = []) := by
  -- by induction on the level; the loop ended below the child, ends at the child, or gives the child back
  induction l generalizing f with
  | zero => exact ⟨[], [], pruned_leaf, iff_of_true rfl rfl⟩
  | succ l ih =>
    rw [unmapFrom]
    cases hg : a.tableOf (m.mem f (levelIndex va (l + 1))) with
    | none => exact ⟨[], [], pruned_absent hg, iff_of_true rfl rfl⟩
    | some g =>
      rw [walkTables_some hg] at hc
      obtain ⟨kept, freed, h, hgo⟩ := ih (nodup_child hd hg).1 fun k hk => hc k (List.mem_cons_of_mem g hk)
      have hgf : g ∉ freed := h.root_kept (nodup_child hd hg).1
      simp only
      generalize unmapFrom a va l g m = r at h hgo ⊢
      obtain ⟨m', go⟩ := r
      have hg' : a.tableOf (m'.mem f (levelIndex va (l + 1))) = some g := by rw [(h.outside hd hg).1, hg]
      have hiff : Prunable m' m' g ↔ Prunable m m' g := by
        obtain ⟨-, ht, hv⟩ := h.flags g hgf
        constructor
        · rintro ⟨hb, hp, hr, he⟩
          exact ⟨h.pageCount ▸ hb, ht.symm.trans hp, hv.symm.trans hr, he⟩
        · rintro ⟨hb, hp, hr, he⟩
          exact ⟨h.pageCount.symm ▸ hb, ht.trans hp, hv.trans hr, he⟩
      cases go with
      | false =>
        have hne : kept ≠ [] := fun he => Bool.false_ne_true (hgo.2 he)
        refine ⟨g :: kept, freed, h.lift hd hg ?_, iff_of_false Bool.false_ne_true (List.cons_ne_nil _ _)⟩
        intro k hk
        rw [List.getLast?_cons_of_ne_nil hne] at hk
        exact h.stop k hk
      | true =>
        obtain rfl : kept = [] := hgo.1 rfl
        obtain ⟨hprune, heq⟩ | ⟨hnot, heq⟩ := pruneOne_prunable a (f, levelIndex va (l + 1)) hg'
        · simp only [heq]
          have hp := hiff.1 hprune
          have href := hc g List.mem_cons_self hp.bound hp.pageTable hp.reserved
          exact ⟨[], g :: freed, h.prune hd hg hp href, iff_of_true trivial rfl⟩
        · simp only [heq]
          refine ⟨[g], freed, h.lift hd hg ?_, iff_of_false Bool.false_ne_true (List.cons_ne_nil _ _)⟩
          intro k hk
          cases hk
          exact fun hp => hnot (hiff.2 hp)

/-! ## The whole call -/

/-- A page table of the kernel: a tree of distinct tables, each counted. -/
structure KernelTree (a : Arch) (m : Pmm) (r : ℕ) : Prop where
  nodup : (nodes a.tableOf m.mem (a.ptWalkLevels - 1) r).Nodup
  counted : ∀ k ∈ nodes a.tableOf m.mem (a.ptWalkLevels - 1) r, Counted m k

/-- The effect of `unmap_mmio_page` that frees the table pages `freed`. -/
structure UnmapEffect (a : Arch) (r va : ℕ) (m m' : Pmm) (freed : List ℕ) : Prop where
  /-- Every other page is translated as before. -/
  other : ∀ va', ¬SamePage a va va' → translate a m'.mem r va' = translate a m.mem r va'
  /-- The page itself loses its 4 KiB leaf; without a leaf table for it, nothing changes. -/
  page : ∀ va', SamePage a va va' → translate a m'.mem r va' =
    if (slot a.tableOf m.mem (levelIndex va) (a.ptWalkLevels - 1) r).isSome then none else translate a m.mem r va'
  /-- The freed frames are the tables of the walk that are prunable, with all tables below them on the walk. -/
  exact : ∀ g, g ∈ freed ↔ ∃ above below, walkTables a m.mem va (a.ptWalkLevels - 1) r = above ++ g :: below ∧
    ∀ k ∈ g :: below, Prunable m m' k
  once : freed.Nodup
  free : m'.free = (freed : Multiset ℕ) + m.free
  /-- The tree has lost these tables and no others. -/
  tables : nodes a.tableOf m.mem (a.ptWalkLevels - 1) r =
    nodes a.tableOf m'.mem (a.ptWalkLevels - 1) r + (freed : Multiset ℕ)
  /-- Only the leaf entry and the entries of freed tables are cleared, and no other word changes. -/
  words : ∀ k i, m'.mem k i ≠ m.mem k i → m'.mem k i = 0 ∧
    (slot a.tableOf m.mem (levelIndex va) (a.ptWalkLevels - 1) r = some (k, i) ∨
      ∃ t ∈ freed, a.tableOf (m.mem k i) = some t)
  flags : ∀ k, k ∉ freed → m'.refCount k = m.refCount k ∧ m'.pageTable k = m.pageTable k ∧ m'.reserved k = m.reserved k
  root : r ∉ freed
  bound : ∀ g ∈ freed, g < m.pageCount
  /-- A frame mapped by a leaf goes only if it is itself one of the tables. -/
  mapped : ∀ va' x, translate a m.mem r va' = some x →
    x.pa / pgSize ∉ walkTables a m.mem va (a.ptWalkLevels - 1) r → x.pa / pgSize ∉ freed
  panicked : m'.panicked = m.panicked

theorem Pruned.freed_iff (h : Pruned a va l f m m' kept freed) : g ∈ freed ↔
    ∃ above below, walkTables a m.mem va l f = above ++ g :: below ∧ ∀ k ∈ g :: below, Prunable m m' k := by
  rw [h.walk]
  constructor
  · intro hg
    obtain ⟨pre, post, rfl⟩ := List.append_of_mem hg
    refine ⟨kept ++ pre, post, by rw [List.append_assoc], fun k hk => (h.given k ?_).1⟩
    exact List.mem_append_right _ hk
  · rintro ⟨above, below, heq, hall⟩
    rcases List.append_eq_append_iff.1 heq with ⟨pre, -, hfreed⟩ | ⟨rest, hkept, hbelow⟩
    · rw [hfreed]
      exact List.mem_append_right _ List.mem_cons_self
    · cases hlast : rest.getLast? with
      | none =>
        rw [List.getLast?_eq_none_iff.1 hlast, List.nil_append] at hbelow
        rw [← hbelow]
        exact List.mem_cons_self
      | some k =>
        -- the last table that was kept would be prunable
        have hk : k ∈ kept.getLast? := by
          rw [hkept, List.getLast?_append, hlast]
          rfl
        refine absurd (hall k ?_) (h.stop k hk)
        rw [hbelow]
        exact List.mem_append_left _ (List.mem_of_getLast? hlast)

/-- Root 1 with tables 2 and 3 for a device page at 0x1000, and a large leaf that maps the first GiB of memory. -/
def directMapped : Pmm where
  mem f i :=
    if f = 1 ∧ i = 0 then Arch.riscv64.makePteTable (pageToPhys 2)
    else if f = 1 ∧ i = 511 then Arch.riscv64.makePtePage (pageToPhys 0) ⟨true, false, false, true⟩
    else if f = 2 ∧ i = 0 then Arch.riscv64.makePteTable (pageToPhys 3)
    else if f = 3 ∧ i = 1 then Arch.riscv64.makePtePage (pageToPhys 0x10000) ⟨true, false, true, true⟩
    else 0
  free := 0
  refCount f := if f = 2 ∨ f = 3 then 1 else 0
  pageTable f := f = 2 ∨ f = 3
  reserved _ := false
  blockPages _ := 0
  pageCount := 8
  clock := 0
  panicked := false

theorem directMapped_root (i : Fin 512) (hi : i ≠ 0) : Arch.riscv64.tableOf (directMapped.mem 1 i) = none := by
  by_cases hlast : i = 511
  · rw [hlast]
    decide
  · have hw : directMapped.mem 1 i = 0 := by simp [directMapped, hi, hlast]
    rw [hw, tableOf_zero]

theorem directMapped_middle (i : Fin 512) (hi : i ≠ 0) : Arch.riscv64.tableOf (directMapped.mem 2 i) = none := by
  have hw : directMapped.mem 2 i = 0 := by simp [directMapped, hi]
  rw [hw, tableOf_zero]

theorem directMapped_tree : KernelTree .riscv64 directMapped 1 := by
  have hnodes : nodes Arch.riscv64.tableOf directMapped.mem (Arch.riscv64.ptWalkLevels - 1) 1 = {1, 2, 3} := by
    show nodes Arch.riscv64.tableOf directMapped.mem 2 1 = {1, 2, 3}
    rw [nodes_only (g := 2) (tableOf_makePteTable _ (by decide)) directMapped_root,
      nodes_only (g := 3) (tableOf_makePteTable _ (by decide)) directMapped_middle, nodes_zero]
    rfl
  refine ⟨?_, ?_⟩
  · rw [hnodes]
    decide
  · intro k _ _ hp _
    simp only [directMapped, decide_eq_true_eq] at hp ⊢
    exact if_pos hp

end Zonix.Vm
