import Mathlib.Data.List.Perm.Basic
import Zonix.Mm.Conservation

/-! # Completeness of first fit

When no two of the initial regions are adjacent, the single pass of `PageAllocator::free` keeps the
free list fully merged: its runs are the maximal intervals of free pages. -/

namespace Zonix.Mm

/-- There is a page between the two runs. -/
def Run.Apart (r s : Run) : Prop := r.start + r.len < s.start ∨ s.start + s.len < r.start

/-- One run ends where the other starts. -/
def Run.Adjacent (r s : Run) : Prop := r.start + r.len = s.start ∨ s.start + s.len = r.start

def Separated (runs : List Run) : Prop := runs.Pairwise Run.Apart

/-- A run of pages in `S` that cannot be made longer. -/
structure Run.Maximal (S : ℕ → Prop) (r : Run) : Prop where
  inside : ∀ i ∈ r.pages, S i
  before : ∀ i, i + 1 = r.start → ¬S i
  behind : ¬S (r.start + r.len)

/-- The pages on the free list. -/
def IsFree (runs : List Run) (i : ℕ) : Prop := ∃ r ∈ runs, i ∈ r.pages

variable {b r s x : Run} {runs : List Run}

theorem Run.Apart.symm (h : r.Apart s) : s.Apart r := Or.symm h

instance : Std.Symm Run.Apart := ⟨fun _ _ h => h.symm⟩

theorem Run.Apart.ne (h : r.Apart s) : r ≠ s := by
  rintro rfl
  unfold Run.Apart at h
  omega

theorem Run.apart_of_disjoint (hd : List.Disjoint r.pages s.pages) (ha : ¬r.Adjacent s) : r.Apart s := by
  have hr := r.nonempty
  have hs := s.nonempty
  have hstart : ¬(r.start ≤ s.start ∧ s.start < r.start + r.len) := fun h =>
    hd (Run.mem_pages.mpr h) s.start_mem
  have hstart' : ¬(s.start ≤ r.start ∧ r.start < s.start + s.len) := fun h =>
    hd r.start_mem (Run.mem_pages.mpr h)
  unfold Run.Adjacent at ha
  unfold Run.Apart
  omega

theorem Run.Apart.disjoint (h : r.Apart s) : List.Disjoint r.pages s.pages := by
  intro i hr hs
  rw [Run.mem_pages] at hr hs
  unfold Run.Apart at h
  omega

theorem Run.Apart.not_adjacent (h : r.Apart s) : ¬r.Adjacent s := by
  have hr := r.nonempty
  have hs := s.nonempty
  unfold Run.Apart at h
  unfold Run.Adjacent
  omega

theorem Separated.of_mem (h : Separated runs) (hr : r ∈ runs) (hs : s ∈ runs) (hne : r ≠ s) : r.Apart s :=
  h.forall hr hs hne

/-! ## Steps -/

theorem Run.Apart.dropFront {n : ℕ} (h : x.Apart r) (hs : s ∈ r.dropFront n) : x.Apart s := by
  unfold Run.dropFront at hs
  split at hs
  · rw [List.mem_singleton.mp hs]
    unfold Run.Apart at h ⊢
    dsimp only
    omega
  · simp at hs

theorem Separated.take {l₁ l₂ : List Run} (n : ℕ) (h : Separated (l₁ ++ r :: l₂)) :
    Separated (l₁ ++ r.dropFront n ++ l₂) := by
  unfold Separated at h ⊢
  simp only [List.pairwise_append, List.pairwise_cons] at h
  obtain ⟨h₁, ⟨hr, h₂⟩, h₁₂⟩ := h
  have hself : (r.dropFront n).Pairwise Run.Apart := by
    unfold Run.dropFront
    split
    · exact List.pairwise_singleton ..
    · exact List.Pairwise.nil
  simp only [List.append_assoc, List.pairwise_append]
  refine ⟨h₁, ⟨hself, h₂, fun s hs x hx => ?_⟩, fun x hx s hs => ?_⟩
  · exact ((hr x hx).symm.dropFront hs).symm
  · rcases List.mem_append.mp hs with hs | hs
    · exact (h₁₂ x hx r (List.mem_cons_self ..)).dropFront hs
    · exact h₁₂ x hx s (List.mem_cons_of_mem _ hs)

theorem Run.Apart.join (h : x.Apart r) (h' : x.Apart s) (hj : r.start + r.len = s.start) : x.Apart (r.join s) := by
  have hx := x.nonempty
  unfold Run.Apart at h h' ⊢
  unfold Run.join
  dsimp only
  omega

theorem mergeRuns_apart (b : Run) (rest : List Run) (hb : x.Apart b) (hr : ∀ r ∈ rest, x.Apart r) :
    x.Apart (mergeRuns b rest).1 := by
  fun_induction mergeRuns b rest with
  | case1 b => exact hb
  | case2 b r rest hj ih =>
    exact ih (hb.join (hr r (List.mem_cons_self ..)) hj) fun s hs => hr s (List.mem_cons_of_mem _ hs)
  | case3 b r rest _ hj ih =>
    exact ih ((hr r (List.mem_cons_self ..)).join hb hj) fun s hs => hr s (List.mem_cons_of_mem _ hs)
  | case4 b r rest _ _ ih => exact ih hb fun s hs => hr s (List.mem_cons_of_mem _ hs)

theorem mergeRuns_subset (b : Run) (rest : List Run) : (mergeRuns b rest).2 ⊆ rest := by
  fun_induction mergeRuns b rest with
  | case1 b => exact fun _ h => h
  | case2 b r rest _ ih => exact fun s hs => List.mem_cons_of_mem _ (ih hs)
  | case3 b r rest _ _ ih => exact fun s hs => List.mem_cons_of_mem _ (ih hs)
  | case4 b r rest _ _ ih => exact List.cons_subset_cons r ih

theorem mergeRuns_separated (b : Run) (rest : List Run) (h : Separated rest)
    (hd : ∀ r ∈ rest, List.Disjoint b.pages r.pages) :
    Separated ((mergeRuns b rest).1 :: (mergeRuns b rest).2) := by
  fun_induction mergeRuns b rest with
  | case1 b => exact List.pairwise_singleton ..
  | case2 b r rest hj ih =>
    have hrest := List.pairwise_cons.mp h
    refine ih hrest.2 fun s hs => ?_
    rw [pages_join b r hj, List.disjoint_append_left]
    exact ⟨hd s (List.mem_cons_of_mem _ hs), (hrest.1 s hs).disjoint⟩
  | case3 b r rest _ hj ih =>
    have hrest := List.pairwise_cons.mp h
    refine ih hrest.2 fun s hs => ?_
    rw [pages_join r b hj, List.disjoint_append_left]
    exact ⟨(hrest.1 s hs).disjoint, hd s (List.mem_cons_of_mem _ hs)⟩
  | case4 b r rest hright hleft ih =>
    have hrest := List.pairwise_cons.mp h
    have hsep := List.pairwise_cons.mp (ih hrest.2 fun s hs => hd s (List.mem_cons_of_mem _ hs))
    -- `r` stays: it touches neither `b` nor what `b` absorbs later
    have hrb : r.Apart b :=
      (Run.apart_of_disjoint (hd r (List.mem_cons_self ..)) (not_or.mpr ⟨hright, hleft⟩)).symm
    have hrm := mergeRuns_apart b rest hrb hrest.1
    refine List.pairwise_cons.mpr ⟨fun s hs => ?_, List.pairwise_cons.mpr ⟨fun s hs => ?_, hsep.2⟩⟩
    · rcases List.mem_cons.mp hs with rfl | hs
      · exact hrm.symm
      · exact hsep.1 s hs
    · exact hrest.1 s (mergeRuns_subset b rest hs)

section

variable (h : Separated runs)
include h

theorem Separated.give (hd : ∀ r ∈ runs, List.Disjoint b.pages r.pages) :
    Separated ((mergeRuns b runs).2 ++ [(mergeRuns b runs).1]) := by
  refine ((mergeRuns_separated b runs h hd).perm ?_ fun ha => ha.symm)
  exact (List.perm_append_singleton ..).symm

/-! ## Maximal intervals -/

theorem Separated.interval (p n : ℕ) (hn : ∀ i ∈ List.range' p (n + 1), IsFree runs i) :
    ∃ r ∈ runs, r.start ≤ p ∧ p + n < r.start + r.len := by
  induction n with
  | zero =>
    obtain ⟨r, hr, hp⟩ := hn p (by simp)
    exact ⟨r, hr, Run.mem_pages.mp hp⟩
  | succ n ih =>
    obtain ⟨r, hr, hle, hlt⟩ := ih fun i hi => hn i (by rw [List.mem_range'_1] at hi ⊢; omega)
    obtain ⟨s, hs, hp⟩ := hn (p + (n + 1)) (by rw [List.mem_range'_1]; omega)
    rw [Run.mem_pages] at hp
    by_cases hrs : r = s
    · exact ⟨r, hr, hle, hrs ▸ hp.2⟩
    · have ha := h.of_mem hr hs hrs
      unfold Run.Apart at ha
      exact ⟨r, hr, hle, by omega⟩

theorem Separated.maximal (hr : r ∈ runs) : r.Maximal (IsFree runs) := by
  have hlen := r.nonempty
  refine ⟨fun i hi => ⟨r, hr, hi⟩, fun i hi hfree => ?_, fun hfree => ?_⟩
  · obtain ⟨s, hs, his⟩ := hfree
    rw [Run.mem_pages] at his
    have hne : r ≠ s := by
      rintro rfl
      omega
    have ha := h.of_mem hr hs hne
    unfold Run.Apart at ha
    omega
  · obtain ⟨s, hs, his⟩ := hfree
    rw [Run.mem_pages] at his
    have hne : r ≠ s := by
      rintro rfl
      omega
    have ha := h.of_mem hr hs hne
    unfold Run.Apart at ha
    omega

theorem Separated.mem_iff (r : Run) : r ∈ runs ↔ r.Maximal (IsFree runs) := by
  refine ⟨h.maximal, fun hm => ?_⟩
  have hlen := r.nonempty
  obtain ⟨s, hs, hle, hlt⟩ := h.interval r.start (r.len - 1) fun i hi => by
    refine hm.inside i (Run.mem_pages.mpr ?_)
    rw [List.mem_range'_1] at hi
    omega
  have hfree : ∀ i, s.start ≤ i → i < s.start + s.len → IsFree runs i := fun i h1 h2 =>
    ⟨s, hs, Run.mem_pages.mpr ⟨h1, h2⟩⟩
  have hstart : s.start = r.start := by
    by_contra hne
    exact hm.before (r.start - 1) (by omega) (hfree _ (by omega) (by omega))
  have hend : s.len = r.len := by
    by_contra hne
    exact hm.behind (hfree _ (by omega) (by omega))
  have heq : s = r := by
    obtain ⟨start, len, hs'⟩ := s
    obtain ⟨start', len', hr'⟩ := r
    simp only [Run.mk.injEq]
    exact ⟨hstart, hend⟩
  exact heq ▸ hs

theorem Separated.nodup : runs.Nodup := h.imp fun ha => ha.ne

theorem Separated.perm {runs' : List Run} (h' : Separated runs')
    (hp : ∀ i, IsFree runs i ↔ IsFree runs' i) : runs.Perm runs' := by
  have hsame : IsFree runs = IsFree runs' := funext fun i => propext (hp i)
  refine (List.perm_ext_iff_of_nodup h.nodup h'.nodup).mpr fun r => ?_
  rw [h.mem_iff r, h'.mem_iff r, hsame]

end

/-- When the regions do not touch, the free runs are the maximal intervals of free pages, `alloc(n)`
succeeds exactly when there are `n` consecutive free pages, and freeing everything restores the
regions. -/
theorem first_fit_complete (regions : List Run)
    (hd : regions.Pairwise fun r s => List.Disjoint r.pages s.pages)
    (hadj : regions.Pairwise fun r s => ¬r.Adjacent s) (hs : (regions.map Run.len).sum < 2 ^ 32)
    (a : FreeArea) (allocated : Finset ℕ) (h : Reachable regions a allocated) :
    ∃ runs, Conserved regions a allocated runs ∧ (runs.Pairwise fun r s => ¬r.Adjacent s) ∧
      (∀ r : Run, r ∈ runs ↔ r.Maximal (IsFree runs)) ∧
      (∀ n, 1 ≤ n → ∃ result a', alloc a n = some (result, a') ∧
        (result.isSome = true ↔ ∃ p, ∀ i ∈ List.range' p n, IsFree runs i)) ∧
      (allocated = ∅ → runs.Perm regions) := by
  have hnd := (freePages_nodup_iff regions).mpr hd
  have hsep : Separated regions := hd.imp₂ (fun _ _ => Run.apart_of_disjoint) hadj
  rw [← freePages_length] at hs
  obtain ⟨runs, hp, hruns⟩ := reachable_runs (I := Separated) regions hnd hs hsep
    (fun _ _ _ n _ _ h => h.take n) (fun _ _ hb h => h.give hb) h
  refine ⟨runs, hp.conserved, hruns.imp fun ha => ha.not_adjacent, hruns.mem_iff, fun n hn => ?_, fun hnone => ?_⟩
  · refine ⟨_, _, alloc_eq hp n, ?_⟩
    rw [Option.isSome_map]
    constructor
    · intro hsome
      obtain ⟨r, hr⟩ := Option.isSome_iff_exists.mp hsome
      have hfit : n ≤ r.len := by simpa [fits] using List.find?_some hr
      refine ⟨r.start, fun i hi => ⟨r, List.mem_of_find?_eq_some hr, Run.mem_pages.mpr ?_⟩⟩
      rw [List.mem_range'_1] at hi
      omega
    · rintro ⟨p, hfree⟩
      obtain ⟨k, rfl⟩ : ∃ k, n = k + 1 := ⟨n - 1, by omega⟩
      obtain ⟨r, hr, hle, hlt⟩ := hruns.interval p k hfree
      rw [List.find?_isSome]
      exact ⟨r, hr, by simp only [fits, decide_eq_true_eq]; omega⟩
  · refine hruns.perm hsep fun i => ?_
    have hcover := hp.cover i
    rw [hnone] at hcover
    simpa [IsFree, mem_freePages] using hcover.symm

/-- Pages 2 and 3 are taken and given back. -/
theorem first_fit_complete_sample :
    ∃ a runs, (free (takeRun sampleBoot 2 2) 2 2 = some a) ∧ Conserved sampleRegions a ∅ runs ∧
      runs.Perm sampleRegions := by
  have hboot : Reachable sampleRegions sampleBoot ∅ := .init _ ⟨rfl, rfl, rfl⟩
  have halloc : Reachable sampleRegions (takeRun sampleBoot 2 2) {2, 3} := .alloc 2 2 hboot (by decide) rfl
  obtain ⟨a, hfree⟩ : ∃ a, free (takeRun sampleBoot 2 2) 2 2 = some a := ⟨_, rfl⟩
  have hback : Reachable sampleRegions a ∅ :=
    halloc.free ⟨2, 2, by decide⟩ (by decide) hfree
  have hdisjoint := (freePages_nodup_iff sampleRegions).mp (by decide)
  obtain ⟨runs, hc, -, -, -, hperm⟩ := first_fit_complete sampleRegions hdisjoint
    (by simp [sampleRegions, Run.Adjacent]) (by decide) _ _ hback
  exact ⟨a, runs, hfree, hc, hperm rfl⟩

end Zonix.Mm
