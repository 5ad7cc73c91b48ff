import Mathlib.Data.Finset.Basic
import Mathlib.Data.Finset.Dedup
import Mathlib.Data.List.Pairwise
import Zonix.Mm.FirstFit

/-! # Conservation of physical pages

The free list as a list of disjoint runs of pages, and the allocator of
`Zonix.Mm.FirstFit` as operations on such lists: first fit takes the front of the first
run that is long enough, `free` grows the returned run by its neighbours and appends it. -/

namespace Zonix.Mm

open Linked

/-- A nonempty run of consecutive pages. -/
structure Run where
  start : ℕ
  len : ℕ
  nonempty : 0 < len
  deriving Repr, DecidableEq

def Run.node (r : Run) : Node := .page r.start
def Run.pages (r : Run) : List ℕ := List.range' r.start r.len

theorem Run.mem_pages {r : Run} {i : ℕ} : i ∈ r.pages ↔ r.start ≤ i ∧ i < r.start + r.len := by
  simp [Run.pages, List.mem_range'_1]

theorem Run.start_mem (r : Run) : r.start ∈ r.pages := by
  have h := r.nonempty
  rw [Run.mem_pages]
  omega

/-- The pages of a list of runs, in list order. -/
def freePages (runs : List Run) : List ℕ := runs.flatMap Run.pages

@[simp] theorem freePages_nil : freePages [] = [] := rfl
@[simp] theorem freePages_cons (r : Run) (runs : List Run) :
    freePages (r :: runs) = r.pages ++ freePages runs := rfl
@[simp] theorem freePages_append (l₁ l₂ : List Run) :
    freePages (l₁ ++ l₂) = freePages l₁ ++ freePages l₂ := by
  simp [freePages]

theorem mem_freePages {runs : List Run} {i : ℕ} : i ∈ freePages runs ↔ ∃ r ∈ runs, i ∈ r.pages := by
  simp [freePages]

theorem freePages_length (runs : List Run) : (freePages runs).length = (runs.map Run.len).sum := by
  induction runs with
  | nil => rfl
  | cons r runs ih => simp [ih, Run.pages]

theorem length_le_freePages (runs : List Run) : runs.length ≤ (freePages runs).length := by
  induction runs with
  | nil => exact Nat.le_refl _
  | cons r runs ih =>
    have hr := r.nonempty
    simp only [freePages_cons, List.length_append, List.length_cons, Run.pages, List.length_range']
    omega

theorem start_notMem {r : Run} {runs : List Run} {i : ℕ} (hi : i ∈ r.pages)
    (hd : List.Disjoint r.pages (freePages runs)) : Node.page i ∉ runs.map Run.node := by
  intro hm
  obtain ⟨s, hs, he⟩ := List.mem_map.mp hm
  obtain rfl : s.start = i := Node.page.inj he
  exact hd hi (mem_freePages.mpr ⟨s, hs, s.start_mem⟩)

/-- The heap holds the free list `runs`. -/
structure Represents (a : FreeArea) (runs : List Run) : Prop where
  ring : Ring a.links .freeList (runs.map Run.node)
  blockPageCount : ∀ r ∈ runs, (a.pages r.start).blockPageCount = r.len

/-! ## The search -/

def fits (pageCount : ℕ) (r : Run) : Bool := pageCount ≤ r.len

theorem findFit_eq (a : FreeArea) (n : ℕ) (done rest : List Run) (fuel : ℕ)
    (h : Represents a (done ++ rest)) (hf : rest.length < fuel) :
    findFit a n fuel ((done.map Run.node).getLastD .freeList) =
      some ((rest.find? (fits n)).map Run.start) := by
  induction rest generalizing done fuel with
  | nil =>
    obtain ⟨fuel, rfl⟩ : ∃ k, fuel = k + 1 := ⟨fuel - 1, by simp at hf; omega⟩
    have hn := h.ring
    rw [List.map_append] at hn
    simp only [findFit, hn.next_last, List.map_nil, List.headD_nil, List.find?_nil, Option.map_none]
  | cons r rest ih =>
    obtain ⟨fuel, rfl⟩ : ∃ k, fuel = k + 1 := ⟨fuel - 1, by omega⟩
    have hn := h.ring
    rw [List.map_append] at hn
    have hc := h.blockPageCount r (by simp)
    simp only [findFit, hn.next_last, List.map_cons, List.headD_cons, Run.node, hc]
    by_cases hfit : n ≤ r.len
    · simp [hfit, fits]
    · have hrest := ih (done ++ [r]) fuel (by simpa using h) (by simp at hf; omega)
      simpa [hfit, fits, Run.node] using hrest

/-! ## Taking a run -/

structure Untouched (a a' : FreeArea) (S : List ℕ) : Prop where
  refCount : ∀ i, (a'.pages i).refCount = (a.pages i).refCount
  pages : ∀ i, i ∉ S → a'.pages i = a.pages i

theorem Untouched.trans {a₁ a₂ a₃ : FreeArea} {S : List ℕ} (h : Untouched a₁ a₂ S) (h' : Untouched a₂ a₃ S) :
    Untouched a₁ a₃ S :=
  ⟨fun i => (h'.refCount i).trans (h.refCount i), fun i hi => (h'.pages i hi).trans (h.pages i hi)⟩

theorem Untouched.mono {a a' : FreeArea} {S S' : List ℕ} (h : Untouched a a' S) (hs : S ⊆ S') : Untouched a a' S' :=
  ⟨h.refCount, fun i hi => h.pages i fun hm => hi (hs hm)⟩

theorem untouched_modifyPage (a : FreeArea) (i : ℕ) (f : Page → Page) (S : List ℕ) (hi : i ∈ S)
    (hf : (f (a.pages i)).refCount = (a.pages i).refCount) : Untouched a (a.modifyPage i f) S := by
  refine ⟨fun j => ?_, fun j hj => ?_⟩
  · rw [modifyPage_pages]
    split
    · rename_i he
      rw [he, hf]
    · rfl
  · have hne : j ≠ i := fun he => hj (he ▸ hi)
    rw [modifyPage_pages, if_neg hne]

def Run.dropFront (r : Run) (n : ℕ) : List Run :=
  if h : n < r.len then [⟨r.start + n, r.len - n, by omega⟩] else []

theorem pages_dropFront (r : Run) (n : ℕ) (hn : n ≤ r.len) :
    List.range' r.start n ++ freePages (r.dropFront n) = r.pages := by
  unfold Run.dropFront
  split
  · have he : r.len = n + (r.len - n) := by omega
    simp only [freePages_cons, freePages_nil, List.append_nil, Run.pages]
    conv_rhs => rw [he, ← List.range'_append_1]
  · have he : r.len = n := by omega
    simp [Run.pages, he]

theorem freePages_take (l₁ l₂ : List Run) (r : Run) (n : ℕ) (hn : n ≤ r.len) :
    (freePages (l₁ ++ r :: l₂)).Perm
      (List.range' r.start n ++ freePages (l₁ ++ r.dropFront n ++ l₂)) := by
  have hsplit := pages_dropFront r n hn
  simp only [freePages_append, freePages_cons, ← hsplit, List.append_assoc]
  exact List.perm_append_comm_assoc ..

theorem takeRun_represents (a : FreeArea) (l₁ l₂ : List Run) (r : Run) (n : ℕ)
    (h : Represents a (l₁ ++ r :: l₂)) (hnd : (freePages (l₁ ++ r :: l₂)).Nodup)
    (h1 : 1 ≤ n) (hs : r.len < 2 ^ 32) :
    Represents (takeRun a r.start n) (l₁ ++ r.dropFront n ++ l₂) := by
  have hmid : (freePages (r :: (l₁ ++ l₂))).Nodup := by
    refine (List.Perm.nodup_iff ?_).mp hnd
    simpa using List.perm_append_comm_assoc (freePages l₁) r.pages (freePages l₂)
  have hdis : List.Disjoint r.pages (freePages (l₁ ++ l₂)) := List.disjoint_of_nodup_append hmid
  have hr := h.blockPageCount r (by simp)
  have hring := h.ring
  rw [List.map_append, List.map_cons] at hring
  -- a run other than `r` starts outside the pages of `r`
  have hother : ∀ s ∈ l₁ ++ l₂, ∀ i ∈ r.pages, s.start ≠ i := by
    rintro s hs' i hi rfl
    exact hdis hi (mem_freePages.mpr ⟨s, hs', s.start_mem⟩)
  unfold Run.dropFront
  split
  · rename_i hlt
    have hi : r.start + n ∈ r.pages := by rw [Run.mem_pages]; omega
    refine ⟨?_, ?_⟩
    · have hfresh : Node.page (r.start + n) ∉ Node.freeList :: (l₁.map Run.node ++ r.node :: l₂.map Run.node) := by
        have hm := start_notMem hi hdis
        have hne : Node.page (r.start + n) ≠ r.node := by simp [Run.node]; omega
        simp only [List.map_append, List.mem_append, List.mem_cons, not_or] at hm ⊢
        exact ⟨by simp, hm.1, hne, hm.2⟩
      have hadd := (hring.addAfter_member hfresh).unlink
      simpa [takeRun, hr, hlt, Run.node] using hadd
    · intro s hs'
      simp only [List.append_assoc, List.mem_append, List.mem_cons, List.not_mem_nil, or_false] at hs'
      rcases hs' with hs' | rfl | hs'
      · have hne := hother s (by simp [hs']) _ hi
        have hne' := hother s (by simp [hs']) _ r.start_mem
        simpa [takeRun, hr, hlt, hne, hne'] using h.blockPageCount s (by simp [hs'])
      · have hne : n ≠ 0 := by omega
        simp [takeRun, hr, hlt, hne, u32_eq (show r.len - n < 2 ^ 32 by omega)]
      · have hne := hother s (by simp [hs']) _ hi
        have hne' := hother s (by simp [hs']) _ r.start_mem
        simpa [takeRun, hr, hlt, hne, hne'] using h.blockPageCount s (by simp [hs'])
  · rename_i hlt
    refine ⟨?_, ?_⟩
    · simpa [takeRun, hr, hlt, Run.node] using hring.unlink
    · intro s hs'
      have hne := hother s (by simpa using hs') _ r.start_mem
      have hmem : s ∈ l₁ ++ r :: l₂ := by simp at hs' ⊢; tauto
      simpa [takeRun, hr, hlt, hne] using h.blockPageCount s hmem

theorem takeRun_freePageCount (a : FreeArea) (page n : ℕ) :
    (takeRun a page n).freePageCount = a.freePageCount - n := by
  unfold takeRun
  split <;> simp

theorem takeRun_untouched (a : FreeArea) (r : Run) (n : ℕ) (hr : (a.pages r.start).blockPageCount = r.len) :
    Untouched a (takeRun a r.start n) r.pages := by
  unfold takeRun
  dsimp only
  rw [hr]
  refine Untouched.trans ?_ (untouched_modifyPage _ r.start Page.clearReserved r.pages r.start_mem rfl)
  split
  · rename_i hlt
    have hi : r.start + n ∈ r.pages := by rw [Run.mem_pages]; omega
    have hcount := untouched_modifyPage a (r.start + n)
      (fun p => { p with blockPageCount := u32 (r.len - n) }) r.pages hi rfl
    have hflag := untouched_modifyPage (a.modifyPage (r.start + n) fun p => { p with blockPageCount := u32 (r.len - n) })
      (r.start + n) Page.setReserved r.pages hi rfl
    exact ⟨(hcount.trans hflag).refCount, (hcount.trans hflag).pages⟩
  · exact ⟨fun _ => rfl, fun _ _ => rfl⟩

/-! ## Merging -/

def Run.join (r s : Run) : Run := ⟨r.start, r.len + s.len, by have := r.nonempty; omega⟩

theorem pages_join (r s : Run) (h : r.start + r.len = s.start) : (r.join s).pages = r.pages ++ s.pages := by
  simp only [Run.join, Run.pages, ← h, List.range'_append_1]

def mergeRuns : Run → List Run → Run × List Run
  | b, [] => (b, [])
  | b, r :: rest =>
    if b.start + b.len = r.start then mergeRuns (b.join r) rest
    else if r.start + r.len = b.start then mergeRuns (r.join b) rest
    else ((mergeRuns b rest).1, r :: (mergeRuns b rest).2)

theorem mergeRuns_perm (b : Run) (rest : List Run) :
    (freePages ((mergeRuns b rest).1 :: (mergeRuns b rest).2)).Perm (freePages (b :: rest)) := by
  fun_induction mergeRuns b rest with
  | case1 b => exact List.Perm.refl _
  | case2 b r rest hj ih =>
    refine ih.trans ?_
    simp [pages_join b r hj]
  | case3 b r rest _ hj ih =>
    refine ih.trans ?_
    simp only [freePages_cons, pages_join r b hj, List.append_assoc]
    exact List.perm_append_comm_assoc ..
  | case4 b r rest _ _ ih =>
    simp only [freePages_cons] at ih ⊢
    have hfront := List.perm_append_comm_assoc (mergeRuns b rest).1.pages r.pages
      (freePages (mergeRuns b rest).2)
    have hback := List.perm_append_comm_assoc r.pages b.pages (freePages rest)
    exact (hfront.trans (ih.append_left r.pages)).trans hback

structure Merging (a : FreeArea) (b : Run) (runs : List Run) : Prop where
  list : Represents a runs
  block : (a.pages b.start).blockPageCount = b.len
  nodup : (freePages (b :: runs)).Nodup
  small : (freePages (b :: runs)).length < 2 ^ 32

theorem Merging.start_ne {a : FreeArea} {b s : Run} {runs : List Run} (h : Merging a b runs)
    (hs : s ∈ runs) : s.start ≠ b.start := by
  intro he
  have hd : List.Disjoint b.pages (freePages runs) := List.disjoint_of_nodup_append h.nodup
  exact hd b.start_mem (mem_freePages.mpr ⟨s, hs, he ▸ s.start_mem⟩)

theorem Merging.absorb {a a' : FreeArea} {b r m : Run} {kept rest : List Run}
    (h : Merging a b (kept ++ r :: rest)) (hm : m.pages = b.pages ++ r.pages ∨ m.pages = r.pages ++ b.pages)
    (hl : a'.links = a.links.unlink r.node) (hb : (a'.pages m.start).blockPageCount = m.len)
    (hp : ∀ i, i ≠ b.start → i ≠ r.start → (a'.pages i).blockPageCount = (a.pages i).blockPageCount) :
    Merging a' m (kept ++ rest) := by
  have hperm : (freePages (b :: (kept ++ r :: rest))).Perm (freePages (m :: (kept ++ rest))) := by
    have hr : (freePages kept ++ (r.pages ++ freePages rest)).Perm
        (r.pages ++ (freePages kept ++ freePages rest)) := List.perm_append_comm_assoc ..
    rcases hm with hm | hm
    · simpa [hm] using hr.append_left b.pages
    · simp only [freePages_cons, freePages_append, hm, List.append_assoc]
      exact (hr.append_left _).trans (List.perm_append_comm_assoc ..)
  have hring := h.list.ring
  rw [List.map_append, List.map_cons] at hring
  have hnd := hperm.nodup_iff.mp h.nodup
  refine ⟨⟨?_, ?_⟩, hb, hnd, hperm.length_eq ▸ h.small⟩
  · rw [hl, List.map_append]
    exact hring.unlink
  · intro s hs
    have hsr : s.start ≠ r.start := by
      intro he
      have hd : List.Disjoint m.pages (freePages (kept ++ rest)) := List.disjoint_of_nodup_append hnd
      refine hd ?_ (mem_freePages.mpr ⟨s, hs, s.start_mem⟩)
      rcases hm with hm | hm <;> simp [hm, he, r.start_mem]
    have hmem : s ∈ kept ++ r :: rest := by simp at hs ⊢; tauto
    rw [hp s.start (h.start_ne hmem) hsr]
    exact h.list.blockPageCount s hmem

theorem mergeLoop_eq (fuel : ℕ) (a : FreeArea) (b : Run) (kept rest : List Run)
    (h : Merging a b (kept ++ rest)) (hf : rest.length < fuel) :
    ∃ a', mergeLoop fuel a b.start ((rest.map Run.node).headD .freeList)
          ((kept.map Run.node).getLastD .freeList) =
        some (a', (mergeRuns b rest).1.start,
          ((kept ++ (mergeRuns b rest).2).map Run.node).getLastD .freeList) ∧
      Merging a' (mergeRuns b rest).1 (kept ++ (mergeRuns b rest).2) ∧
      a'.freePageCount = a.freePageCount ∧ Untouched a a' (freePages (b :: rest)) := by
  induction fuel generalizing a b kept rest with
  | zero => omega
  | succ fuel ih =>
    cases rest with
    | nil =>
      exact ⟨a, by simp [mergeLoop, mergeRuns], by simpa [mergeRuns] using h, rfl, fun _ => rfl, fun _ _ => rfl⟩
    | cons r rest =>
      have hring := h.list.ring
      rw [List.map_append, List.map_cons] at hring
      have hnext := hring.next_member
      have hcount := h.list.blockPageCount r (by simp)
      have hne : r.start ≠ b.start := h.start_ne (by simp)
      have hsum : b.len + r.len < 2 ^ 32 := by
        have hsm := h.small
        simp only [freePages_cons, freePages_append, List.length_append, Run.pages, List.length_range'] at hsm
        omega
      have hf' : rest.length < fuel := by simp at hf; omega
      have hbm : b.start ∈ freePages (b :: r :: rest) := by simp [b.start_mem]
      have hrm : r.start ∈ freePages (b :: r :: rest) := by simp [r.start_mem]
      -- a merge changes the descriptors of the two first pages
      have htouch : ∀ i j, i ∈ freePages (b :: r :: rest) → j ∈ freePages (b :: r :: rest) → ∀ count links,
          Untouched a { (a.modifyPage i fun q => { q with blockPageCount := count }).modifyPage j
            Page.clearReserved with links := links } (freePages (b :: r :: rest)) := by
        intro i j hi hj count links
        have h₁ := untouched_modifyPage a i (fun q => { q with blockPageCount := count }) _ hi rfl
        have h₂ := untouched_modifyPage (a.modifyPage i fun q => { q with blockPageCount := count }) j
          Page.clearReserved _ hj rfl
        exact ⟨(h₁.trans h₂).refCount, (h₁.trans h₂).pages⟩
      simp only [Run.node] at hnext
      simp only [List.map_cons, List.headD_cons, Run.node, mergeLoop, h.block, hcount, mergeRuns, hnext]
      split
      · rename_i hj
        refine Exists.imp (fun a' hres => ⟨hres.1, hres.2.1, hres.2.2.1, ?_⟩)
          (ih _ (b.join r) kept rest (h.absorb (Or.inl (pages_join b r hj)) ?_ ?_ ?_) hf')
        · have hun := hres.2.2.2
          rw [freePages_cons, pages_join b r hj, List.append_assoc] at hun
          exact (htouch _ _ hbm hrm _ _).trans ⟨hun.refCount, hun.pages⟩
        · rfl
        · simp [Run.join, hne.symm, u32_eq hsum]
        · intro i hib hir
          simp [hib, hir]
      · split
        · rename_i hj
          refine Exists.imp (fun a' hres => ⟨hres.1, hres.2.1, hres.2.2.1, ?_⟩)
            (ih _ (r.join b) kept rest (h.absorb (Or.inr (pages_join r b hj)) ?_ ?_ ?_) hf')
          · have hun := hres.2.2.2
            rw [freePages_cons, pages_join r b hj, List.append_assoc] at hun
            exact (htouch _ _ hrm hbm _ _).trans ⟨hun.refCount, fun i hi => hun.pages i fun hm => hi
              ((List.perm_append_comm_assoc r.pages b.pages _).mem_iff.mp hm)⟩
          · rfl
          · simp [Run.join, hne, u32_eq (show r.len + b.len < 2 ^ 32 by omega)]
          · intro i hib hir
            simp [hib, hir]
        · obtain ⟨a', hloop, hmerge, hcount', hun⟩ := ih a b (kept ++ [r]) rest (by simpa using h) hf'
          refine ⟨a', by simpa [Run.node] using hloop, by simpa using hmerge, hcount', hun.mono ?_⟩
          simp only [freePages_cons]
          exact List.append_subset.mpr ⟨List.subset_append_left .., fun i hi => by simp [hi]⟩

/-! ## The partition of the managed pages -/

/-- The heap holds the free runs `runs`, and these and `allocated` split `managed`. -/
structure Partition (managed : List ℕ) (a : FreeArea) (allocated : Finset ℕ) (runs : List Run) : Prop where
  list : Represents a runs
  nodup : (freePages runs).Nodup
  apart : ∀ i ∈ freePages runs, i ∉ allocated
  cover : ∀ i, i ∈ managed ↔ i ∈ allocated ∨ i ∈ freePages runs
  count : a.freePageCount = (freePages runs).length

theorem Partition.take {managed : List ℕ} {a a' : FreeArea} {allocated : Finset ℕ} {runs runs' : List Run}
    {taken : List ℕ} (h : Partition managed a allocated runs) (hl : Represents a' runs')
    (hp : (freePages runs).Perm (taken ++ freePages runs'))
    (hc : a'.freePageCount = a.freePageCount - taken.length) :
    Partition managed a' (allocated ∪ taken.toFinset) runs' := by
  have hnd := hp.nodup_iff.mp h.nodup
  refine ⟨hl, (List.nodup_append.mp hnd).2.1, ?_, ?_, ?_⟩
  · intro i hi
    have hfree := h.apart i (hp.mem_iff.mpr (by simp [hi]))
    have htaken : i ∉ taken := fun ht => List.disjoint_of_nodup_append hnd ht hi
    simp [hfree, htaken]
  · intro i
    rw [h.cover i, hp.mem_iff]
    simp [or_assoc]
  · rw [hc, h.count, hp.length_eq, List.length_append]
    omega

theorem Partition.give {managed : List ℕ} {a a' : FreeArea} {allocated : Finset ℕ} {runs runs' : List Run}
    {given : List ℕ} (h : Partition managed a allocated runs) (hl : Represents a' runs')
    (hp : (freePages runs').Perm (given ++ freePages runs)) (hg : ∀ i ∈ given, i ∈ allocated)
    (hnd : given.Nodup) (hc : a'.freePageCount = a.freePageCount + given.length) :
    Partition managed a' (allocated \ given.toFinset) runs' := by
  have hfree : List.Disjoint given (freePages runs) := fun i hi hf => h.apart i hf (hg i hi)
  refine ⟨hl, hp.nodup_iff.mpr (List.nodup_append'.mpr ⟨hnd, h.nodup, hfree⟩), ?_, ?_, ?_⟩
  · intro i hi
    rcases List.mem_append.mp (hp.mem_iff.mp hi) with hi | hi
    · simp [hi]
    · simp [h.apart i hi]
  · intro i
    have hgi := hg i
    simp only [h.cover i, hp.mem_iff, List.mem_append, Finset.mem_sdiff, List.mem_toFinset]
    tauto
  · rw [hc, h.count, hp.length_eq, List.length_append, Nat.add_comm]

variable {managed : List ℕ} {a : FreeArea} {allocated : Finset ℕ} {runs : List Run}

theorem Partition.length_le (h : Partition managed a allocated runs) :
    (freePages runs).length ≤ managed.length :=
  (h.nodup.subperm fun i hi => (h.cover i).mpr (Or.inr hi)).length_le

theorem len_le_freePages {r : Run} (hr : r ∈ runs) : r.len ≤ (freePages runs).length := by
  obtain ⟨l₁, l₂, rfl⟩ := List.append_of_mem hr
  simp only [freePages_append, freePages_cons, List.length_append, Run.pages, List.length_range']
  omega

theorem alloc_eq (h : Partition managed a allocated runs) (n : ℕ) :
    alloc a n = some (((runs.find? (fits n)).map Run.start),
      match runs.find? (fits n) with
      | none => a
      | some r => takeRun a r.start n) := by
  unfold alloc
  split
  · rename_i hlt
    have hnone : runs.find? (fits n) = none := by
      rw [List.find?_eq_none]
      intro r hr
      have hle := len_le_freePages hr
      have hc := h.count
      simp only [fits, decide_eq_true_eq]
      omega
    simp [hnone]
  · have hlen := length_le_freePages runs
    have hf := findFit_eq a n [] runs (a.freePageCount + 1) h.list (by rw [h.count]; omega)
    simp only [List.map_nil, List.getLastD_nil] at hf
    rw [hf]
    cases runs.find? (fits n) <;> rfl

theorem alloc_partition (h : Partition managed a allocated runs) (hm : managed.length < 2 ^ 32)
    (n : ℕ) (h1 : 1 ≤ n) (r : Run) (hr : runs.find? (fits n) = some r) :
    ∃ l₁ l₂, runs = l₁ ++ r :: l₂ ∧ n ≤ r.len ∧ Partition managed (takeRun a r.start n)
      (allocated ∪ (List.range' r.start n).toFinset) (l₁ ++ r.dropFront n ++ l₂) := by
  obtain ⟨hfit, l₁, l₂, rfl, -⟩ := List.find?_eq_some_iff_append.mp hr
  have hn : n ≤ r.len := by simpa [fits] using hfit
  have hlen := len_le_freePages (show r ∈ l₁ ++ r :: l₂ by simp)
  have hall := h.length_le
  refine ⟨l₁, l₂, rfl, hn, h.take ?_ (freePages_take l₁ l₂ r n hn) ?_⟩
  · exact takeRun_represents a l₁ l₂ r n h.list h.nodup h1 (by omega)
  · rw [takeRun_freePageCount, List.length_range']

theorem resetPages_eq (a : FreeArea) (base n : ℕ)
    (hz : ∀ i, base ≤ i → i < base + n → (a.pages i).refCount = 0) :
    ∃ a', resetPages a base n = some a' ∧ a'.links = a.links ∧ a'.freePageCount = a.freePageCount ∧
      (∀ i, (a'.pages i).blockPageCount = (a.pages i).blockPageCount) ∧
      Untouched a a' (List.range' base n) := by
  induction n generalizing a base with
  | zero => exact ⟨a, rfl, rfl, rfl, fun _ => rfl, fun _ => rfl, fun _ _ => rfl⟩
  | succ n ih =>
    have hbase := hz base (by omega) (by omega)
    obtain ⟨a', hr, hl, hc, hp, hun⟩ := ih (a.modifyPage base fun p => { p with refCount := 0, flags := 0 })
      (base + 1) (fun i h1 h2 => by simpa [show i ≠ base by omega] using hz i (by omega) (by omega))
    refine ⟨a', ?_, hl, hc, fun i => (hp i).trans ?_, ?_⟩
    · rw [resetPages, if_pos hbase, hr]
    · by_cases hi : i = base <;> simp [hi]
    · rw [List.range'_succ]
      exact (untouched_modifyPage a base _ _ (List.mem_cons_self ..) hbase.symm).trans
        (hun.mono (List.subset_cons_self ..))

theorem free_partition (h : Partition managed a allocated runs) (hm : managed.length < 2 ^ 32)
    (b : Run) (hb : ∀ i ∈ b.pages, i ∈ allocated ∧ (a.pages i).refCount = 0) :
    ∃ a', free a b.start b.len = some a' ∧ Partition managed a' (allocated \ b.pages.toFinset)
      ((mergeRuns b runs).2 ++ [(mergeRuns b runs).1]) ∧ Untouched a a' (freePages (b :: runs)) := by
  obtain ⟨a₁, hreset, hlinks, hcount, hblock, hun₁⟩ := resetPages_eq a b.start b.len
    (fun i h1 h2 => (hb i (Run.mem_pages.mpr ⟨h1, h2⟩)).2)
  have hdis : List.Disjoint b.pages (freePages runs) := fun i hi hf => h.apart i hf (hb i hi).1
  have hnd : (freePages (b :: runs)).Nodup :=
    List.nodup_append'.mpr ⟨List.nodup_range', h.nodup, hdis⟩
  have hsmall : (freePages (b :: runs)).length < 2 ^ 32 := by
    refine Nat.lt_of_le_of_lt (hnd.subperm fun i hi => ?_).length_le hm
    rcases List.mem_append.mp hi with hi | hi
    · exact (h.cover i).mpr (Or.inl (hb i hi).1)
    · exact (h.cover i).mpr (Or.inr hi)
  have hblen : b.len < 2 ^ 32 := by
    have hle := len_le_freePages (show b ∈ b :: runs by simp)
    omega
  let a₂ := (a₁.modifyPage b.start fun p => { p with blockPageCount := u32 b.len }).modifyPage b.start
    Page.setReserved
  have hmerging : Merging a₂ b ([] ++ runs) := by
    refine ⟨⟨?_, ?_⟩, ?_, hnd, hsmall⟩
    · simpa [a₂, hlinks] using h.list.ring
    · intro s hs
      have hne : s.start ≠ b.start := by
        intro he
        exact hdis (he ▸ b.start_mem) (mem_freePages.mpr ⟨s, hs, s.start_mem⟩)
      simpa [a₂, hne, hblock] using h.list.blockPageCount s hs
    · simp [a₂, u32_eq hblen]
  have hfuel : runs.length < a₂.freePageCount + 1 := by
    have hlen := length_le_freePages runs
    have hc := h.count
    simp only [a₂, modifyPage_freePageCount, hcount]
    omega
  obtain ⟨a₃, hloop, hdone, hcount₃, hun₃⟩ := mergeLoop_eq _ a₂ b [] runs hmerging hfuel
  simp only [List.map_nil, List.getLastD_nil, List.nil_append] at hloop hdone
  have hnext : a₂.links.next .freeList = (runs.map Run.node).headD .freeList := by
    simpa [a₂, hlinks] using h.list.ring.next_head
  have hperm := mergeRuns_perm b runs
  rw [← hnext] at hloop
  refine ⟨{ a₃ with
      freePageCount := u32 (a₃.freePageCount + b.len)
      links := a₃.links.addAfter (((mergeRuns b runs).2.map Run.node).getLastD .freeList)
        (.page (mergeRuns b runs).1.start) }, ?_, h.give ⟨?_, ?_⟩ ?_ ?_ ?_ ?_, ?_⟩
  · simp only [free, hreset, Option.bind_eq_bind, Option.bind_some]
    change (mergeLoop (a₂.freePageCount + 1) a₂ b.start (a₂.links.next .freeList) .freeList).bind _ = _
    rw [hloop]
    rfl
  · have hfresh : Node.page (mergeRuns b runs).1.start ∉ Node.freeList :: (mergeRuns b runs).2.map Run.node := by
      have hd := start_notMem (mergeRuns b runs).1.start_mem (List.disjoint_of_nodup_append hdone.nodup)
      simpa using hd
    simpa [Run.node] using hdone.list.ring.addAfter_last hfresh
  · intro s hs
    rcases List.mem_append.mp hs with hs | hs
    · exact hdone.list.blockPageCount s hs
    · rw [List.mem_singleton.mp hs]
      exact hdone.block
  · refine List.Perm.trans ?_ hperm
    simpa using List.perm_append_comm
  · exact fun i hi => (hb i hi).1
  · exact List.nodup_range'
  · have hlen : b.pages.length = b.len := List.length_range'
    have hc := h.count
    have hbound : a₃.freePageCount + b.len < 2 ^ 32 := by
      simp only [freePages_cons, List.length_append, hlen] at hsmall
      simp only [hcount₃, a₂, modifyPage_freePageCount, hcount]
      omega
    simp only [u32_eq hbound, hlen]
    simp only [hcount₃, a₂, modifyPage_freePageCount, hcount]
  · have hbm : b.start ∈ freePages (b :: runs) := by simp [b.start_mem]
    have hun₂ : Untouched a₁ a₂ (freePages (b :: runs)) :=
      (untouched_modifyPage a₁ b.start _ _ hbm rfl).trans (untouched_modifyPage _ b.start _ _ hbm rfl)
    have hall := ((hun₁.mono (List.subset_append_left b.pages (freePages runs))).trans hun₂).trans hun₃
    exact ⟨hall.refCount, hall.pages⟩

/-! ## Start-up -/

theorem constructPages_frame (a : FreeArea) (base n : ℕ) :
    (constructPages a base n).freePageCount = a.freePageCount ∧
    (∀ i, (i < base ∨ base + n ≤ i) → (constructPages a base n).pages i = a.pages i) ∧
    (∀ m : Node, (∀ i, base ≤ i → i < base + n → m ≠ .page i) →
      (constructPages a base n).links.next m = a.links.next m ∧
      (constructPages a base n).links.prev m = a.links.prev m) := by
  induction n generalizing a base with
  | zero => exact ⟨rfl, fun _ _ => rfl, fun _ _ => ⟨rfl, rfl⟩⟩
  | succ n ih =>
    obtain ⟨hc, hp, hl⟩ := ih (a.construct base) (base + 1)
    refine ⟨hc, fun i hi => ?_, fun m hm => ?_⟩
    · have hne : i ≠ base := by omega
      rw [constructPages, hp i (by omega)]
      simp [FreeArea.construct, hne]
    · have hne := hm base (Nat.le_refl _) (by omega)
      obtain ⟨hn, hv⟩ := hl m fun i h1 h2 => hm i (by omega) (by omega)
      rw [constructPages, hn, hv]
      simp [FreeArea.construct, Links.reset, hne]

theorem initMemmap_represents (h : Represents a runs) (r : Run)
    (hd : List.Disjoint r.pages (freePages runs)) (hs : r.len < 2 ^ 32) :
    Represents (initMemmap a r.start r.len) (runs ++ [r]) := by
  obtain ⟨-, hp, hl⟩ := constructPages_frame a r.start r.len
  have hnew : ∀ i, r.start ≤ i → i < r.start + r.len → Node.page i ∉ runs.map Run.node :=
    fun i h1 h2 => start_notMem (Run.mem_pages.mpr ⟨h1, h2⟩) hd
  have hne := r.nonempty
  refine ⟨?_, ?_⟩
  · have hring : Ring (constructPages a r.start r.len).links .freeList (runs.map Run.node) := by
      refine h.ring.congr fun m hm => hl m ?_
      rintro i h1 h2 rfl
      simp only [List.mem_cons, reduceCtorEq, false_or] at hm
      exact hnew i h1 h2 hm
    have hfresh : r.node ∉ Node.freeList :: runs.map Run.node := by
      simpa [Run.node] using hnew r.start (Nat.le_refl _) (by omega)
    simpa [initMemmap, Run.node] using hring.addBefore_head hfresh
  · intro s hs'
    rcases List.mem_append.mp hs' with hs' | hs'
    · have hout : s.start < r.start ∨ r.start + r.len ≤ s.start := by
        have hno : ¬(r.start ≤ s.start ∧ s.start < r.start + r.len) := fun hin =>
          hd (Run.mem_pages.mpr hin) (mem_freePages.mpr ⟨s, hs', s.start_mem⟩)
        omega
      have hsr : s.start ≠ r.start := by omega
      simpa [initMemmap, hsr, hp _ hout] using h.blockPageCount s hs'
    · rw [List.mem_singleton.mp hs']
      simp [initMemmap, u32_eq hs]

/-- The state before `page_init`: the constructed `FreeArea` over arbitrary descriptors. -/
structure FreeArea.Blank (a : FreeArea) : Prop where
  next : a.links.next .freeList = .freeList
  prev : a.links.prev .freeList = .freeList
  count : a.freePageCount = 0

/-- `page_init` hands every usable region to the allocator. -/
def initRegions (a : FreeArea) : List Run → FreeArea
  | [] => a
  | r :: regions => initRegions (initMemmap a r.start r.len) regions

theorem initRegions_represents (regions : List Run) (h : Represents a runs)
    (hc : a.freePageCount = (freePages runs).length) (hnd : (freePages (runs ++ regions)).Nodup)
    (hs : (freePages (runs ++ regions)).length < 2 ^ 32) :
    Represents (initRegions a regions) (runs ++ regions) ∧
      (initRegions a regions).freePageCount = (freePages (runs ++ regions)).length := by
  induction regions generalizing a runs with
  | nil => simpa [initRegions] using ⟨h, hc⟩
  | cons r regions ih =>
    have hlen : r.pages.length = r.len := List.length_range'
    have hsplit := hs
    simp only [freePages_append, freePages_cons, List.length_append, hlen] at hsplit
    have hd : List.Disjoint r.pages (freePages runs) := by
      rw [freePages_append, freePages_cons] at hnd
      intro i hi hf
      exact List.disjoint_of_nodup_append hnd hf (List.mem_append_left _ hi)
    have hstep := ih (initMemmap_represents h r hd (by omega)) ?_ (by simpa using hnd) (by simpa using hs)
    · simpa [initRegions] using hstep
    · have hcount := (constructPages_frame a r.start r.len).1
      simp [initMemmap, hcount, hc, hlen, u32_eq (show (freePages runs).length + r.len < 2 ^ 32 by omega)]

/-! ## Runs of the allocator -/

/-- What code holding an allocated page may do to its descriptor: anything, its list node included. -/
def FreeArea.use (a : FreeArea) (i : ℕ) (page : Page) (prev next : Node) : FreeArea :=
  { a.modifyPage i (fun _ => page) with
    links := (a.links.setPrev (.page i) prev).setNext (.page i) next }

/-- The states reached from `page_init` by allocating, using and freeing pages, with the set of
pages that are allocated. -/
inductive Reachable (regions : List Run) : FreeArea → Finset ℕ → Prop
  | init (a : FreeArea) (blank : a.Blank) : Reachable regions (initRegions a regions) ∅
  | alloc {a a' : FreeArea} {allocated : Finset ℕ} (n : ℕ) (page : ℕ) (h : Reachable regions a allocated)
      (positive : 1 ≤ n) (result : alloc a n = some (some page, a')) :
      Reachable regions a' (allocated ∪ (List.range' page n).toFinset)
  | allocNull {a a' : FreeArea} {allocated : Finset ℕ} (n : ℕ) (h : Reachable regions a allocated)
      (positive : 1 ≤ n) (result : alloc a n = some (none, a')) : Reachable regions a' allocated
  | free {a a' : FreeArea} {allocated : Finset ℕ} (b : Run) (h : Reachable regions a allocated)
      (held : ∀ i ∈ b.pages, i ∈ allocated ∧ (a.pages i).refCount = 0)
      (result : free a b.start b.len = some a') :
      Reachable regions a' (allocated \ b.pages.toFinset)
  | use {a : FreeArea} {allocated : Finset ℕ} (i : ℕ) (page : Page) (prev next : Node)
      (h : Reachable regions a allocated) (held : i ∈ allocated) :
      Reachable regions (a.use i page prev next) allocated

theorem use_partition (h : Partition managed a allocated runs) (i : ℕ) (hi : i ∈ allocated)
    (page : Page) (prev next : Node) : Partition managed (a.use i page prev next) allocated runs := by
  have hne : ∀ r ∈ runs, r.start ≠ i := by
    rintro r hr rfl
    exact h.apart _ (mem_freePages.mpr ⟨r, hr, r.start_mem⟩) hi
  refine ⟨⟨h.list.ring.congr fun m hm => ?_, fun r hr => ?_⟩, h.nodup, h.apart, h.cover, h.count⟩
  · have hm' : m ≠ .page i := by
      rintro rfl
      simp only [List.mem_cons, reduceCtorEq, false_or] at hm
      obtain ⟨r, hr, he⟩ := List.mem_map.mp hm
      exact hne r hr (Node.page.inj he)
    simp [FreeArea.use, hm']
  · simpa [FreeArea.use, hne r hr] using h.list.blockPageCount r hr

/-- A property of free lists that holds of the regions and that taking the front of a run and giving
a run back preserve holds in every reachable state. -/
theorem reachable_runs {I : List Run → Prop} (regions : List Run) (hd : (freePages regions).Nodup)
    (hs : (freePages regions).length < 2 ^ 32) (hinit : I regions)
    (htake : ∀ l₁ r l₂ n, 1 ≤ n → n ≤ r.len → I (l₁ ++ r :: l₂) → I (l₁ ++ r.dropFront n ++ l₂))
    (hgive : ∀ b runs, (∀ r ∈ runs, List.Disjoint b.pages r.pages) → I runs →
      I ((mergeRuns b runs).2 ++ [(mergeRuns b runs).1]))
    (h : Reachable regions a allocated) :
    ∃ runs, Partition (freePages regions) a allocated runs ∧ I runs := by
  induction h with
  | init a blank =>
    have hempty : Represents a [] := ⟨⟨⟨blank.next, blank.prev⟩, by simp⟩, by simp⟩
    have hboot := initRegions_represents regions hempty blank.count hd hs
    exact ⟨regions, ⟨hboot.1, hd, by simp, by simp, hboot.2⟩, hinit⟩
  | alloc n page h positive result ih =>
    obtain ⟨runs, hp, hi⟩ := ih
    rw [alloc_eq hp] at result
    cases hfit : runs.find? (fits n) with
    | none => simp [hfit] at result
    | some r =>
      simp only [hfit, Option.map_some, Option.some.injEq, Prod.mk.injEq] at result
      obtain ⟨rfl, rfl⟩ := result
      obtain ⟨l₁, l₂, rfl, hn, hp'⟩ := alloc_partition hp hs n positive r hfit
      exact ⟨_, hp', htake l₁ r l₂ n positive hn hi⟩
  | allocNull n h positive result ih =>
    obtain ⟨runs, hp, hi⟩ := ih
    rw [alloc_eq hp] at result
    cases hfit : runs.find? (fits n) with
    | none =>
      simp only [hfit, Option.map_none, Option.some.injEq, Prod.mk.injEq, true_and] at result
      exact ⟨runs, result ▸ hp, hi⟩
    | some r => simp [hfit] at result
  | free b h held result ih =>
    obtain ⟨runs, hp, hi⟩ := ih
    obtain ⟨a', hfree, hp', -⟩ := free_partition hp hs b held
    rw [result, Option.some.injEq] at hfree
    refine ⟨_, hfree ▸ hp', hgive b runs (fun r hr i hib hir => ?_) hi⟩
    exact hp.apart i (mem_freePages.mpr ⟨r, hr, hir⟩) (held i hib).1
  | use i page prev next h held ih =>
    obtain ⟨runs, hp, hi⟩ := ih
    exact ⟨runs, use_partition hp i held page prev next, hi⟩

/-- The free list, the allocated pages and the managed pages agree. -/
structure Conserved (regions : List Run) (a : FreeArea) (allocated : Finset ℕ) (runs : List Run) : Prop where
  onList : Ring a.links .freeList (runs.map Run.node)
  blockPageCount : ∀ r ∈ runs, (a.pages r.start).blockPageCount = r.len
  disjoint : runs.Pairwise fun r s => List.Disjoint r.pages s.pages
  apart : ∀ r ∈ runs, ∀ i ∈ r.pages, i ∉ allocated
  cover : ∀ i, (∃ r ∈ regions, i ∈ r.pages) ↔ i ∈ allocated ∨ ∃ r ∈ runs, i ∈ r.pages
  count : a.freePageCount = (runs.map Run.len).sum

/-- What `alloc` answers on the free list `runs`. -/
structure FirstFit (runs : List Run) (n : ℕ) (result : Option ℕ) : Prop where
  first : result = (runs.find? (fits n)).map Run.start
  free : ∀ page, result = some page → ∀ i ∈ List.range' page n, ∃ r ∈ runs, i ∈ r.pages

theorem freePages_nodup_iff (runs : List Run) :
    (freePages runs).Nodup ↔ runs.Pairwise fun r s => List.Disjoint r.pages s.pages := by
  simp only [freePages, List.nodup_flatMap]
  exact ⟨fun h => h.2, fun h => ⟨fun r _ => List.nodup_range', h⟩⟩

theorem Partition.conserved {regions : List Run} (h : Partition (freePages regions) a allocated runs) :
    Conserved regions a allocated runs where
  onList := h.list.ring
  blockPageCount := h.list.blockPageCount
  disjoint := (freePages_nodup_iff runs).mp h.nodup
  apart := fun r hr i hi => h.apart i (mem_freePages.mpr ⟨r, hr, hi⟩)
  cover := fun i => by simpa only [mem_freePages] using h.cover i
  count := h.count.trans (freePages_length runs)

theorem Partition.firstFit (h : Partition managed a allocated runs) (n : ℕ) :
    ∃ result a', alloc a n = some (result, a') ∧ FirstFit runs n result := by
  refine ⟨_, _, alloc_eq h n, rfl, ?_⟩
  intro page hpage i hi
  obtain ⟨r, hr, rfl⟩ := Option.map_eq_some_iff.mp hpage
  have hfit : n ≤ r.len := by simpa [fits] using List.find?_some hr
  refine ⟨r, List.mem_of_find?_eq_some hr, Run.mem_pages.mpr ?_⟩
  rw [List.mem_range'_1] at hi
  omega

/-- Whatever was allocated, used and freed: the free runs and the allocated pages split the managed
pages, `alloc` answers with the first run that is long enough, and `free` never stops. -/
theorem page_conservation (regions : List Run)
    (hd : regions.Pairwise fun r s => List.Disjoint r.pages s.pages)
    (hs : (regions.map Run.len).sum < 2 ^ 32) (a : FreeArea) (allocated : Finset ℕ)
    (h : Reachable regions a allocated) :
    ∃ runs, Conserved regions a allocated runs ∧
      (∀ n, 1 ≤ n → ∃ result a', alloc a n = some (result, a') ∧ FirstFit runs n result) ∧
      ∀ b : Run, (∀ i ∈ b.pages, i ∈ allocated ∧ (a.pages i).refCount = 0) →
        ∃ a', free a b.start b.len = some a' := by
  have hnd := (freePages_nodup_iff regions).mpr hd
  rw [← freePages_length] at hs
  obtain ⟨runs, hp, -⟩ := reachable_runs (I := fun _ => True) regions hnd hs trivial
    (fun _ _ _ _ _ _ _ => trivial) (fun _ _ _ _ => trivial) h
  refine ⟨runs, hp.conserved, fun n _ => hp.firstFit n, fun b hb => ?_⟩
  obtain ⟨a', hfree, -⟩ := free_partition hp hs b hb
  exact ⟨a', hfree⟩

/-- A machine with pages 2 to 4 and page 8, before and after the first two pages are taken. -/
def sampleRegions : List Run := [⟨2, 3, by decide⟩, ⟨8, 1, Nat.zero_lt_one⟩]
def sampleBoot : FreeArea := initRegions ⟨⟨id, id⟩, fun _ => Page.zero, 0⟩ sampleRegions

theorem page_conservation_sample :
    alloc sampleBoot 2 = some (some 2, takeRun sampleBoot 2 2) ∧
    ∃ runs, Conserved sampleRegions (takeRun sampleBoot 2 2) {2, 3} runs := by
  have halloc : alloc sampleBoot 2 = some (some 2, takeRun sampleBoot 2 2) := rfl
  have hboot : Reachable sampleRegions sampleBoot ∅ := .init _ ⟨rfl, rfl, rfl⟩
  have hstep : Reachable sampleRegions (takeRun sampleBoot 2 2) {2, 3} :=
    .alloc 2 2 hboot (by decide) halloc
  have hdisjoint := (freePages_nodup_iff sampleRegions).mp (by decide)
  obtain ⟨runs, hc, -⟩ := page_conservation sampleRegions hdisjoint (by decide) _ _ hstep
  exact ⟨halloc, runs, hc⟩

end Zonix.Mm
