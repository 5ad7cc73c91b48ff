import Zonix.Mm.Completeness

/-! # The kernel heap

`kmalloc` and `kfree` of `kernel/mm/pmm.cpp` over the first-fit allocator.  The number of pages is
remembered in the descriptor of the first one.  The rounding up to pages wraps for the largest byte
counts; then `alloc(0)` links the first free run to itself. -/

namespace Zonix.Mm

open Linked

def pgSize : ℕ := 4096

/-- `page_to_kva` and `kva_to_page` with the direct map at `base`. -/
def pageToKva (base page : ℕ) : ℕ := u64 (base + page * pgSize)
def kvaToPage (base kva : ℕ) : ℕ := u64 (kva + (2 ^ 64 - base)) / pgSize

def kmallocPages (byteCount : ℕ) : ℕ := u64 (byteCount + pgSize - 1) / pgSize

/-- The returned pointer and the state; `none` when the allocator does not return. -/
def kmalloc (base : ℕ) (a : FreeArea) (byteCount : ℕ) : Option (ℕ × FreeArea) :=
  if byteCount = 0 then some (0, a)
  else
    match alloc a (kmallocPages byteCount) with
    | none => none
    | some (none, a) => some (0, a)
    | some (some page, a) =>
      -- remembered for `kfree`
      some (pageToKva base page,
        a.modifyPage page fun p => { p with blockPageCount := u32 (kmallocPages byteCount) })

def kfree (base : ℕ) (a : FreeArea) (ptr : ℕ) : Option FreeArea :=
  if ptr = 0 then some a
  else
    let page := kvaToPage base ptr
    free a page (if 0 < (a.pages page).blockPageCount then (a.pages page).blockPageCount else 1)

/-! ## What a call should do -/

variable (base : ℕ) (regions : List Run)

/-- The pages of the live allocations. -/
def livePages (live : List Run) : Finset ℕ := (freePages live).toFinset

/-- Null with the free list as it was, or a run of free pages that is long enough. -/
def KmallocSafe (a : FreeArea) (live runs : List Run) (byteCount : ℕ) : Prop :=
  ∃ ptr a', kmalloc base a byteCount = some (ptr, a') ∧
    ((ptr = 0 ∧ Conserved regions a' (livePages live) runs) ∨
      (ptr ≠ 0 ∧ ∃ r : Run, ptr = pageToKva base r.start ∧ byteCount ≤ r.len * pgSize ∧
        (∀ i ∈ r.pages, IsFree runs i) ∧ (∀ s ∈ live, List.Disjoint r.pages s.pages) ∧
        ∃ runs', Conserved regions a' (livePages (r :: live)) runs'))

/-- The rounding does not wrap, and the page found is not the one at the null pointer. -/
def KmallocFits (a : FreeArea) (byteCount : ℕ) : Prop :=
  byteCount ≠ 0 → ∀ page a', alloc a (kmallocPages byteCount) = some (some page, a') →
    byteCount + (pgSize - 1) < 2 ^ 64 ∧ pageToKva base page ≠ 0

/-- The states reached by `kmalloc` and `kfree` with the live allocations; every `kmalloc` meets
`KmallocFits`. -/
inductive HeapReach : FreeArea → List Run → Prop
  | init (a : FreeArea) (blank : a.Blank) : HeapReach (initRegions a regions) []
  | kmalloc {a a' : FreeArea} {live : List Run} (byteCount ptr : ℕ) (r : Run) (h : HeapReach a live)
      (range : byteCount < 2 ^ 64) (fits : KmallocFits base a byteCount)
      (result : kmalloc base a byteCount = some (ptr, a')) (start : r.start = kvaToPage base ptr)
      (length : r.len = kmallocPages byteCount) (nonnull : ptr ≠ 0) : HeapReach a' (r :: live)
  | null {a a' : FreeArea} {live : List Run} (byteCount : ℕ) (h : HeapReach a live) (range : byteCount < 2 ^ 64)
      (fits : KmallocFits base a byteCount) (result : kmalloc base a byteCount = some (0, a')) : HeapReach a' live
  | kfree {a a' : FreeArea} {live : List Run} (b : Run) (h : HeapReach a live) (held : b ∈ live)
      (result : kfree base a (pageToKva base b.start) = some a') : HeapReach a' (live.erase b)

variable {base : ℕ} {regions : List Run} {a a' : FreeArea} {live runs : List Run} {byteCount : ℕ} {b r : Run}

theorem kvaToPage_pageToKva {page : ℕ} (hb : base < 2 ^ 64) (hp : page < 2 ^ 32) :
    kvaToPage base (pageToKva base page) = page := by
  unfold kvaToPage pageToKva u64 pgSize
  omega

theorem kmallocPages_eq (h : byteCount + (pgSize - 1) < 2 ^ 64) :
    kmallocPages byteCount = (byteCount + pgSize - 1) / pgSize := by
  unfold pgSize at h
  unfold kmallocPages pgSize
  rw [u64_eq (by omega)]

/-! ## The invariant -/

structure Heap (base : ℕ) (regions : List Run) (a : FreeArea) (live runs : List Run) : Prop where
  partition : Partition (freePages regions) a (livePages live) runs
  nodup : (freePages live).Nodup
  count : ∀ r ∈ live, (a.pages r.start).blockPageCount = r.len
  refs : ∀ i ∈ freePages regions, (a.pages i).refCount = 0
  nonnull : ∀ r ∈ live, pageToKva base r.start ≠ 0

theorem mem_livePages {i : ℕ} : i ∈ livePages live ↔ i ∈ freePages live := List.mem_toFinset

theorem livePages_cons (r : Run) (live : List Run) :
    livePages (r :: live) = livePages live ∪ r.pages.toFinset := by
  rw [livePages, freePages_cons, List.toFinset_append, Finset.union_comm]
  rfl

theorem livePages_erase (hnd : (freePages live).Nodup) (hb : b ∈ live) :
    livePages (live.erase b) = livePages live \ b.pages.toFinset ∧ (freePages (live.erase b)).Nodup ∧
      List.Disjoint b.pages (freePages (live.erase b)) := by
  have hperm : (freePages live).Perm (b.pages ++ freePages (live.erase b)) :=
    (List.perm_cons_erase hb).flatMap_right Run.pages
  have hsplit := hperm.nodup_iff.mp hnd
  have hdis := List.disjoint_of_nodup_append hsplit
  refine ⟨?_, (List.nodup_append.mp hsplit).2.1, hdis⟩
  ext i
  rw [Finset.mem_sdiff, mem_livePages, mem_livePages, hperm.mem_iff, List.mem_append, List.mem_toFinset]
  constructor
  · intro hi
    exact ⟨Or.inr hi, fun hib => hdis hib hi⟩
  · rintro ⟨hi | hi, hno⟩
    · exact absurd hi hno
    · exact hi

theorem Partition.modifyPage {managed : List ℕ} {allocated : Finset ℕ} (h : Partition managed a allocated runs)
    {i : ℕ} (hi : i ∈ allocated) (f : Page → Page) : Partition managed (a.modifyPage i f) allocated runs := by
  refine ⟨⟨h.list.ring, fun r hr => ?_⟩, h.nodup, h.apart, h.cover, h.count⟩
  have hne : r.start ≠ i := fun he => h.apart i (mem_freePages.mpr ⟨r, hr, he ▸ r.start_mem⟩) hi
  rw [modifyPage_pages, if_neg hne]
  exact h.list.blockPageCount r hr

theorem constructPages_zero (a : FreeArea) (base n i : ℕ) (h1 : base ≤ i) (h2 : i < base + n) :
    (constructPages a base n).pages i = Page.zero := by
  induction n generalizing a base with
  | zero => omega
  | succ n ih =>
    rw [constructPages]
    by_cases hi : i = base
    · rw [(constructPages_frame (a.construct base) (base + 1) n).2.1 i (by omega)]
      simp [FreeArea.construct, hi]
    · exact ih (a.construct base) (base + 1) (by omega) (by omega)

theorem initMemmap_refCount (a : FreeArea) (r : Run) (i : ℕ) :
    ((initMemmap a r.start r.len).pages i).refCount = if i ∈ r.pages then 0 else (a.pages i).refCount := by
  have hpages : ((initMemmap a r.start r.len).pages i).refCount =
      ((constructPages a r.start r.len).pages i).refCount := by
    unfold initMemmap
    dsimp only
    simp only [modifyPage_pages]
    split
    · rename_i he
      rw [he]
      rfl
    · rfl
  rw [hpages]
  split
  · rename_i hi
    rw [Run.mem_pages] at hi
    rw [constructPages_zero a r.start r.len i hi.1 hi.2]
    rfl
  · rename_i hi
    rw [Run.mem_pages] at hi
    rw [(constructPages_frame a r.start r.len).2.1 i (by omega)]

theorem initRegions_refCount (regions : List Run) (a : FreeArea) (i : ℕ)
    (h : i ∈ freePages regions ∨ (a.pages i).refCount = 0) : ((initRegions a regions).pages i).refCount = 0 := by
  induction regions generalizing a with
  | nil => exact h.resolve_left (by simp)
  | cons r regions ih =>
    refine ih (initMemmap a r.start r.len) ?_
    rw [initMemmap_refCount]
    rw [freePages_cons, List.mem_append] at h
    rcases h with (hi | hi) | hi
    · exact Or.inr (if_pos hi)
    · exact Or.inl hi
    · right
      split
      · rfl
      · exact hi

theorem Heap.init (base : ℕ) (regions : List Run) (hd : (freePages regions).Nodup) (hs : (freePages regions).length < 2 ^ 32) (blank : a.Blank) :
    Heap base regions (initRegions a regions) [] regions := by
  have hempty : Represents a [] := ⟨⟨⟨blank.next, blank.prev⟩, by simp⟩, by simp⟩
  have hboot := initRegions_represents regions hempty blank.count hd hs
  refine ⟨⟨hboot.1, hd, ?_, ?_, hboot.2⟩, List.nodup_nil, by simp, fun i hi => ?_, by simp⟩
  · simp [livePages]
  · simp [livePages]
  · exact initRegions_refCount regions a i (Or.inl hi)

/-! ## Calls -/

theorem kmalloc_eq (base : ℕ) {managed : List ℕ} {allocated : Finset ℕ} (h : Partition managed a allocated runs)
    (h0 : byteCount ≠ 0) :
    kmalloc base a byteCount = some (match runs.find? (fits (kmallocPages byteCount)) with
      | none => (0, a)
      | some r => (pageToKva base r.start, (takeRun a r.start (kmallocPages byteCount)).modifyPage r.start
          fun p => { p with blockPageCount := u32 (kmallocPages byteCount) })) := by
  unfold kmalloc
  rw [if_neg h0, alloc_eq h]
  cases runs.find? (fits (kmallocPages byteCount)) <;> rfl

theorem Heap.kmalloc (h : Heap base regions a live runs) (hs : (freePages regions).length < 2 ^ 32)
    (hr : runs.find? (fits b.len) = some r) (hb : b.start = r.start) (hnull : pageToKva base r.start ≠ 0) :
    (∀ i ∈ b.pages, IsFree runs i) ∧ (∀ s ∈ live, List.Disjoint b.pages s.pages) ∧
      ∃ runs', Heap base regions ((takeRun a r.start b.len).modifyPage r.start
        fun p => { p with blockPageCount := u32 b.len }) (b :: live) runs' := by
  obtain ⟨l₁, l₂, hruns, hle, hp⟩ := alloc_partition h.partition hs b.len b.nonempty r hr
  have hrm : r ∈ runs := List.mem_of_find?_eq_some hr
  have hsub : ∀ i ∈ b.pages, i ∈ r.pages := by
    intro i hi
    rw [Run.mem_pages] at hi ⊢
    omega
  have hfree : ∀ i ∈ r.pages, i ∉ freePages live := fun i hi hl =>
    h.partition.apart i (mem_freePages.mpr ⟨r, hrm, hi⟩) (mem_livePages.mpr hl)
  have hblock := h.partition.list.blockPageCount r hrm
  have htouch := takeRun_untouched a r b.len hblock
  have hset : livePages live ∪ (List.range' r.start b.len).toFinset = livePages (b :: live) := by
    rw [livePages_cons, ← hb]
    rfl
  have hlen : b.len < 2 ^ 32 := by
    have hle' := len_le_freePages hrm
    have hall := h.partition.length_le
    omega
  rw [hset] at hp
  refine ⟨fun i hi => ⟨r, hrm, hsub i hi⟩, fun s hs i hi his => ?_, l₁ ++ r.dropFront b.len ++ l₂, ?_⟩
  · exact hfree i (hsub i hi) (mem_freePages.mpr ⟨s, hs, his⟩)
  · have hmem : r.start ∈ livePages (b :: live) := by
      rw [mem_livePages, freePages_cons, List.mem_append, ← hb]
      exact Or.inl b.start_mem
    refine ⟨hp.modifyPage hmem _, ?_, fun s hs => ?_, fun i hi => ?_, fun s hs => ?_⟩
    · exact List.nodup_append'.mpr ⟨List.nodup_range', h.nodup, fun i hi => hfree i (hsub i hi)⟩
    · rw [modifyPage_pages]
      rcases List.mem_cons.mp hs with rfl | hs
      · rw [if_pos hb]
        exact u32_eq hlen
      · have hnot : s.start ∉ r.pages := fun hi => hfree _ hi (mem_freePages.mpr ⟨s, hs, s.start_mem⟩)
        have hne : s.start ≠ r.start := fun he => hnot (he ▸ r.start_mem)
        rw [if_neg hne, htouch.pages _ hnot]
        exact h.count s hs
    · have hkeep : (((takeRun a r.start b.len).modifyPage r.start
          fun p => { p with blockPageCount := u32 b.len }).pages i).refCount =
          ((takeRun a r.start b.len).pages i).refCount :=
        (untouched_modifyPage _ r.start _ r.pages r.start_mem rfl).refCount i
      rw [hkeep, htouch.refCount i]
      exact h.refs i hi
    · rcases List.mem_cons.mp hs with rfl | hs
      · rw [hb]
        exact hnull
      · exact h.nonnull s hs

theorem Heap.kfree (h : Heap base regions a live runs) (hs : (freePages regions).length < 2 ^ 32) (hbase : base < 2 ^ 64)
    (hlow : ∀ i ∈ freePages regions, i < 2 ^ 32) (hb : b ∈ live) :
    ∃ a' runs', kfree base a (pageToKva base b.start) = some a' ∧ Heap base regions a' (live.erase b) runs' ∧
      ∀ i, IsFree runs' i ↔ IsFree runs i ∨ i ∈ b.pages := by
  have hmanaged : ∀ i ∈ freePages live, i ∈ freePages regions := fun i hi =>
    (h.partition.cover i).mpr (Or.inl (mem_livePages.mpr hi))
  have hbpages : ∀ i ∈ b.pages, i ∈ freePages live := fun i hi => mem_freePages.mpr ⟨b, hb, hi⟩
  have hpage : kvaToPage base (pageToKva base b.start) = b.start :=
    kvaToPage_pageToKva hbase (hlow _ (hmanaged _ (hbpages _ b.start_mem)))
  obtain ⟨a', hfree, hp, hun⟩ := free_partition h.partition hs b fun i hi =>
    ⟨mem_livePages.mpr (hbpages i hi), h.refs i (hmanaged i (hbpages i hi))⟩
  obtain ⟨hset, hnd, hdis⟩ := livePages_erase h.nodup hb
  rw [← hset] at hp
  refine ⟨a', _, ?_, ⟨hp, hnd, fun s hs => ?_, fun i hi => ?_, fun s hs => h.nonnull s (List.mem_of_mem_erase hs)⟩,
    fun i => ?_⟩
  · unfold Mm.kfree
    rw [if_neg (h.nonnull b hb), hpage]
    show free a b.start (if 0 < (a.pages b.start).blockPageCount then _ else 1) = some a'
    rw [h.count b hb, if_pos b.nonempty]
    exact hfree
  · -- the other allocations lie outside `b` and the free list
    have hmem := List.mem_of_mem_erase hs
    have hnot : s.start ∉ freePages (b :: runs) := by
      rw [freePages_cons, List.mem_append]
      rintro (hi | hi)
      · exact hdis hi (mem_freePages.mpr ⟨s, hs, s.start_mem⟩)
      · exact h.partition.apart _ hi (mem_livePages.mpr (mem_freePages.mpr ⟨s, hmem, s.start_mem⟩))
    rw [hun.pages _ hnot]
    exact h.count s hmem
  · rw [hun.refCount i]
    exact h.refs i hi
  · have hbefore := h.partition.cover i
    have hafter := hp.cover i
    have hapart := h.partition.apart i
    have hapart' := hp.apart i
    simp only [IsFree, ← mem_freePages]
    rw [hset, Finset.mem_sdiff, List.mem_toFinset] at hafter hapart'
    have hlive : i ∈ b.pages → i ∈ livePages live := fun hi => mem_livePages.mpr (hbpages i hi)
    tauto

theorem HeapReach.heap (hd : (freePages regions).Nodup) (hs : (freePages regions).length < 2 ^ 32)
    (hbase : base < 2 ^ 64) (hlow : ∀ i ∈ freePages regions, i < 2 ^ 32) (h : HeapReach base regions a live) :
    ∃ runs, Heap base regions a live runs := by
  induction h with
  | init a blank => exact ⟨regions, Heap.init base regions hd hs blank⟩
  | @kmalloc a a' live byteCount ptr r h range hfits result start length nonnull ih =>
    obtain ⟨runs, hheap⟩ := ih
    by_cases h0 : byteCount = 0
    · simp only [Mm.kmalloc, h0, if_true, Option.some.injEq, Prod.mk.injEq] at result
      exact absurd result.1.symm nonnull
    · have halloc := alloc_eq hheap.partition (kmallocPages byteCount)
      rw [kmalloc_eq base hheap.partition h0] at result
      cases hfind : runs.find? (fits (kmallocPages byteCount)) with
      | none =>
        simp only [hfind, Option.some.injEq, Prod.mk.injEq] at result
        exact absurd result.1.symm nonnull
      | some r₀ =>
        simp only [hfind, Option.some.injEq, Prod.mk.injEq] at result
        obtain ⟨rfl, rfl⟩ := result
        have hlow₀ : r₀.start < 2 ^ 32 := hlow _ ((hheap.partition.cover _).mpr
          (Or.inr (mem_freePages.mpr ⟨r₀, List.mem_of_find?_eq_some hfind, r₀.start_mem⟩)))
        rw [kvaToPage_pageToKva hbase hlow₀] at start
        rw [← length] at hfind ⊢
        exact (hheap.kmalloc hs hfind start nonnull).2.2
  | @null a a' live byteCount h range hfits result ih =>
    obtain ⟨runs, hheap⟩ := ih
    refine ⟨runs, ?_⟩
    by_cases h0 : byteCount = 0
    · simp only [Mm.kmalloc, h0, if_true, Option.some.injEq, Prod.mk.injEq, true_and] at result
      exact result ▸ hheap
    · have halloc := alloc_eq hheap.partition (kmallocPages byteCount)
      rw [kmalloc_eq base hheap.partition h0] at result
      cases hfind : runs.find? (fits (kmallocPages byteCount)) with
      | none =>
        simp only [hfind, Option.some.injEq, Prod.mk.injEq, true_and] at result
        exact result ▸ hheap
      | some r₀ =>
        simp only [hfind, Option.map_some] at halloc
        simp only [hfind, Option.some.injEq, Prod.mk.injEq] at result
        exact absurd result.1 (hfits h0 _ _ halloc).2
  | kfree b h held result ih =>
    obtain ⟨runs, hheap⟩ := ih
    obtain ⟨a', runs', hfree, hheap', -⟩ := hheap.kfree hs hbase hlow held
    rw [result, Option.some.injEq] at hfree
    exact ⟨runs', hfree ▸ hheap'⟩

/-! ## The exact condition -/

theorem takeRun_next (a : FreeArea) (page n : ℕ) : (takeRun a page n).links.next (.page page) = .page page := by
  unfold takeRun
  simp [Links.unlink]

theorem Heap.safe_of_fits (h : Heap base regions a live runs) (hs : (freePages regions).length < 2 ^ 32)
    (hf : KmallocFits base a byteCount) : KmallocSafe base regions a live runs byteCount := by
  by_cases h0 : byteCount = 0
  · exact ⟨0, a, by rw [Mm.kmalloc, if_pos h0], Or.inl ⟨rfl, h.partition.conserved⟩⟩
  · have halloc := alloc_eq h.partition (kmallocPages byteCount)
    have hcall := kmalloc_eq base h.partition h0
    cases hfind : runs.find? (fits (kmallocPages byteCount)) with
    | none =>
      simp only [hfind] at hcall
      exact ⟨0, a, hcall, Or.inl ⟨rfl, h.partition.conserved⟩⟩
    | some r =>
      simp only [hfind, Option.map_some] at halloc hcall
      obtain ⟨hwrap, hnull⟩ := hf h0 _ _ halloc
      have hpages := kmallocPages_eq hwrap
      have hpos : 0 < kmallocPages byteCount := by
        rw [hpages]
        unfold pgSize
        omega
      obtain ⟨hfree, hdis, runs', hheap⟩ := h.kmalloc (b := ⟨r.start, kmallocPages byteCount, hpos⟩) hs hfind rfl hnull
      refine ⟨_, _, hcall, Or.inr ⟨hnull, ⟨r.start, kmallocPages byteCount, hpos⟩, rfl, ?_, hfree, hdis,
        runs', hheap.partition.conserved⟩⟩
      show byteCount ≤ kmallocPages byteCount * pgSize
      rw [hpages]
      unfold pgSize
      omega

theorem Heap.fits_of_safe (h : Heap base regions a live runs) (hs : (freePages regions).length < 2 ^ 32)
    (hsafe : KmallocSafe base regions a live runs byteCount) : KmallocFits base a byteCount := by
  intro h0 page a₁ halloc
  obtain ⟨ptr, a', hcall, hsafe⟩ := hsafe
  rw [alloc_eq h.partition] at halloc
  rw [kmalloc_eq base h.partition h0] at hcall
  cases hfind : runs.find? (fits (kmallocPages byteCount)) with
  | none => simp [hfind] at halloc
  | some r =>
    simp only [hfind, Option.map_some, Option.some.injEq, Prod.mk.injEq] at halloc hcall
    obtain ⟨rfl, -⟩ := halloc
    obtain ⟨rfl, rfl⟩ := hcall
    rcases hsafe with ⟨-, hc⟩ | ⟨hnull, r', -, hlen, hfree, -⟩
    · -- the run left the list, so the list is not what it was
      have hmem : r.node ∈ runs.map Run.node := List.mem_map_of_mem (List.mem_of_find?_eq_some hfind)
      exact absurd (takeRun_next a r.start _) (hc.onList.next_ne hmem)
    · have hsub : r'.pages.Subperm (freePages runs) :=
        List.subperm_of_subset List.nodup_range' fun i hi => mem_freePages.mpr (hfree i hi)
      have hle := hsub.length_le
      have hall := h.partition.length_le
      have hrange : r'.pages.length = r'.len := List.length_range'
      refine ⟨?_, hnull⟩
      unfold pgSize at hlen ⊢
      omega

/-- In every state reached by calls that meet `KmallocFits`: the heap is in order, `kmalloc` is safe
exactly for the byte counts that meet it, and `kfree` of a live allocation frees its pages. -/
theorem kmalloc_safe_iff (base : ℕ) (regions : List Run) (hbase : base < 2 ^ 64)
    (hd : regions.Pairwise fun r s => List.Disjoint r.pages s.pages) (hs : (regions.map Run.len).sum < 2 ^ 32)
    (hlow : ∀ r ∈ regions, ∀ i ∈ r.pages, i < 2 ^ 32) (a : FreeArea) (live : List Run)
    (h : HeapReach base regions a live) :
    ∃ runs, Conserved regions a (livePages live) runs ∧ (live.Pairwise fun r s => List.Disjoint r.pages s.pages) ∧
      (∀ n, ∃ result, alloc a n = some result) ∧
      (∀ byteCount < 2 ^ 64, KmallocSafe base regions a live runs byteCount ↔ KmallocFits base a byteCount) ∧
      ∀ b ∈ live, ∃ a' runs', kfree base a (pageToKva base b.start) = some a' ∧
        Conserved regions a' (livePages (live.erase b)) runs' ∧ ∀ i, IsFree runs' i ↔ IsFree runs i ∨ i ∈ b.pages := by
  have hnd := (freePages_nodup_iff regions).mpr hd
  have hlow' : ∀ i ∈ freePages regions, i < 2 ^ 32 := by
    intro i hi
    obtain ⟨r, hr, hir⟩ := mem_freePages.mp hi
    exact hlow r hr i hir
  rw [← freePages_length] at hs
  obtain ⟨runs, hheap⟩ := h.heap hnd hs hbase hlow'
  refine ⟨runs, hheap.partition.conserved, (freePages_nodup_iff live).mp hheap.nodup,
    fun n => ⟨_, alloc_eq hheap.partition n⟩,
    fun byteCount _ => ⟨hheap.fits_of_safe hs, hheap.safe_of_fits hs⟩, fun b hb => ?_⟩
  obtain ⟨a', runs', hfree, hheap', hiff⟩ := hheap.kfree hs hbase hlow' hb
  exact ⟨a', runs', hfree, hheap'.partition.conserved, hiff⟩

/-- `KERNEL_BASE` of x86-64. -/
def kernelBase : ℕ := 0xFFFFFFFF80000000

theorem sampleBoot_heap : HeapReach kernelBase sampleRegions sampleBoot [] := .init _ ⟨rfl, rfl, rfl⟩

theorem kmalloc_safe_iff_sample : ∃ runs, Conserved sampleRegions sampleBoot (livePages []) runs ∧
    (KmallocSafe kernelBase sampleRegions sampleBoot [] runs 5000 ↔ KmallocFits kernelBase sampleBoot 5000) := by
  obtain ⟨runs, hc, -, -, hiff, -⟩ := kmalloc_safe_iff kernelBase sampleRegions (by decide)
    ((freePages_nodup_iff sampleRegions).mp (by decide)) (by decide) (by decide) sampleBoot [] sampleBoot_heap
  exact ⟨runs, hc, hiff 5000 (by decide)⟩

/-- The largest byte count gets the first free run, which is then linked to itself. -/
theorem kmalloc_wraps : HeapReach kernelBase sampleRegions sampleBoot [] ∧
    ∃ a', kmalloc kernelBase sampleBoot (2 ^ 64 - 1) = some (pageToKva kernelBase 2, a') ∧
      a'.links.next .freeList = .page 2 ∧ a'.links.next (.page 2) = .page 2 ∧
      (∀ n, 4 ≤ n → n ≤ a'.freePageCount → alloc a' n = none) ∧
      ∀ runs, ¬KmallocSafe kernelBase sampleRegions sampleBoot [] runs (2 ^ 64 - 1) := by
  refine ⟨sampleBoot_heap, _, rfl, rfl, rfl, fun n h4 hn => ?_, fun runs hsafe => ?_⟩
  · have hn4 : n = 4 := by
      have hcount : n ≤ 4 := hn
      omega
    subst hn4
    rfl
  · obtain ⟨ptr, a', hcall, hsafe⟩ := hsafe
    have hcall' : kmalloc kernelBase sampleBoot (2 ^ 64 - 1) = some (pageToKva kernelBase 2, _) := rfl
    rw [hcall', Option.some.injEq, Prod.mk.injEq] at hcall
    obtain ⟨rfl, rfl⟩ := hcall
    rcases hsafe with ⟨hnull, -⟩ | ⟨-, r, -, hlen, -, -, runs', hc⟩
    · exact absurd hnull (by decide)
    · have hcover : ∀ i ∈ r.pages, i ∈ freePages sampleRegions := fun i hi =>
        mem_freePages.mpr ((hc.cover i).mpr (Or.inl (by rw [mem_livePages]; simp [hi])))
      have hle := (List.subperm_of_subset List.nodup_range' hcover).length_le
      have hrange : r.pages.length = r.len := List.length_range'
      have hfour : (freePages sampleRegions).length = 4 := by decide
      change r.pages.length ≤ _ at hle
      unfold pgSize at hlen
      omega

end Zonix.Mm
