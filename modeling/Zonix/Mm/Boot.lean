import Zonix.Mm.Kmalloc

/-! # Handing the boot memory map to the allocator

`page_init` of `kernel/mm/pmm.cpp`: the first pass over the boot memory map finds the highest
address and with it the number of descriptors, the second one gives every usable range to
`init_memmap`. -/

namespace Zonix.Mm

open Linked

structure BootMemEntry where
  basePa : ℕ
  sizeBytes : ℕ
  type : ℕ
  deriving Repr, DecidableEq

def bootMemAvailable : ℕ := 1

def roundUp (a n : ℕ) : ℕ := u64 (a + n - 1) / n * n
def roundDown (a n : ℕ) : ℕ := a - a % n

def virtToPhys (base va : ℕ) : ℕ := u64 (va + (2 ^ 64 - base))

/-- `base_pa + size_bytes`, saturated. -/
def BootMemEntry.limit (e : BootMemEntry) : ℕ :=
  if 2 ^ 64 ≤ e.basePa + e.sizeBytes then 2 ^ 64 - 1 else e.basePa + e.sizeBytes

def normalizeAvailableRange (e : BootMemEntry) (minPa : ℕ) : Option (ℕ × ℕ) :=
  if e.sizeBytes = 0 then none
  else
    let start := if e.basePa < minPa then minPa else e.basePa
    if e.limit ≤ start then none
    else
      let start := roundUp start pgSize
      let limit := roundDown e.limit pgSize
      if limit ≤ start then none else some (start, limit)

def raiseMaxPa (maxPa : ℕ) (e : BootMemEntry) : ℕ :=
  if e.type = bootMemAvailable then if maxPa < e.limit then e.limit else maxPa else maxPa

def maxPa (mmap : List BootMemEntry) : ℕ := mmap.foldl raiseMaxPa 0

def descriptorCount (mmap : List BootMemEntry) : ℕ := u32 (roundUp (maxPa mmap) pgSize / pgSize)

/-- `sizeof(Page)`. -/
def pageBytes : ℕ := 32

/-- The physical address right after the descriptor array, which starts on the page after
`KERNEL_END`. -/
def validMem (base kernelEnd count : ℕ) : ℕ :=
  virtToPhys base (u64 (roundUp kernelEnd pgSize + count * pageBytes))

def reserveAll (a : FreeArea) : ℕ → FreeArea
  | 0 => a
  | n + 1 => (reserveAll a n).modifyPage n Page.setReserved

def addRegion (minPa : ℕ) (a : FreeArea) (e : BootMemEntry) : FreeArea :=
  if e.type = bootMemAvailable then
    match normalizeAvailableRange e minPa with
    | none => a
    | some (start, limit) => initMemmap a (start / pgSize) ((limit - start) / pgSize)
  else a

/-- The number of descriptors and the allocator; `none` for the error return. -/
def pageInit (base kernelEnd : ℕ) (a : FreeArea) (mmap : List BootMemEntry) : Option (ℕ × FreeArea) :=
  if mmap.length = 0 then none
  else if maxPa mmap = 0 then none
  else
    let count := descriptorCount mmap
    if count = 0 then none
    else some (count, mmap.foldl (addRegion (validMem base kernelEnd count)) (reserveAll a count))

/-! ## The ranges handed over -/

theorem roundUp_aligned (a : ℕ) : roundUp a pgSize % pgSize = 0 := Nat.mul_mod_left _ _

theorem roundUp_bounds {a : ℕ} (h : a + pgSize ≤ 2 ^ 64) :
    a ≤ roundUp a pgSize ∧ roundUp a pgSize < a + pgSize := by
  unfold pgSize at h
  have hu : u64 (a + pgSize - 1) = a + 4095 := u64_eq (by unfold pgSize; omega)
  unfold roundUp
  rw [hu]
  unfold pgSize
  omega

variable {e : BootMemEntry} {mmap : List BootMemEntry}

theorem normalizeAvailableRange_aligned {minPa start limit : ℕ}
    (h : normalizeAvailableRange e minPa = some (start, limit)) :
    start % pgSize = 0 ∧ limit % pgSize = 0 ∧ start < limit := by
  unfold normalizeAvailableRange at h
  simp only [Option.ite_none_left_eq_some, Option.some.injEq, Prod.mk.injEq] at h
  obtain ⟨-, -, hlt, rfl, rfl⟩ := h
  refine ⟨roundUp_aligned _, ?_, by omega⟩
  unfold roundDown pgSize
  omega

def availableRun (minPa : ℕ) (e : BootMemEntry) : Option Run :=
  if e.type = bootMemAvailable then
    match normalizeAvailableRange e minPa with
    | none => none
    | some (start, limit) =>
      if h : 0 < (limit - start) / pgSize then some ⟨start / pgSize, (limit - start) / pgSize, h⟩ else none
  else none

theorem availableRun_eq_some {minPa : ℕ} {r : Run} :
    availableRun minPa e = some r ↔ e.type = bootMemAvailable ∧
      ∃ start limit, normalizeAvailableRange e minPa = some (start, limit) ∧
        r.start = start / pgSize ∧ r.len = (limit - start) / pgSize := by
  unfold availableRun
  by_cases ht : e.type = bootMemAvailable
  · cases hn : normalizeAvailableRange e minPa with
    | none => simp [ht]
    | some range =>
      obtain ⟨start, limit⟩ := range
      obtain ⟨hs, hl, hlt⟩ := normalizeAvailableRange_aligned hn
      have hpos : 0 < (limit - start) / pgSize := by
        unfold pgSize at hs hl ⊢
        omega
      obtain ⟨rs, rl, hr⟩ := r
      simp only [ht, hpos, if_true, dif_pos, Option.some.injEq, Run.mk.injEq, Prod.mk.injEq, true_and]
      constructor
      · rintro ⟨rfl, rfl⟩
        exact ⟨start, limit, ⟨rfl, rfl⟩, rfl, rfl⟩
      · rintro ⟨_, _, ⟨rfl, rfl⟩, rfl, rfl⟩
        exact ⟨rfl, rfl⟩
  · simp [ht]

def bootRegions (minPa : ℕ) (mmap : List BootMemEntry) : List Run := mmap.filterMap (availableRun minPa)

theorem addRegion_eq (minPa : ℕ) (a : FreeArea) (e : BootMemEntry) :
    addRegion minPa a e = initRegions a (availableRun minPa e).toList := by
  unfold addRegion availableRun
  split
  · cases hn : normalizeAvailableRange e minPa with
    | none => rfl
    | some range =>
      obtain ⟨hs, hl, hlt⟩ := normalizeAvailableRange_aligned hn
      have hpos : 0 < (range.2 - range.1) / pgSize := by
        unfold pgSize at hs hl ⊢
        omega
      simp only [dif_pos hpos]
      rfl
  · rfl

theorem initRegions_append (a : FreeArea) (l₁ l₂ : List Run) :
    initRegions a (l₁ ++ l₂) = initRegions (initRegions a l₁) l₂ := by
  induction l₁ generalizing a with
  | nil => rfl
  | cons r l₁ ih => exact ih _

theorem addRegions_eq (minPa : ℕ) (a : FreeArea) (mmap : List BootMemEntry) :
    mmap.foldl (addRegion minPa) a = initRegions a (bootRegions minPa mmap) := by
  induction mmap generalizing a with
  | nil => rfl
  | cons e mmap ih =>
    have hcons : bootRegions minPa (e :: mmap) = (availableRun minPa e).toList ++ bootRegions minPa mmap := by
      unfold bootRegions
      rw [List.filterMap_cons]
      cases availableRun minPa e <;> rfl
    rw [List.foldl_cons, ih, addRegion_eq, hcons, initRegions_append]

theorem pageInit_eq {base kernelEnd count : ℕ} {a a' : FreeArea}
    (h : pageInit base kernelEnd a mmap = some (count, a')) :
    count = descriptorCount mmap ∧ 0 < count ∧
      a' = initRegions (reserveAll a count) (bootRegions (validMem base kernelEnd count) mmap) := by
  unfold pageInit at h
  simp only [Option.ite_none_left_eq_some, Option.some.injEq, Prod.mk.injEq, addRegions_eq] at h
  obtain ⟨-, -, hpos, rfl, rfl⟩ := h
  exact ⟨rfl, Nat.pos_of_ne_zero hpos, rfl⟩

/-! ## Descriptors -/

theorem Page.setReserved_isReserved (p : Page) : p.setReserved.isReserved = true := by
  have hbit : (p.flags ||| PageFlag.reserved.mask) &&& PageFlag.reserved.mask = PageFlag.reserved.mask := by
    ext i hi
    simp only [BitVec.getElem_and, BitVec.getElem_or]
    cases p.flags[i] <;> cases PageFlag.reserved.mask[i] <;> rfl
  unfold Page.isReserved Page.setReserved
  rw [hbit]
  rfl

theorem reserveAll_isReserved (a : FreeArea) (n i : ℕ) (hi : i < n) : ((reserveAll a n).pages i).isReserved := by
  induction n with
  | zero => omega
  | succ n ih =>
    rw [reserveAll, modifyPage_pages]
    split
    · exact Page.setReserved_isReserved _
    · exact ih (by omega)

theorem reserveAll_blank (n : ℕ) (h : FreeArea.Blank a) : (reserveAll a n).Blank := by
  induction n with
  | zero => exact h
  | succ n ih => exact ⟨ih.next, ih.prev, ih.count⟩

theorem initMemmap_pages (a : FreeArea) (r : Run) (i : ℕ) (hi : i ∉ r.pages) :
    (initMemmap a r.start r.len).pages i = a.pages i := by
  rw [Run.mem_pages] at hi
  have hne : i ≠ r.start := by
    have := r.nonempty
    omega
  simp only [initMemmap, modifyPage_pages, if_neg hne]
  exact (constructPages_frame a r.start r.len).2.1 i (by omega)

theorem initRegions_pages (regions : List Run) (a : FreeArea) (i : ℕ) (hi : i ∉ freePages regions) :
    (initRegions a regions).pages i = a.pages i := by
  induction regions generalizing a with
  | nil => rfl
  | cons r regions ih =>
    rw [freePages_cons, List.mem_append, not_or] at hi
    rw [initRegions, ih _ hi.2, initMemmap_pages a r i hi.1]

/-! ## Usable pages -/

def BootMemEntry.Covers (e : BootMemEntry) (pa : ℕ) : Prop := e.basePa ≤ pa ∧ pa < e.basePa + e.sizeBytes

def BootMemEntry.Holds (e : BootMemEntry) (page : ℕ) : Prop :=
  e.basePa ≤ page * pgSize ∧ (page + 1) * pgSize ≤ e.basePa + e.sizeBytes

/-- A page an entry gives to the allocator. -/
def Usable (minPa : ℕ) (mmap : List BootMemEntry) (page : ℕ) : Prop :=
  ∃ e ∈ mmap, e.type = bootMemAvailable ∧ e.Holds page ∧ minPa ≤ page * pgSize

theorem normalizeAvailableRange_mem (minPa page : ℕ) (he : e.basePa + e.sizeBytes < 2 ^ 44) :
    (∃ start limit, normalizeAvailableRange e minPa = some (start, limit) ∧ start ≤ page * pgSize ∧
      (page + 1) * pgSize ≤ limit) ↔ e.Holds page ∧ minPa ≤ page * pgSize := by
  have hlimit : e.limit = e.basePa + e.sizeBytes := if_neg (by omega)
  unfold normalizeAvailableRange BootMemEntry.Holds
  rw [hlimit]
  simp only [Option.ite_none_left_eq_some, Option.some.injEq, Prod.mk.injEq]
  constructor
  · rintro ⟨_, _, ⟨hsize, hlt, hlt', rfl, rfl⟩, hstart, hend⟩
    have hmax : e.basePa ≤ (if e.basePa < minPa then minPa else e.basePa) ∧
        minPa ≤ (if e.basePa < minPa then minPa else e.basePa) := by
      split <;> omega
    generalize (if e.basePa < minPa then minPa else e.basePa) = start at *
    have hround := roundUp_bounds (a := start) (by unfold pgSize; omega)
    have hdown : roundDown (e.basePa + e.sizeBytes) pgSize ≤ e.basePa + e.sizeBytes := Nat.sub_le _ _
    omega
  · rintro ⟨⟨hbase, hend⟩, hmin⟩
    have hstart : (if e.basePa < minPa then minPa else e.basePa) ≤ page * pgSize := by
      split
      · exact hmin
      · exact hbase
    generalize (if e.basePa < minPa then minPa else e.basePa) = start at hstart ⊢
    have hround := roundUp_bounds (a := start) (by unfold pgSize at *; omega)
    have haligned := roundUp_aligned start
    refine ⟨_, _, ⟨?_, ?_, ?_, rfl, rfl⟩, ?_, ?_⟩ <;> unfold roundDown pgSize at * <;> omega

theorem mem_availableRun (minPa page : ℕ) (he : e.basePa + e.sizeBytes < 2 ^ 44) :
    (∃ r, availableRun minPa e = some r ∧ page ∈ r.pages) ↔
      e.type = bootMemAvailable ∧ e.Holds page ∧ minPa ≤ page * pgSize := by
  rw [← normalizeAvailableRange_mem minPa page he]
  constructor
  · rintro ⟨r, hr, hpage⟩
    obtain ⟨ht, start, limit, hn, hs, hl⟩ := availableRun_eq_some.mp hr
    obtain ⟨ha, hb, hlt⟩ := normalizeAvailableRange_aligned hn
    rw [Run.mem_pages, hs, hl] at hpage
    refine ⟨ht, start, limit, hn, ?_, ?_⟩ <;> unfold pgSize at * <;> omega
  · rintro ⟨ht, start, limit, hn, hs, hl⟩
    obtain ⟨ha, hb, hlt⟩ := normalizeAvailableRange_aligned hn
    have hpos : 0 < (limit - start) / pgSize := by
      unfold pgSize at *
      omega
    refine ⟨⟨start / pgSize, (limit - start) / pgSize, hpos⟩,
      availableRun_eq_some.mpr ⟨ht, start, limit, hn, rfl, rfl⟩, Run.mem_pages.mpr ?_⟩
    unfold pgSize at *
    refine ⟨?_, ?_⟩ <;> simp only <;> omega

theorem mem_bootRegions (minPa page : ℕ)
    (hend : ∀ e ∈ mmap, e.type = bootMemAvailable → e.basePa + e.sizeBytes < 2 ^ 44) :
    page ∈ freePages (bootRegions minPa mmap) ↔ Usable minPa mmap page := by
  unfold Usable bootRegions
  simp only [mem_freePages, List.mem_filterMap]
  constructor
  · rintro ⟨r, ⟨e, he, hr⟩, hpage⟩
    have ht := (availableRun_eq_some.mp hr).1
    exact ⟨e, he, (mem_availableRun minPa page (hend e he ht)).mp ⟨r, hr, hpage⟩⟩
  · rintro ⟨e, he, ht, hholds⟩
    obtain ⟨r, hr, hpage⟩ := (mem_availableRun minPa page (hend e he ht)).mpr ⟨ht, hholds⟩
    exact ⟨r, ⟨e, he, hr⟩, hpage⟩

theorem bootRegions_disjoint (minPa : ℕ)
    (hdisjoint : mmap.Pairwise fun e f => e.type = bootMemAvailable → f.type = bootMemAvailable →
      ∀ pa, e.Covers pa → ¬f.Covers pa)
    (hend : ∀ e ∈ mmap, e.type = bootMemAvailable → e.basePa + e.sizeBytes < 2 ^ 44) :
    (bootRegions minPa mmap).Pairwise fun r s => List.Disjoint r.pages s.pages := by
  unfold bootRegions
  rw [List.pairwise_filterMap]
  refine hdisjoint.imp_of_mem fun {e f} he hf h r hr s hs page hpr hps => ?_
  have hte := (availableRun_eq_some.mp hr).1
  have htf := (availableRun_eq_some.mp hs).1
  obtain ⟨-, hholds, -⟩ := (mem_availableRun minPa page (hend e he hte)).mp ⟨r, hr, hpr⟩
  obtain ⟨-, hholds', -⟩ := (mem_availableRun minPa page (hend f hf htf)).mp ⟨s, hs, hps⟩
  unfold BootMemEntry.Holds pgSize at hholds hholds'
  exact h hte htf (page * 4096) ⟨hholds.1, by omega⟩ ⟨hholds'.1, by omega⟩

/-! ## The number of descriptors -/

theorem le_foldl_raiseMaxPa (mmap : List BootMemEntry) (top : ℕ) : top ≤ mmap.foldl raiseMaxPa top := by
  induction mmap generalizing top with
  | nil => exact Nat.le_refl _
  | cons e mmap ih =>
    refine Nat.le_trans ?_ (ih _)
    unfold raiseMaxPa
    split <;> [split; skip] <;> omega

theorem limit_le_foldl_raiseMaxPa (he : e ∈ mmap)
    (ht : e.type = bootMemAvailable) (top : ℕ) : e.limit ≤ mmap.foldl raiseMaxPa top := by
  induction mmap generalizing top with
  | nil => simp at he
  | cons f mmap ih =>
    rcases List.mem_cons.mp he with rfl | he
    · refine Nat.le_trans ?_ (le_foldl_raiseMaxPa mmap _)
      unfold raiseMaxPa
      rw [if_pos ht]
      split <;> omega
    · exact ih he _

theorem foldl_raiseMaxPa_lt {bound top : ℕ} (htop : top < bound)
    (h : ∀ e ∈ mmap, e.type = bootMemAvailable → e.limit < bound) : mmap.foldl raiseMaxPa top < bound := by
  induction mmap generalizing top with
  | nil => exact htop
  | cons e mmap ih =>
    refine ih ?_ fun f hf => h f (List.mem_cons_of_mem _ hf)
    unfold raiseMaxPa
    split
    · split
      · exact h e List.mem_cons_self ‹_›
      · exact htop
    · exact htop

theorem usable_lt_descriptorCount {minPa page : ℕ}
    (hend : ∀ e ∈ mmap, e.type = bootMemAvailable → e.basePa + e.sizeBytes < 2 ^ 44)
    (hpos : 0 < descriptorCount mmap) (h : Usable minPa mmap page) : page < descriptorCount mmap := by
  have hlimit : ∀ e ∈ mmap, e.type = bootMemAvailable → e.limit = e.basePa + e.sizeBytes := fun e he ht =>
    if_neg (by have := hend e he ht; omega)
  have htop : maxPa mmap < 2 ^ 44 := foldl_raiseMaxPa_lt (by decide) fun e he ht => by
    rw [hlimit e he ht]
    exact hend e he ht
  obtain ⟨e, he, ht, hholds, -⟩ := h
  have hle : e.limit ≤ maxPa mmap := limit_le_foldl_raiseMaxPa he ht 0
  rw [hlimit e he ht] at hle
  have hround := roundUp_bounds (a := maxPa mmap) (by unfold pgSize; omega)
  have haligned := roundUp_aligned (maxPa mmap)
  -- a highest address in the last page below 2^44 would give 0 descriptors
  unfold descriptorCount u32 at hpos ⊢
  unfold BootMemEntry.Holds at hholds
  unfold pgSize at *
  omega

/-- What `page_init` hands over. -/
theorem page_init_hands_over (base kernelEnd : ℕ) (mmap : List BootMemEntry)
    (hdisjoint : mmap.Pairwise fun e f => e.type = bootMemAvailable → f.type = bootMemAvailable →
      ∀ pa, e.Covers pa → ¬f.Covers pa)
    (hend : ∀ e ∈ mmap, e.type = bootMemAvailable → e.basePa + e.sizeBytes < 2 ^ 44)
    (a : FreeArea) (hblank : a.Blank) (count : ℕ) (a' : FreeArea)
    (h : pageInit base kernelEnd a mmap = some (count, a')) :
    ∃ runs, Conserved runs a' ∅ runs ∧ (freePages runs).Nodup ∧
      (∀ page, page ∈ freePages runs ↔ Usable (validMem base kernelEnd count) mmap page) ∧
      (∀ page ∈ freePages runs, page < count) ∧
      ∀ page < count, page ∉ freePages runs → (a'.pages page).isReserved = true := by
  obtain ⟨hcount, hpos, rfl⟩ := pageInit_eq h
  have hmem := fun page => mem_bootRegions (validMem base kernelEnd count) page hend
  have hlt : ∀ page ∈ freePages (bootRegions (validMem base kernelEnd count) mmap), page < count := by
    intro page hpage
    rw [hcount] at hpos ⊢
    exact usable_lt_descriptorCount hend hpos ((hmem page).mp hpage)
  have hnd := (freePages_nodup_iff _).mpr (bootRegions_disjoint (validMem base kernelEnd count) hdisjoint hend)
  have htotal : (freePages (bootRegions (validMem base kernelEnd count) mmap)).length < 2 ^ 32 := by
    have hsub := hnd.subperm fun page hpage => List.mem_range.mpr (hlt page hpage)
    have hle := hsub.length_le
    have hcount32 : count < 2 ^ 32 := hcount ▸ u32_lt _
    rw [List.length_range] at hle
    omega
  have hheap := Heap.init base _ hnd htotal (reserveAll_blank count hblank)
  refine ⟨_, ?_, hnd, hmem, hlt, fun page hpage hfree => ?_⟩
  · have hconserved := hheap.partition.conserved
    simpa [livePages] using hconserved
  · rw [initRegions_pages _ _ page hfree]
    exact reserveAll_isReserved a count page hpage

/-- The free area after static initialisation. -/
def sampleBlank : FreeArea := ⟨⟨id, id⟩, fun _ => Page.zero, 0⟩

/-- An unaligned range that starts below the end of the descriptor array, and a reserved one. -/
def sampleMap : List BootMemEntry := [⟨0x1800, 0x4100, bootMemAvailable⟩, ⟨0, 0x9000, 2⟩]

theorem page_init_hands_over_sample :
    ∃ a' runs, pageInit kernelBase (kernelBase + 0x500) sampleBlank sampleMap = some (6, a') ∧
      Conserved runs a' ∅ runs ∧
      ∀ page, page ∈ freePages runs ↔ Usable (validMem kernelBase (kernelBase + 0x500) 6) sampleMap page := by
  have hinit : pageInit kernelBase (kernelBase + 0x500) sampleBlank sampleMap = some (6, _) := rfl
  have hdisjoint : sampleMap.Pairwise fun e f => e.type = bootMemAvailable → f.type = bootMemAvailable →
      ∀ pa, e.Covers pa → ¬f.Covers pa := by
    simp [sampleMap, bootMemAvailable]
  obtain ⟨runs, hc, -, hmem, -, -⟩ := page_init_hands_over kernelBase (kernelBase + 0x500) sampleMap hdisjoint
    (by decide) sampleBlank ⟨rfl, rfl, rfl⟩ 6 _ hinit
  exact ⟨_, runs, hinit, hc, hmem⟩

/-! ## The direct map of x86-64 -/

def kernelMemSize : ℕ := 0x38000000
def kernelDevioBase : ℕ := kernelBase + 0x40000000

/-- `pmm::init`. -/
def pmmInit (kernelEnd : ℕ) (a : FreeArea) (mmap : List BootMemEntry) : Option (ℕ × FreeArea) :=
  match pageInit kernelBase kernelEnd a mmap with
  | none => none
  | some (count, a) => if a.freePageCount = 0 then none else some (count, a)

/-- The virtual and physical addresses of the pages that `vmm::map_physical_range` enters. -/
def mapPhysicalRange (va byteCount pa : ℕ) : List (ℕ × ℕ) :=
  (List.range (roundUp byteCount pgSize / pgSize)).map fun i =>
    (u64 (roundDown va pgSize + i * pgSize), u64 (roundDown pa pgSize + i * pgSize))

/-- What `vmm::init` maps. -/
def directMap : List (ℕ × ℕ) := mapPhysicalRange kernelBase kernelMemSize 0

/-- The kernel address of the page is the one the direct map has for it. -/
structure DirectMapped (page : ℕ) : Prop where
  inside : kernelBase ≤ pageToKva kernelBase page ∧ pageToKva kernelBase page < kernelBase + kernelMemSize
  mapped : (pageToKva kernelBase page, page * pgSize) ∈ directMap
  noWrap : pageToKva kernelBase page = kernelBase + page * pgSize
  belowDevio : pageToKva kernelBase page < kernelDevioBase

theorem mem_directMap {page : ℕ} (h : page * pgSize < kernelMemSize) :
    (kernelBase + page * pgSize, page * pgSize) ∈ directMap := by
  refine List.mem_map.mpr ⟨page, List.mem_range.mpr ?_, ?_⟩
  · have hcount : roundUp kernelMemSize pgSize / pgSize = 0x38000 := by decide
    rw [hcount]
    unfold pgSize kernelMemSize at h
    omega
  · have hva : roundDown kernelBase pgSize = kernelBase := by decide
    have hpa : roundDown 0 pgSize = 0 := by decide
    unfold kernelMemSize at h
    rw [hva, hpa, Nat.zero_add, u64_eq, u64_eq]
    · omega
    · unfold kernelBase
      omega

theorem directMapped_iff {page : ℕ} (hpage : page * pgSize < 2 ^ 64) :
    DirectMapped page ↔ (page + 1) * pgSize ≤ kernelMemSize := by
  constructor
  · intro h
    have hinside := h.inside
    rw [h.noWrap] at hinside
    unfold pgSize kernelMemSize at *
    omega
  · intro h
    have hlt : page * pgSize < kernelMemSize := by
      unfold pgSize at *
      omega
    have hkva : pageToKva kernelBase page = kernelBase + page * pgSize := by
      refine u64_eq ?_
      unfold kernelBase kernelMemSize at *
      omega
    refine ⟨?_, ?_, hkva, ?_⟩
    · rw [hkva]
      omega
    · rw [hkva]
      exact mem_directMap hlt
    · rw [hkva]
      unfold kernelDevioBase kernelMemSize at *
      omega

theorem pmmInit_eq {kernelEnd count : ℕ} {a a' : FreeArea}
    (h : pmmInit kernelEnd a mmap = some (count, a')) : pageInit kernelBase kernelEnd a mmap = some (count, a') := by
  unfold pmmInit at h
  split at h
  · simp at h
  · simp only [Option.ite_none_left_eq_some] at h
    rw [← h.2]
    assumption

/-- The pages given to `init_memmap` are in the direct map exactly when no usable range ends above it. -/
theorem boot_pages_mapped_iff (kernelEnd : ℕ) (mmap : List BootMemEntry) (a : FreeArea) (count : ℕ) (a' : FreeArea)
    (h : pmmInit kernelEnd a mmap = some (count, a')) :
    a' = initRegions (reserveAll a count) (bootRegions (validMem kernelBase kernelEnd count) mmap) ∧
    ((∀ page ∈ freePages (bootRegions (validMem kernelBase kernelEnd count) mmap), DirectMapped page) ↔
      ∀ e ∈ mmap, e.type = bootMemAvailable → ∀ start limit,
        normalizeAvailableRange e (validMem kernelBase kernelEnd count) = some (start, limit) →
          limit ≤ kernelMemSize) := by
  refine ⟨(pageInit_eq (pmmInit_eq h)).2.2, ?_⟩
  constructor
  · -- the last page of the range is in the direct map
    intro hall e he ht start limit hn
    obtain ⟨hs, hl, hlt⟩ := normalizeAvailableRange_aligned hn
    have hpos : 0 < (limit - start) / pgSize := by
      unfold pgSize at *
      omega
    have hrun : availableRun (validMem kernelBase kernelEnd count) e =
        some ⟨start / pgSize, (limit - start) / pgSize, hpos⟩ :=
      availableRun_eq_some.mpr ⟨ht, start, limit, hn, rfl, rfl⟩
    have hlast : limit / pgSize - 1 ∈ freePages (bootRegions (validMem kernelBase kernelEnd count) mmap) := by
      refine mem_freePages.mpr ⟨_, List.mem_filterMap.mpr ⟨e, he, hrun⟩, Run.mem_pages.mpr ?_⟩
      unfold pgSize at *
      simp only
      omega
    have hmapped := hall _ hlast
    have hinside := hmapped.inside
    rw [hmapped.noWrap] at hinside
    unfold pgSize kernelMemSize at *
    omega
  · intro hall page hpage
    obtain ⟨r, hr, hpr⟩ := mem_freePages.mp hpage
    obtain ⟨e, he, hrun⟩ := List.mem_filterMap.mp hr
    obtain ⟨ht, start, limit, hn, hs, hl⟩ := availableRun_eq_some.mp hrun
    obtain ⟨hsa, hla, hlt⟩ := normalizeAvailableRange_aligned hn
    have hle := hall e he ht start limit hn
    rw [Run.mem_pages, hs, hl] at hpr
    have hend : (page + 1) * pgSize ≤ kernelMemSize := by
      unfold pgSize kernelMemSize at *
      omega
    refine (directMapped_iff ?_).mpr hend
    unfold pgSize kernelMemSize at *
    omega

theorem boot_pages_mapped_iff_sample : ∃ count a', pmmInit (kernelBase + 0x500) sampleBlank sampleMap = some (count, a') ∧
    ∀ page ∈ freePages (bootRegions (validMem kernelBase (kernelBase + 0x500) count) sampleMap), DirectMapped page := by
  have hinit : pmmInit (kernelBase + 0x500) sampleBlank sampleMap = some (6, _) := rfl
  refine ⟨_, _, hinit, (boot_pages_mapped_iff _ _ _ _ _ hinit).2.mpr fun e he ht start limit hn => ?_⟩
  rcases List.mem_pair.mp he with rfl | rfl
  · have hrange : normalizeAvailableRange ⟨0x1800, 0x4100, bootMemAvailable⟩
        (validMem kernelBase (kernelBase + 0x500) 6) = some (0x2000, 0x5000) := by decide
    rw [hrange, Option.some.injEq, Prod.mk.injEq] at hn
    rw [← hn.2]
    decide
  · exact absurd ht (by decide)

/-- One page of memory right above the direct map. -/
def highMap : List BootMemEntry := [⟨0x38000000, 0x1000, bootMemAvailable⟩]

theorem boot_page_unmapped : ∃ count a', pmmInit (kernelBase + 0x200000) sampleBlank highMap = some (count, a') ∧
    Conserved [⟨0x38000, 1, Nat.one_pos⟩] a' ∅ [⟨0x38000, 1, Nat.one_pos⟩] ∧ ¬DirectMapped 0x38000 := by
  have hregions : bootRegions (validMem kernelBase (kernelBase + 0x200000) 0x38001) highMap =
      [⟨0x38000, 1, Nat.one_pos⟩] := by decide
  have hcount : descriptorCount highMap = 0x38001 := by decide
  have hinit : pageInit kernelBase (kernelBase + 0x200000) sampleBlank highMap =
      some (0x38001, initRegions (reserveAll sampleBlank 0x38001) [⟨0x38000, 1, Nat.one_pos⟩]) := by
    unfold pageInit
    rw [if_neg (by decide), if_neg (by decide)]
    simp only [hcount, addRegions_eq, hregions]
    rfl
  have hheap := Heap.init (a := reserveAll sampleBlank 0x38001) kernelBase
    [⟨0x38000, 1, Nat.one_pos⟩] (by decide) (by decide) (reserveAll_blank _ ⟨rfl, rfl, rfl⟩)
  have hone := hheap.partition.count
  refine ⟨0x38001, _, ?_, by simpa [livePages] using hheap.partition.conserved, fun h => ?_⟩
  · unfold pmmInit
    rw [hinit]
    refine if_neg ?_
    rw [hone]
    decide
  · exact absurd ((directMapped_iff (by decide)).mp h) (by decide)

end Zonix.Mm
