import Mathlib
import Zonix.Vm.MmioMap

/-!
# The device window

The list of mappings and the page table of the kernel together, over any run of `map_mmio`, `mmio_map` and releases.
-/

namespace Zonix.Vm

open Zonix.Lib
open Zonix.Lib.Radix

variable {a : Arch} {pgdir hi : ℕ} {off V : (ℕ → Fin 512) → Prop} {m m' : Pmm}

/-! ## First fit -/

def Ordered : ℕ → List MmioMapping → Prop
  | _, [] => True
  | lo, x :: rest => lo ≤ x.va ∧ 0 < x.span ∧ pgSize ∣ x.va ∧ pgSize ∣ x.span ∧ x.va + x.span < 2 ^ 64 ∧
      Ordered (x.va + x.span) rest

/-- The addresses of a mapping. -/
def MmioMapping.Covers (x : MmioMapping) (va : ℕ) : Prop := x.va ≤ va ∧ va < x.va + x.span

variable {x : MmioMapping} {l : List MmioMapping} {lo r byteCount : ℕ}

theorem Ordered.lo_le (h : Ordered lo l) (hx : x ∈ l) : lo ≤ x.va := by
  induction l generalizing lo with
  | nil => cases hx
  | cons y rest ih =>
    obtain ⟨hlo, hpos, -, -, -, hrest⟩ := h
    cases hx with
    | head => exact hlo
    | tail _ hx =>
      have := ih hrest hx
      omega

theorem Ordered.aligned (h : Ordered lo l) (hx : x ∈ l) :
    0 < x.span ∧ pgSize ∣ x.va ∧ pgSize ∣ x.span ∧ x.va + x.span < 2 ^ 64 := by
  induction l generalizing lo with
  | nil => cases hx
  | cons y rest ih =>
    obtain ⟨-, hpos, hva, hspan, hlt, hrest⟩ := h
    cases hx with
    | head => exact ⟨hpos, hva, hspan, hlt⟩
    | tail _ hx => exact ih hrest hx

theorem Ordered.mono {lo' : ℕ} (h : Ordered lo l) (hlo : lo' ≤ lo) : Ordered lo' l := by
  cases l with
  | nil => trivial
  | cons x rest => exact ⟨hlo.trans h.1, h.2⟩

theorem Ordered.erase (h : Ordered lo l) (x : MmioMapping) : Ordered lo (l.erase x) := by
  induction l generalizing lo with
  | nil => trivial
  | cons y rest ih =>
    obtain ⟨hlo, hpos, hva, hspan, hlt, hrest⟩ := h
    rw [List.erase_cons]
    split
    · exact hrest.mono (by omega)
    · exact ⟨hlo, hpos, hva, hspan, hlt, ih hrest⟩

theorem firstFit_spec (span : ℕ) (h : Ordered lo l) (hlo : pgSize ∣ lo) (hlo' : lo < 2 ^ 64) :
    lo ≤ (firstFit span lo l).1 ∧ pgSize ∣ (firstFit span lo l).1 ∧
      ((firstFit span lo l).1 = lo ∨ ∃ x ∈ l, (firstFit span lo l).1 = x.va + x.span) ∧
      (∀ x ∈ l, x.va + x.span ≤ (firstFit span lo l).1 ∨ (firstFit span lo l).1 + span ≤ x.va) ∧
      ∀ r : MmioMapping, r.va = (firstFit span lo l).1 → r.span = span → 0 < span → pgSize ∣ span →
        (firstFit span lo l).1 + span < 2 ^ 64 →
        Ordered lo (l.insertIdx (firstFit span lo l).2 r) ∧
          (l.insertIdx (firstFit span lo l).2 r).Perm (r :: l) ∧
          (r ∉ l → (l.insertIdx (firstFit span lo l).2 r).erase r = l) := by
  induction l generalizing lo with
  | nil =>
    refine ⟨Nat.le_refl lo, hlo, Or.inl rfl, fun x hx => absurd hx List.not_mem_nil, fun r hva hspan hpos hdvd hlt => ?_⟩
    simp only [firstFit] at hva hlt ⊢
    rw [List.insertIdx_zero]
    exact ⟨⟨by omega, by omega, by rw [hva]; exact hlo, by rw [hspan]; exact hdvd, by omega, trivial⟩, .refl _,
      fun _ => List.erase_cons_head r []⟩
  | cons x rest ih =>
    obtain ⟨hx, hpos, hdva, hdspan, hlt, hrest⟩ := h
    have hdiff : u64 (x.va + (2 ^ 64 - lo)) = x.va - lo := by
      unfold u64
      omega
    rw [firstFit, hdiff]
    by_cases hfit : span ≤ x.va - lo
    · rw [if_pos hfit]
      refine ⟨Nat.le_refl lo, hlo, Or.inl rfl, ?_, fun r hva hspan hpos' hdvd hlt' => ?_⟩
      · intro y hy
        right
        show lo + span ≤ y.va
        cases hy with
        | head => omega
        | tail _ hy =>
          have := hrest.lo_le hy
          omega
      · simp only at hva hlt' ⊢
        rw [List.insertIdx_zero]
        exact ⟨⟨by omega, by omega, by rw [hva]; exact hlo, by rw [hspan]; exact hdvd, by omega, by omega, hpos, hdva,
          hdspan, hlt, hrest⟩, .refl _, fun _ => List.erase_cons_head r _⟩
    · rw [if_neg hfit]
      have hend : u64 (x.va + x.span) = x.va + x.span := u64_eq hlt
      rw [hend]
      obtain ⟨h1, h2, h3, h4, h5⟩ := ih hrest (Nat.dvd_add hdva hdspan) hlt
      refine ⟨by show lo ≤ (firstFit span (x.va + x.span) rest).1; omega, h2, Or.inr ?_, ?_, ?_⟩
      · obtain h3 | ⟨y, hy, h3⟩ := h3
        · exact ⟨x, List.mem_cons_self, h3⟩
        · exact ⟨y, List.mem_cons_of_mem x hy, h3⟩
      · intro y hy
        cases hy with
        | head => exact Or.inl h1
        | tail _ hy => exact h4 y hy
      · intro r hva hspan hpos' hdvd hlt'
        obtain ⟨ho, hperm, herase⟩ := h5 r hva hspan hpos' hdvd hlt'
        simp only [List.insertIdx_succ_cons]
        refine ⟨⟨hx, hpos, hdva, hdspan, hlt, ho⟩, (hperm.cons x).trans (List.Perm.swap r x rest), fun hr => ?_⟩
        rw [List.mem_cons, not_or] at hr
        rw [List.erase_cons_tail (by simpa using Ne.symm hr.1), herase hr.2]

/-! ## The records -/

theorem Kernel.of_mem (hK : Kernel a V pgdir off m) (hmem : m'.mem = m.mem) (hcount : m'.pageCount = m.pageCount)
    (hheld : ∀ g ∈ kernelTables a pgdir m, g ∉ m'.free) (hnd : m'.free.Nodup)
    (hun : ∀ t ∈ m'.free, t < m.pageCount ∧ m'.refCount t = 0)
    (hdyn : ∀ g ∈ kernelTables a pgdir m, Dynamic m g → Dynamic m' g) : Kernel a V pgdir off m' where
  tree := ⟨by rw [hmem]; exact hK.tree.nodup, by rw [hmem]; exact hK.tree.inner, by rw [hmem]; exact hheld⟩
  pool := ⟨hnd, fun t ht => lt_of_lt_of_le (hun t ht).1 hK.count⟩
  unused := by
    rw [hcount]
    exact hun
  count := by
    rw [hcount]
    exact hK.count
  tight := by
    rw [hmem]
    exact hK.tight
  clear p hp := (hK.clear p hp).congr (fun _ _ => by rw [hmem]) hdyn
  plain p hp e he := by
    rw [kernelEntry, hmem] at he
    exact hK.plain p hp e he

structure Record (a : Arch) (pgdir : ℕ) (m : Pmm) (r : ℕ) : Prop where
  free : r ∉ m.free
  table : r ∉ kernelTables a pgdir m
  refCount : m.refCount r = 0
  blockPages : m.blockPages r = 1
  bound : r < m.pageCount

theorem Record.changes {S : ℕ → Prop} (h : Record a pgdir m r) (hch : Changes a V pgdir S m m') :
    Record a pgdir m' r := by
  have hout : r ∉ m'.free + kernelTables a pgdir m' := by
    rw [hch.pages, Multiset.mem_add, not_or]
    exact ⟨h.free, h.table⟩
  rw [Multiset.mem_add, not_or] at hout
  refine ⟨hout.1, hout.2, ?_, ?_, ?_⟩
  · rw [(hch.outside r h.free h.table).1]
    exact h.refCount
  · rw [hch.blockPages]
    exact h.blockPages
  · rw [hch.pageCount]
    exact h.bound

def Pmm.withRecord (m : Pmm) (r : ℕ) : Pmm :=
  { m.taken r with blockPages := fun f => if f = r then 1 else m.blockPages f }

theorem kmalloc_record (E : Env) (m : Pmm) :
    kmalloc E mmioMappingSize m = (none, { m with clock := m.clock + 1 }) ∨
      ∃ r ∈ m.free, kmalloc E mmioMappingSize m = (some r, m.withRecord r) := by
  have hne : mmioMappingSize ≠ 0 := by decide
  have hone : (mmioMappingSize + pgSize - 1) / pgSize = 1 := by decide
  obtain hno | ⟨r, hr, hget⟩ := allocPages_one_cases E m
  · left
    simp only [kmalloc, hne, hone, if_false, hno]
  · right
    refine ⟨r, hr, ?_⟩
    simp only [kmalloc, hne, hone, if_false, hget]
    rfl

theorem Kernel.withRecord (hK : Kernel a V pgdir off m) (hr : r ∈ m.free) :
    Kernel a V pgdir off (m.withRecord r) ∧ Record a pgdir (m.withRecord r) r := by
  have hmem : ∀ t ∈ (m.withRecord r).free, t ∈ m.free := fun t ht => Multiset.mem_of_mem_erase ht
  refine ⟨hK.of_mem rfl rfl ?_ (hK.pool.nodup.erase r) ?_ ?_, ?_, ?_, ?_, if_pos rfl, (hK.unused r hr).1⟩
  · intro g hg hf
    exact hK.tree.held g hg (hmem g hf)
  · intro t ht
    exact hK.unused t (hmem t ht)
  · intro g _ hd
    refine ⟨hd.bound, hd.pageTable, ?_, hd.refCount⟩
    show (if g = r then false else m.reserved g) = false
    rw [hd.reserved, ite_self]
  · exact hK.pool.nodup.notMem_erase
  · intro ht
    exact hK.tree.held r ht hr
  · exact (hK.unused r hr).2

theorem Record.withRecord {r' : ℕ} (h : Record a pgdir m r') (hr : r ∈ m.free) : Record a pgdir (m.withRecord r) r' := by
  have hne : r' ≠ r := fun he => h.free (he ▸ hr)
  exact ⟨fun hf => h.free (Multiset.mem_of_mem_erase hf), h.table, h.refCount, (if_neg hne).trans h.blockPages, h.bound⟩

theorem Kernel.kfree (hK : Kernel a V pgdir off m) (h : Record a pgdir m r) :
    Kernel a V pgdir off (kfree r m) ∧ (kfree r m).free = {r} + m.free ∧ (kfree r m).panicked = m.panicked ∧
      ∀ r', r' ≠ r → Record a pgdir m r' → Record a pgdir (kfree r m) r' := by
  have heq : Vm.kfree r m = freePages r 1 m := by
    rw [Vm.kfree, h.blockPages]
    rfl
  have hin : ∀ k, (r ≤ k ∧ k < r + 1) ↔ k = r := fun k => by omega
  have hfree : (freePages r 1 m).free = {r} + m.free := rfl
  have hcount : ∀ k, (freePages r 1 m).refCount k = if k = r then 0 else m.refCount k := by
    intro k
    simp only [freePages, hin]
  rw [heq]
  refine ⟨hK.of_mem rfl rfl ?_ ?_ ?_ ?_, hfree, ?_, ?_⟩
  · intro g hg hf
    rw [hfree, Multiset.mem_add, Multiset.mem_singleton] at hf
    obtain rfl | hf := hf
    · exact h.table hg
    · exact hK.tree.held g hg hf
  · rw [hfree, Multiset.singleton_add, Multiset.nodup_cons]
    exact ⟨h.free, hK.pool.nodup⟩
  · intro t ht
    rw [hfree, Multiset.mem_add, Multiset.mem_singleton] at ht
    rw [hcount]
    obtain rfl | ht := ht
    · exact ⟨h.bound, if_pos rfl⟩
    · have hne : t ≠ r := fun he => h.free (he ▸ ht)
      rw [if_neg hne]
      exact hK.unused t ht
  · intro g hg hd
    have hne : g ≠ r := fun he => h.table (he ▸ hg)
    refine ⟨hd.bound, ?_, ?_, ?_⟩
    · simp only [freePages, hin, if_neg hne]
      exact hd.pageTable
    · simp only [freePages, hin, if_neg hne]
      exact hd.reserved
    · rw [hcount, if_neg hne]
      exact hd.refCount
  · simp [freePages, h.refCount]
  · intro r' hne h'
    refine ⟨?_, h'.table, ?_, h'.blockPages, h'.bound⟩
    · rw [hfree, Multiset.mem_add, Multiset.mem_singleton, not_or]
      exact ⟨hne, h'.free⟩
    · rw [hcount, if_neg hne]
      exact h'.refCount

/-! ## The invariant -/

variable {s s' : Mmio}

/-- The paths of the window from `KERNEL_DEVIO_BASE` up to `hi`. -/
def DevWindow (a : Arch) (hi : ℕ) (p : ℕ → Fin 512) : Prop := ∃ va, a.kernelDevioBase ≤ va ∧ va < hi ∧ p = levelIndex va

/-- The state of `MmioAllocator` whose mappings end at or below `hi`. -/
structure MmioInv (a : Arch) (hi pgdir : ℕ) (s : Mmio) : Prop where
  root : s.kernelPgdir = some pgdir
  kernel : Kernel a (DevWindow a hi) pgdir (fun _ => False) s.pmm
  ordered : Ordered a.kernelDevioBase s.mappings
  below : ∀ x ∈ s.mappings, x.va + x.span ≤ hi
  fresh : ∀ va, a.kernelDevioBase ≤ va → va < hi → (∀ x ∈ s.mappings, ¬x.Covers va) →
    kernelEntry a pgdir s.pmm (levelIndex va) = none
  nodup : (s.mappings.map MmioMapping.record).Nodup
  records : ∀ x ∈ s.mappings, Record a pgdir s.pmm x.record

theorem MmioInv.replace (hI : MmioInv a hi pgdir s) (hK : Kernel a (DevWindow a hi) pgdir (fun _ => False) m')
    (hentry : ∀ p, kernelEntry a pgdir m' p = kernelEntry a pgdir s.pmm p)
    (hrec : ∀ x ∈ s.mappings, Record a pgdir m' x.record) : MmioInv a hi pgdir { s with pmm := m' } :=
  { hI with kernel := hK, fresh := fun va h1 h2 h3 => (hentry _).trans (hI.fresh va h1 h2 h3), records := hrec }

variable {va pa : ℕ} {n : Pmm} {perm : VmFlags}

theorem mem_pages (h : Ordered lo l) (hx : x ∈ l) :
    x.Covers va ↔ InRange x.va (x.span / pgSize) (va / pgSize * pgSize) := by
  obtain ⟨-, ⟨i, hi⟩, ⟨n, hn⟩, -⟩ := h.aligned hx
  have hp : 0 < pgSize := by decide
  rw [hn, Nat.mul_div_cancel_left _ hp, MmioMapping.Covers, hi, hn]
  constructor
  · intro ⟨h1, h2⟩
    refine ⟨va / pgSize - i, ?_, ?_⟩
    · unfold pgSize at h1 h2 ⊢
      omega
    · unfold pgSize at h1 h2 ⊢
      omega
  · rintro ⟨j, hj, heq⟩
    unfold pgSize at heq ⊢
    omega

theorem InRange.bounds {span x : ℕ} (h : InRange va (span / pgSize) x) : va ≤ x ∧ x < va + span := by
  obtain ⟨j, hj, rfl⟩ := h
  unfold pgSize at hj ⊢
  omega

theorem levelIndex_eq_page (va : ℕ) : levelIndex va = levelIndex (va / pgSize * pgSize) :=
  funext fun k => levelIndex_page va k

structure Confined (a : Arch) (hi pgdir : ℕ) (m m' : Pmm) : Prop where
  entry : ∀ p, (∀ va, a.kernelDevioBase ≤ va → va < hi → ¬∀ k ≤ a.ptWalkLevels - 1, p k = levelIndex va k) →
    kernelEntry a pgdir m' p = kernelEntry a pgdir m p
  translate : ∀ va', (∀ va, a.kernelDevioBase ≤ va → va < hi → ¬SamePage a va va') →
    translate a m'.mem pgdir va' = translate a m.mem pgdir va'

theorem Confined.refl : Confined a hi pgdir m m := ⟨fun _ _ => rfl, fun _ _ => rfl⟩

theorem Confined.trans (h : Confined a hi pgdir m m') (h' : Confined a hi pgdir m' n) :
    Confined a hi pgdir m n :=
  ⟨fun p hp => (h'.entry p hp).trans (h.entry p hp), fun va hva => (h'.translate va hva).trans (h.translate va hva)⟩

theorem Restored.confined (h : Restored a pgdir m m') : Confined a hi pgdir m m' :=
  ⟨fun p _ => h.entry p, fun va _ => h.translate va⟩

theorem MmioInv.release (hI : MmioInv a hi pgdir s) (hx : x ∈ s.mappings) :
    MmioInv a hi pgdir (s.release a x) ∧ (s.release a x).mappings = s.mappings.erase x ∧
      (s.release a x).pmm.panicked = s.pmm.panicked ∧ Confined a hi pgdir s.pmm (s.release a x).pmm ∧
      (s.release a x).pmm =
        Vm.kfree x.record (unmapPages a pgdir x.va (x.span / pgSize) 0 s.pmm) := by
  obtain ⟨hpos, -, hdvd, -⟩ := hI.ordered.aligned hx
  have heq : s.release a x = { s with mappings := s.mappings.erase x,
                                      pmm := Vm.kfree x.record (unmapPages a pgdir x.va (x.span / pgSize) 0 s.pmm) } := by
    rw [Mmio.release, if_neg (by omega), hI.root, Option.elim_some, ← unmapRange_eq, Nat.div_mul_cancel hdvd]
  have hlo := hI.ordered.lo_le hx
  have hin : ∀ y, InRange (x.va + 0) (x.span / pgSize) y → DevWindow a hi (levelIndex y) := by
    intro y hy
    obtain ⟨h1, h2⟩ := InRange.bounds hy
    exact ⟨y, hlo.trans h1, lt_of_lt_of_le h2 (hI.below x hx), rfl⟩
  obtain ⟨hK, hch, hpan, hstay, hnone⟩ := unmapPages_effect (fun _ => False) (x.span / pgSize) 0 hin
    (hI.kernel.mono fun p hp => hp.elim)
  have hrec := (hI.records x hx).changes hch
  obtain ⟨hK', -, hpan', hrec'⟩ := hK.kfree hrec
  rw [heq]
  have hconf : Confined a hi pgdir s.pmm (unmapPages a pgdir x.va (x.span / pgSize) 0 s.pmm) := by
    refine ⟨fun p hp => hch.entry p fun y hy => ?_, fun va hva => hch.translate va fun y hy => ?_⟩
    · obtain ⟨h1, h2⟩ := InRange.bounds hy
      exact hp y (hlo.trans h1) (lt_of_lt_of_le h2 (hI.below x hx))
    · obtain ⟨h1, h2⟩ := InRange.bounds hy
      exact hva y (hlo.trans h1) (lt_of_lt_of_le h2 (hI.below x hx))
  refine ⟨⟨hI.root, hK', hI.ordered.erase x, fun y hy => hI.below y (List.mem_of_mem_erase hy), ?_, ?_, ?_⟩, rfl,
    hpan'.trans hpan, ⟨hconf.entry, hconf.translate⟩, rfl⟩
  · intro va h1 h2 h3
    show kernelEntry a pgdir (unmapPages a pgdir x.va (x.span / pgSize) 0 s.pmm) (levelIndex va) = none
    by_cases hcov : x.Covers va
    · rw [levelIndex_eq_page]
      exact hnone _ ((mem_pages hI.ordered hx).1 hcov)
    · refine hstay _ (hI.fresh va h1 h2 fun y hy hycov => ?_)
      have hne : y ≠ x := fun he => hcov (he ▸ hycov)
      exact h3 y ((List.mem_erase_of_ne hne).2 hy) hycov
  · exact (List.Sublist.map _ List.erase_sublist).nodup hI.nodup
  · intro y hy
    refine hrec' y.record (fun he => ?_) ((hI.records y (List.mem_of_mem_erase hy)).changes hch)
    rw [hI.nodup.of_map.mem_erase_iff] at hy
    exact hy.1 (List.inj_on_of_nodup_map hI.nodup hy.2 hx he)

theorem kernelDevioBase_aligned (a : Arch) : pgSize ∣ a.kernelDevioBase ∧ a.kernelDevioBase < 2 ^ 64 := by
  cases a <;> exact ⟨by decide, by decide⟩

theorem mmioSpan_pages (pa byteCount : ℕ) : pgSize ∣ mmioSpan pa byteCount := Nat.dvd_mul_left _ _

theorem mmioSpan_pos (pa : ℕ) (h : byteCount ≠ 0) : 0 < mmioSpan pa byteCount := by
  unfold mmioSpan pgSize
  omega

/-- The address that `map` picks for a request. -/
def mmioFit (a : Arch) (pa byteCount : ℕ) (s : Mmio) : ℕ :=
  (firstFit (mmioSpan pa byteCount) a.kernelDevioBase s.mappings).1

/-- What `map_mmio` answers: an error with everything as before, or a mapping whose release puts everything back. -/
inductive MmioAnswer (a : Arch) (hi pgdir pa byteCount : ℕ) (perm : VmFlags) (s : Mmio) :
    Except Error MmioMapping × Mmio → Prop where
  | failed (e : Error) (s' : Mmio) (hinv : MmioInv a hi pgdir s') (hlist : s'.mappings = s.mappings)
      (hback : Restored a pgdir s.pmm s'.pmm) (hpan : s'.pmm.panicked = s.pmm.panicked) :
      MmioAnswer a hi pgdir pa byteCount perm s (.error e, s')
  | mapped (x : MmioMapping) (s' : Mmio) (hinv : MmioInv a hi pgdir s') (hlist : s'.mappings.Perm (x :: s.mappings))
      (hva : x.va = mmioFit a pa byteCount s) (hspan : x.span = mmioSpan pa byteCount)
      (hoffset : x.offset = pa % pgSize) (hsize : x.size = byteCount)
      (hentry : ∀ p, (∀ y, InRange x.va (x.span / pgSize) y → ¬∀ k ≤ a.ptWalkLevels - 1, p k = levelIndex y k) →
        kernelEntry a pgdir s'.pmm p = kernelEntry a pgdir s.pmm p)
      (htranslate : ∀ va, (∀ y, InRange x.va (x.span / pgSize) y → ¬SamePage a y va) →
        translate a s'.pmm.mem pgdir va = translate a s.pmm.mem pgdir va)
      (hpages : ∀ j < x.span / pgSize, kernelEntry a pgdir s'.pmm (levelIndex (x.va + j * pgSize)) =
        some (0, a.makePtePage (BitVec.ofNat 64 (pa - pa % pgSize + j * pgSize)) { perm with noexec := true }))
      (hpan : s'.pmm.panicked = s.pmm.panicked)
      (hundone : (s'.release a x).mappings = s.mappings) (hback : Restored a pgdir s.pmm (s'.release a x).pmm) :
      MmioAnswer a hi pgdir pa byteCount perm s (.ok x, s')

theorem Restored.of_record (hr : r ∈ m.free) (h : Restored a pgdir (m.withRecord r) n)
    (hfree : m'.free = {r} + n.free) (hmem : m'.mem = n.mem) : Restored a pgdir m m' := by
  refine ⟨fun p => ?_, fun va => ?_, ?_⟩
  · rw [kernelEntry, hmem]
    exact h.entry p
  · rw [hmem]
    exact h.translate va
  · have hcard := h.free
    have hpos := Multiset.card_pos_iff_exists_mem.2 ⟨r, hr⟩
    rw [show (m.withRecord r).free = m.free.erase r from rfl, Multiset.card_erase_of_mem hr,
      Nat.pred_eq_sub_one] at hcard
    rw [hfree, Multiset.card_add, Multiset.card_singleton, hcard]
    omega

theorem MmioInv.failed {S : ℕ → Prop} (e : Error)
    (hI : MmioInv a hi pgdir s) (hr : r ∈ s.pmm.free) (hK : Kernel a (DevWindow a hi) pgdir (fun _ => False) n)
    (hch : Changes a (DevWindow a hi) pgdir S (s.pmm.withRecord r) n) (hback : Restored a pgdir (s.pmm.withRecord r) n)
    (hpan : n.panicked = s.pmm.panicked) :
    MmioAnswer a hi pgdir pa byteCount perm s (.error e, { s with pmm := Vm.kfree r n }) := by
  have hrec := (hI.kernel.withRecord hr).2.changes hch
  obtain ⟨hK', hfree, hpan', hrec'⟩ := hK.kfree hrec
  refine .failed e _ (hI.replace hK' (fun p => hback.entry p) fun x hx => ?_) rfl
    (.of_record hr hback hfree rfl) (hpan'.trans hpan)
  have hx' := hI.records x hx
  exact hrec' _ (fun he => hx'.free (he ▸ hr)) ((hx'.withRecord hr).changes hch)

theorem MmioInv.picked (span : ℕ) (hwidth : hi ≤ a.kernelDevioBase + 2 ^ 30) (hI : MmioInv a hi pgdir s)
    (hlo : a.kernelDevioBase ≤ va) (hhi : va + span ≤ hi)
    (hapart : ∀ x ∈ s.mappings, x.va + x.span ≤ va ∨ va + span ≤ x.va) :
    (∀ y, InRange va (span / pgSize) y → DevWindow a hi (levelIndex y) ∧
      kernelEntry a pgdir s.pmm (levelIndex y) = none) ∧ Apart a va (span / pgSize) := by
  refine ⟨fun y hy => ?_, fun i j hij hj hsame => ?_⟩
  · obtain ⟨h1, h2⟩ := hy.bounds
    refine ⟨⟨y, hlo.trans h1, by omega, rfl⟩, hI.fresh y (hlo.trans h1) (by omega) fun x hx hcov => ?_⟩
    obtain ⟨hx1, hx2⟩ := hcov
    have := hapart x hx
    omega
  · have hi' := (show InRange va (span / pgSize) (va + i * pgSize) from ⟨i, by omega, rfl⟩).bounds
    have hj' := (show InRange va (span / pgSize) (va + j * pgSize) from ⟨j, hj, rfl⟩).bounds
    have := page_eq_of_samePage a.kernelDevioBase (by omega) (by omega) (by omega) (by omega) hsame
    unfold pgSize at this
    omega

def mmioRegion (a : Arch) (r pa byteCount : ℕ) (s : Mmio) : MmioMapping :=
  ⟨r, mmioFit a pa byteCount s, mmioSpan pa byteCount, pa % pgSize, byteCount⟩

theorem MmioInv.mapped {i : ℕ}
    (hwidth : hi ≤ a.kernelDevioBase + 2 ^ 30) (hI : MmioInv a hi pgdir s) (hr : r ∈ s.pmm.free)
    (hx : x = mmioRegion a r pa byteCount s)
    (hhi : x.va + x.span ≤ hi) (hlo : a.kernelDevioBase ≤ x.va)
    (hapart : ∀ y ∈ s.mappings, y.va + y.span ≤ x.va ∨ x.va + x.span ≤ y.va)
    (hord : Ordered a.kernelDevioBase (s.mappings.insertIdx i x)) (hperm : (s.mappings.insertIdx i x).Perm (x :: s.mappings))
    (herase : x ∉ s.mappings → (s.mappings.insertIdx i x).erase x = s.mappings)
    (hK : Kernel a (DevWindow a hi) pgdir (fun _ => False) n)
    (hch : Changes a (DevWindow a hi) pgdir (InRange x.va (x.span / pgSize)) (s.pmm.withRecord r) n) (hpan : n.panicked = s.pmm.panicked)
    (hpages : ∀ j < x.span / pgSize, kernelEntry a pgdir n (levelIndex (x.va + j * pgSize)) =
      some (0, a.makePtePage (BitVec.ofNat 64 (pa - pa % pgSize + j * pgSize)) { perm with noexec := true })) :
    MmioAnswer a hi pgdir pa byteCount perm s
      (.ok x, { s with pmm := n, mappings := s.mappings.insertIdx i x }) := by
  obtain ⟨hK₀, hrec⟩ := hI.kernel.withRecord hr
  obtain ⟨hin, hap⟩ := hI.picked _ hwidth hlo hhi hapart
  have hxr : x.record = r := by rw [hx]; rfl
  have hrecs : ∀ y ∈ s.mappings, Record a pgdir n y.record ∧ y.record ≠ r := by
    intro y hy
    have hy' := hI.records y hy
    exact ⟨(hy'.withRecord hr).changes hch, fun he => hy'.free (he ▸ hr)⟩
  have hnot : x ∉ s.mappings := fun h => (hrecs x h).2 hxr
  have hmem : x ∈ s.mappings.insertIdx i x := hperm.mem_iff.2 List.mem_cons_self
  have hinv : MmioInv a hi pgdir { s with pmm := n, mappings := s.mappings.insertIdx i x } := by
    refine ⟨hI.root, hK, hord, fun y hy => ?_, fun va h1 h2 h3 => ?_, ?_, fun y hy => ?_⟩
    · obtain rfl | hy := List.mem_cons.1 (hperm.mem_iff.1 hy)
      · exact hhi
      · exact hI.below y hy
    · have hold : kernelEntry a pgdir (s.pmm.withRecord r) (levelIndex va) = none :=
        hI.fresh va h1 h2 fun y hy => h3 y (hperm.mem_iff.2 (List.mem_cons_of_mem x hy))
      rw [← hold]
      refine hch.entry _ fun y hy hag => h3 x hmem ?_
      have hb := hy.bounds
      have hsame : SamePage a va y := (samePage_iff a va y).2 hag
      have hpage := page_eq_of_samePage a.kernelDevioBase h1 (by omega) (by omega) (by omega) hsame
      rw [mem_pages hord hmem]
      obtain ⟨j, hj, hyj⟩ := hy
      obtain ⟨c, hc⟩ := (hord.aligned hmem).2.1
      refine ⟨j, hj, ?_⟩
      rw [hpage, hyj, hc]
      unfold pgSize
      omega
    · rw [(hperm.map MmioMapping.record).nodup_iff, List.map_cons, List.nodup_cons]
      refine ⟨fun hm => ?_, hI.nodup⟩
      obtain ⟨y, hy, he⟩ := List.mem_map.1 hm
      exact (hrecs y hy).2 (he.trans hxr)
    · obtain rfl | hy := List.mem_cons.1 (hperm.mem_iff.1 hy)
      · rw [hxr]
        exact hrec.changes hch
      · exact (hrecs y hy).1
  obtain ⟨-, hundone, -, -, hrel⟩ := hinv.release hmem
  refine .mapped x _ hinv hperm (by rw [hx]; rfl) (by rw [hx]; rfl) (by rw [hx]; rfl) (by rw [hx]; rfl) hch.entry hch.translate hpages hpan
    (hundone.trans (herase hnot)) ?_
  rw [hrel]
  obtain ⟨hK₂, hch₂, hback, -⟩ := unmapPages_restored (m := s.pmm.withRecord r) (x.span / pgSize)
    (fun y hy => (hin y hy).1) (fun y hy => (hin y hy).2) hK₀ (hK.mono fun p hp => hp.elim) hch
  obtain ⟨-, hfree, -⟩ := hK₂.kfree (hrec.changes hch₂)
  rw [hxr]
  exact .of_record hr hback hfree rfl

def Mmio.mapEnd (a : Arch) (pgdir r pa byteCount : ℕ) (s : Mmio) : Option ℕ × Pmm → Except Error MmioMapping × Mmio
  | (some mapped, m) =>
    let m := unmapRange a pgdir (mmioFit a pa byteCount s) (mapped + pgSize) m
    (.error .noMem, { s with pmm := Vm.kfree r m })
  | (none, m) =>
    let i := (firstFit (mmioSpan pa byteCount) a.kernelDevioBase s.mappings).2
    (.ok (mmioRegion a r pa byteCount s),
      { s with pmm := m, mappings := s.mappings.insertIdx i (mmioRegion a r pa byteCount s) })

theorem Mmio.mapRecord_eq (E : Env) (r pa byteCount : ℕ) (perm : VmFlags) (m : Pmm) (hroot : s.kernelPgdir = some pgdir) :
    { s with pmm := m }.mapRecord a E r pa (mmioSpan pa byteCount) byteCount perm =
      if 2 ^ 64 ≤ mmioFit a pa byteCount s + mmioSpan pa byteCount then
        (.error .noMem, { s with pmm := Vm.kfree r m })
      else
        s.mapEnd a pgdir r pa byteCount (mapPages a E pgdir (mmioFit a pa byteCount s) (pa - pa % pgSize) perm
          (mmioSpan pa byteCount / pgSize) 0 m) := by
  obtain ⟨m₀, root, mappings⟩ := s
  cases hroot
  by_cases hover : 2 ^ 64 ≤ mmioFit a pa byteCount ⟨m₀, some pgdir, mappings⟩ + mmioSpan pa byteCount
  · exact (if_pos hover).trans (if_pos hover).symm
  · refine (if_neg hover).trans (Eq.trans ?_ (if_neg hover).symm)
    generalize hres : mapPages a E pgdir (mmioFit a pa byteCount ⟨m₀, some pgdir, mappings⟩) (pa - pa % pgSize) perm
      (mmioSpan pa byteCount / pgSize) 0 m = res
    rw [mmioFit] at hres
    simp only [hres]
    obtain ⟨_ | mapped, m'⟩ := res <;> rfl

theorem MmioInv.mapRecord (E : Env) (perm : VmFlags) (hwidth : hi ≤ a.kernelDevioBase + 2 ^ 30)
    (hI : MmioInv a hi pgdir s) (hr : r ∈ s.pmm.free) (hne : byteCount ≠ 0)
    (hfit : mmioFit a pa byteCount s + mmioSpan pa byteCount < 2 ^ 64 →
      mmioFit a pa byteCount s + mmioSpan pa byteCount ≤ hi) :
    MmioAnswer a hi pgdir pa byteCount perm s
      ({ s with pmm := s.pmm.withRecord r }.mapRecord a E r pa (mmioSpan pa byteCount) byteCount
        { perm with noexec := true }) := by
  obtain ⟨hK, -⟩ := hI.kernel.withRecord hr
  obtain ⟨hlo, hdvd, -, hapart, hins⟩ := firstFit_spec (mmioSpan pa byteCount) hI.ordered
    (kernelDevioBase_aligned a).1 (kernelDevioBase_aligned a).2
  rw [← mmioFit] at hlo hdvd hapart hins
  rw [Mmio.mapRecord_eq E r pa byteCount _ _ hI.root]
  by_cases hover : 2 ^ 64 ≤ mmioFit a pa byteCount s + mmioSpan pa byteCount
  · rw [if_pos hover]
    exact hI.failed (S := fun _ => False) _ hr hK (.refl _) ⟨fun _ => rfl, fun _ => rfl, rfl⟩ rfl
  rw [if_neg hover]
  have hhi := hfit (by omega)
  obtain ⟨hin, hap⟩ := hI.picked _ hwidth hlo hhi hapart
  have hans : MapPagesAnswer a (DevWindow a hi) pgdir (mmioFit a pa byteCount s) (pa - pa % pgSize)
      { perm with noexec := true } (mmioSpan pa byteCount / pgSize) 0 (s.pmm.withRecord r) _ :=
    mapPages_answers E (pa - pa % pgSize) { perm with noexec := true } (mmioSpan pa byteCount / pgSize) 0
      (fun y hy => (hin y hy).1) (fun y hy => (hin y hy).2) hap hK
  generalize mapPages a E pgdir (mmioFit a pa byteCount s) (pa - pa % pgSize) { perm with noexec := true }
    (mmioSpan pa byteCount / pgSize) 0 (s.pmm.withRecord r) = res at hans ⊢
  cases hans with
  | done n hK' hch hpan hpages =>
    obtain ⟨hord, hperm, herase⟩ := hins (mmioRegion a r pa byteCount s) rfl rfl
      (mmioSpan_pos pa hne) (mmioSpan_pages pa byteCount) (by omega)
    exact hI.mapped hwidth hr rfl hhi hlo hapart hord hperm herase hK' hch hpan hpages
  | refused k n hk hK' hch hpan =>
    have hsub : ∀ y, InRange (mmioFit a pa byteCount s) (k + 1) y →
        InRange (mmioFit a pa byteCount s) (mmioSpan pa byteCount / pgSize) y := by
      rintro y ⟨j, hj, rfl⟩
      exact ⟨j, by omega, rfl⟩
    rw [Mmio.mapEnd, show 0 + k * pgSize + pgSize = (k + 1) * pgSize by ring, unmapRange_eq]
    have hch' : Changes a (DevWindow a hi) pgdir (InRange (mmioFit a pa byteCount s) (k + 1)) (s.pmm.withRecord r) n := by
      refine hch.mono fun y hy => ?_
      obtain ⟨j, hj, rfl⟩ := hy
      exact ⟨j, by omega, rfl⟩
    obtain ⟨hK₂, hch₂, hback, hpan₂⟩ := unmapPages_restored (m := s.pmm.withRecord r) (k + 1)
      (fun y hy => (hin y (hsub y hy)).1) (fun y hy => (hin y (hsub y hy)).2) hK
      (hK'.mono fun p hp => ⟨_, ⟨k, by omega, rfl⟩, hp⟩) hch'
    exact hI.failed _ hr hK₂ hch₂ hback (hpan₂.trans hpan)

theorem MmioInv.map (E : Env) (pa byteCount : ℕ) (perm : VmFlags) (hwidth : hi ≤ a.kernelDevioBase + 2 ^ 30)
    (hI : MmioInv a hi pgdir s)
    (hfit : mmioFit a pa byteCount s + mmioSpan pa byteCount < 2 ^ 64 →
      mmioFit a pa byteCount s + mmioSpan pa byteCount ≤ hi) :
    MmioAnswer a hi pgdir pa byteCount perm s (s.map a E pa byteCount perm) := by
  have hsame : ∀ e, MmioAnswer a hi pgdir pa byteCount perm s (.error e, s) :=
    fun e => .failed e s hI rfl ⟨fun _ => rfl, fun _ => rfl, rfl⟩ rfl
  rw [Mmio.map]
  split
  · exact hsame _
  rename_i hne
  split
  · exact hsame _
  split
  · exact hsame _
  split
  · exact hsame _
  obtain hno | ⟨r, hr, hget⟩ := kmalloc_record E s.pmm
  · rw [hno]
    refine .failed _ _ (hI.replace (hI.kernel.of_mem rfl rfl hI.kernel.tree.held hI.kernel.pool.nodup hI.kernel.unused
      fun _ _ hd => ⟨hd.bound, hd.pageTable, hd.reserved, hd.refCount⟩) (fun _ => rfl) fun x hx => ?_) rfl
      ⟨fun _ => rfl, fun _ => rfl, rfl⟩ rfl
    have hx' := hI.records x hx
    exact ⟨hx'.free, hx'.table, hx'.refCount, hx'.blockPages, hx'.bound⟩
  · rw [hget]
    exact hI.mapRecord E perm hwidth hr hne hfit

/-! ## Runs -/

theorem MmioAnswer.inv {r : Except Error MmioMapping × Mmio}
    (h : MmioAnswer a hi pgdir pa byteCount perm s r) :
    MmioInv a hi pgdir r.2 ∧ r.2.pmm.panicked = s.pmm.panicked ∧ Confined a hi pgdir s.pmm r.2.pmm := by
  cases h with
  | failed _ _ hinv _ hback hpan => exact ⟨hinv, hpan, hback.confined⟩
  | mapped x s' hinv hlist _ _ _ _ hentry htranslate _ hpan =>
    have hx : x ∈ s'.mappings := hlist.mem_iff.2 List.mem_cons_self
    have hlo := hinv.ordered.lo_le hx
    refine ⟨hinv, hpan, fun p hp => hentry p fun y hy => ?_, fun va hva => htranslate va fun y hy => ?_⟩
    · obtain ⟨h1, h2⟩ := hy.bounds
      exact hp y (hlo.trans h1) (lt_of_lt_of_le h2 (hinv.below x hx))
    · obtain ⟨h1, h2⟩ := hy.bounds
      exact hva y (hlo.trans h1) (lt_of_lt_of_le h2 (hinv.below x hx))

theorem mmioMap_state (a : Arch) (E : Env) (pa byteCount : ℕ) (perm : VmFlags) (s : Mmio) :
    (s.mmioMap a E pa byteCount perm).2 = (s.map a E pa byteCount perm).2 := by
  rw [Mmio.mmioMap]
  generalize s.map a E pa byteCount perm = r
  obtain ⟨_ | _, _⟩ := r <;> rfl

/-- The states after any number of requests that satisfy `ok`, of permanent mappings and of releases. -/
inductive MmioReach (a : Arch) (ok : Mmio → ℕ → ℕ → Prop) (s₀ : Mmio) : Mmio → Prop where
  | start : MmioReach a ok s₀ s₀
  | map {s : Mmio} (E : Env) (pa byteCount : ℕ) (perm : VmFlags) (h : MmioReach a ok s₀ s) (hok : ok s pa byteCount) :
      MmioReach a ok s₀ (s.map a E pa byteCount perm).2
  | mmioMap {s : Mmio} (E : Env) (pa byteCount : ℕ) (perm : VmFlags) (h : MmioReach a ok s₀ s) (hok : ok s pa byteCount) :
      MmioReach a ok s₀ (s.mmioMap a E pa byteCount perm).2
  | release {s : Mmio} {x : MmioMapping} (h : MmioReach a ok s₀ s) (hx : x ∈ s.mappings) :
      MmioReach a ok s₀ (s.release a x)

theorem MmioReach.inv {ok : Mmio → ℕ → ℕ → Prop} {s₀ : Mmio} (hwidth : hi ≤ a.kernelDevioBase + 2 ^ 30)
    (hok : ∀ s pa byteCount, ok s pa byteCount → mmioFit a pa byteCount s + mmioSpan pa byteCount < 2 ^ 64 →
      mmioFit a pa byteCount s + mmioSpan pa byteCount ≤ hi)
    (h₀ : MmioInv a hi pgdir s₀) (h : MmioReach a ok s₀ s) :
    MmioInv a hi pgdir s ∧ s.pmm.panicked = s₀.pmm.panicked ∧ Confined a hi pgdir s₀.pmm s.pmm := by
  induction h with
  | start => exact ⟨h₀, rfl, .refl⟩
  | map E pa byteCount perm _ hfit ih =>
    obtain ⟨hinv, hpan, hconf⟩ := (ih.1.map E pa byteCount perm hwidth (hok _ _ _ hfit)).inv
    exact ⟨hinv, hpan.trans ih.2.1, ih.2.2.trans hconf⟩
  | mmioMap E pa byteCount perm _ hfit ih =>
    rw [mmioMap_state]
    obtain ⟨hinv, hpan, hconf⟩ := (ih.1.map E pa byteCount perm hwidth (hok _ _ _ hfit)).inv
    exact ⟨hinv, hpan.trans ih.2.1, ih.2.2.trans hconf⟩
  | release _ hx ih =>
    obtain ⟨hinv, -, hpan, hconf, -⟩ := ih.1.release hx
    exact ⟨hinv, hpan.trans ih.2.1, ih.2.2.trans hconf⟩

end Zonix.Vm
