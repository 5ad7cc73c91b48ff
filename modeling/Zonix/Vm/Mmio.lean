import Mathlib
import Zonix.Base.Word
import Zonix.Vm.Walk

/-!
# Device mappings of the kernel

`pmm::unmap_mmio_page` of `kernel/mm/pmm.cpp` and `MmioAllocator` of `kernel/mm/mmio.cpp`. Interrupts are off in both,
so that each call is one step; the translation buffers follow the tables.
-/

namespace Zonix.Vm

open Zonix.Lib.Radix

/-- `KERNEL_DEVIO_BASE`. -/
def Arch.kernelDevioBase : Arch → ℕ
  | x86 => 0xFFFFFFFF80000000 + 0x40000000
  | aarch64 => 0xFFFF000000000000 + 0x80000000
  | riscv64 => 0xFFFFFFC000000000 + 0x40000000

/-! ## `unmap_mmio_page` -/

def mmioEntries (a : Arch) (h : Heap 512 Word) (va : ℕ) : ℕ → ℕ → List (ℕ × Fin 512) → List (ℕ × Fin 512)
  | 0, table, entries => (table, levelIndex va 0) :: entries
  | l + 1, table, entries =>
    let entry := h table (levelIndex va (l + 1))
    if !a.ptePresent entry || a.pteIsBlock entry then (table, levelIndex va (l + 1)) :: entries
    else mmioEntries a h va l (physToPage (a.pteAddr entry)) ((table, levelIndex va (l + 1)) :: entries)

/-- The second loop: `table` is `tables[depth]`, and `entries` are the entries above it. -/
def pruneTables (a : Arch) : ℕ → List (ℕ × Fin 512) → Pmm → Pmm
  | _, [], m => m
  | table, entry :: entries, m =>
    let page := physToPage (a.pteAddr (m.mem entry.1 entry.2))
    if ¬(∀ i, m.mem table i = 0) ∨ m.pageCount ≤ page then m
    else if m.pageTable page = false ∨ m.reserved page = true then m
    else pruneTables a entry.1 entries (freeTablePage page { m with mem := write m.mem entry 0 })

def unmapMmioPage (a : Arch) (pgdir va : ℕ) (m : Pmm) : Pmm :=
  match mmioEntries a m.mem va (a.ptWalkLevels - 1) pgdir [] with
  | [] => m
  | last :: entries =>
    pruneTables a last.1 entries
      (if entries.length = a.ptWalkLevels - 1 then { m with mem := write m.mem last 0 } else m)

/-! ## `MmioAllocator` -/

/-- A `MmioMapping`; `record` is the page that `new` got for it. -/
structure MmioMapping where
  record : ℕ
  va : ℕ
  span : ℕ
  offset : ℕ
  size : ℕ
deriving DecidableEq, Repr

def MmioMapping.address (x : MmioMapping) : ℕ := x.va + x.offset

/-- `sizeof(MmioMapping)`. -/
def mmioMappingSize : ℕ := 48

structure Mmio where
  pmm : Pmm
  kernelPgdir : Option ℕ
  mappings : List MmioMapping

def firstFit (span : ℕ) : ℕ → List MmioMapping → ℕ × ℕ
  | va, [] => (va, 0)
  | va, current :: rest =>
    if span ≤ u64 (current.va + (2 ^ 64 - va)) then (va, 0)
    else
      let r := firstFit span (u64 (current.va + current.span)) rest
      (r.1, r.2 + 1)

/-- The loop of `map` over the pages that are left; gives the offset of the page for which a table was refused. -/
def mapPages (a : Arch) (E : Env) (pgdir va pa : ℕ) (perm : VmFlags) : ℕ → ℕ → Pmm → Option ℕ × Pmm
  | 0, _, m => (none, m)
  | n + 1, mapped, m =>
    match getPte a E pgdir (va + mapped) true m with
    | (none, m) => (some mapped, m)
    | (some pte, m) =>
      mapPages a E pgdir va pa perm n (mapped + pgSize)
        { m with mem := write m.mem pte (a.makePtePage (BitVec.ofNat 64 (pa + mapped)) perm),
                 panicked := m.panicked || a.ptePresent (m.mem pte.1 pte.2) }

def unmapPages (a : Arch) (pgdir va : ℕ) : ℕ → ℕ → Pmm → Pmm
  | 0, _, m => m
  | n + 1, offset, m => unmapPages a pgdir va n (offset + pgSize) (unmapMmioPage a pgdir (va + offset) m)

/-- `MmioAllocator::unmap`. -/
def unmapRange (a : Arch) (pgdir va span : ℕ) (m : Pmm) : Pmm :=
  unmapPages a pgdir va ((span + pgSize - 1) / pgSize) 0 m

/-- The part of `map` that has its record; on every error the owner of the record deletes it. -/
def Mmio.mapRecord (a : Arch) (E : Env) (record pa span byteCount : ℕ) (perm : VmFlags) (s : Mmio) :
    Except Error MmioMapping × Mmio :=
  match s.kernelPgdir with
  | none => (.error .noMem, { s with pmm := kfree record s.pmm })
  | some pgdir =>
    let fit := firstFit span a.kernelDevioBase s.mappings
    if 2 ^ 64 ≤ fit.1 + span then (.error .noMem, { s with pmm := kfree record s.pmm })
    else
      match mapPages a E pgdir fit.1 (pa - pa % pgSize) perm (span / pgSize) 0 s.pmm with
      | (some mapped, m) => (.error .noMem, { s with pmm := kfree record (unmapRange a pgdir fit.1 (mapped + pgSize) m) })
      | (none, m) =>
        let region : MmioMapping := ⟨record, fit.1, span, pa % pgSize, byteCount⟩
        (.ok region, { s with pmm := m, mappings := s.mappings.insertIdx fit.2 region })

/-- The span of a request: whole pages around its bytes. -/
def mmioSpan (pa byteCount : ℕ) : ℕ := (byteCount + pa % pgSize + (pgSize - 1)) / pgSize * pgSize

/-- `MmioAllocator::map`, which is `map_mmio`. -/
def Mmio.map (a : Arch) (E : Env) (pa byteCount : ℕ) (perm : VmFlags) (s : Mmio) : Except Error MmioMapping × Mmio :=
  if byteCount = 0 then (.error .invalid, s)
  else if perm.user then (.error .invalid, s)
  else if 2 ^ 64 ≤ byteCount + pa % pgSize + (pgSize - 1) then (.error .invalid, s)
  else if 2 ^ 64 ≤ pa - pa % pgSize + mmioSpan pa byteCount then (.error .invalid, s)
  else
    match kmalloc E mmioMappingSize s.pmm with
    | (none, m) => (.error .noMem, { s with pmm := m })
    | (some record, m) =>
      { s with pmm := m }.mapRecord a E record pa (mmioSpan pa byteCount) byteCount { perm with noexec := true }

def Mmio.release (a : Arch) (mapping : MmioMapping) (s : Mmio) : Mmio :=
  let s : Mmio := if mapping.span = 0 then s else
    { s with mappings := s.mappings.erase mapping,
             pmm := s.kernelPgdir.elim s.pmm fun pgdir => unmapRange a pgdir mapping.va mapping.span s.pmm }
  { s with pmm := kfree mapping.record s.pmm }

/-- `mmio_map`: a mapping that nobody owns. -/
def Mmio.mmioMap (a : Arch) (E : Env) (pa byteCount : ℕ) (perm : VmFlags) (s : Mmio) : ℕ × Mmio :=
  match s.map a E pa byteCount perm with
  | (.error _, s) => (0, s)
  | (.ok region, s) => (region.address, s)

end Zonix.Vm
