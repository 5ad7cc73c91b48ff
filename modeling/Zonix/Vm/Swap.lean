import Mathlib
import Zonix.Vm.Walk

/-!
# User address spaces and swap

`create_user_pgdir` (`kernel/exec/exec.cpp`), `free_user_pgdir` (`kernel/mm/pmm.cpp`), `kernel/mm/swap.cpp`,
`kernel/mm/swap_fifo.cpp` and `vmm::pg_fault`. An address space is named by the frame of its root table; `queue` is
the `swap_list` of its memory descriptor. The bitmap of slots is a predicate, and `device` says that a swap device is
registered and the bitmap allocated.
-/

namespace Zonix.Vm

open Zonix.Lib.Radix

structure State where
  pmm : Pmm
  kernelPgdir : ℕ
  spaces : Multiset ℕ
  queue : ℕ → List ℕ
  device : Bool
  slotLimit : ℕ
  nextSlot : ℕ
  occupied : ℕ → Bool
  disk : ℕ → Fin 64 → Word
  ioClock : ℕ

def pageTableEntries : List (Fin 512) := List.finRange 512

/-- `i < USER_TOP_ENTRIES`. -/
def userTop (i : Fin 512) : Bool := i.val < 256

def userTopEntries : List (Fin 512) := pageTableEntries.filter userTop

def createUserPgdir (E : Env) (v : State) : Option ℕ × State :=
  match kmalloc E pgSize v.pmm with
  | (none, m) => (none, { v with pmm := m })
  | (some r, m) =>
    let words : Fin 512 → Word := fun i => if userTop i then 0 else m.mem v.kernelPgdir i
    (some r, { v with pmm := { m with mem := fill m.mem r words }, spaces := r ::ₘ v.spaces,
                      queue := fun f => if f = r then [] else v.queue f })

/-! ## Slots -/

def entryHasPermissions : Word := 0x80
def entryWrite : Word := 0x02
def entryExecute : Word := 0x04
def maxOffsetLimit : ℕ := 2 ^ 24
def entrySlotMask : Word := BitVec.ofNat 64 (maxOffsetLimit - 1) <<< 8
def entryFlags : Word := entryHasPermissions ||| entryWrite ||| entryExecute

def allocatedSlot (v : State) (entry : Word) : ℕ :=
  if !v.device || entry &&& ~~~(entrySlotMask ||| entryFlags) != 0 || entry &&& entryHasPermissions == 0 then 0
  else
    let slot := (entry >>> 8).toNat % 2 ^ 32
    if 0 < slot && slot < v.slotLimit && v.occupied slot then slot else 0

def setOccupied (slot : ℕ) (value : Bool) (v : State) : State :=
  { v with occupied := fun s => if s = slot then value else v.occupied s }

/-- The loop of `reserve_slot`, with the number of slots still to look at. -/
def reserveLoop : ℕ → State → Option ℕ × State
  | 0, v => (none, v)
  | n + 1, v =>
    let slot := v.nextSlot
    let v := { v with nextSlot := if slot + 1 = v.slotLimit then 1 else slot + 1 }
    if v.occupied slot then reserveLoop n v else (some slot, setOccupied slot true v)

def reserveSlot (v : State) : Option ℕ × State := if v.device then reserveLoop (v.slotLimit - 1) v else (none, v)

def releaseEntry (entry : Word) (v : State) : State :=
  let slot := allocatedSlot v entry
  if slot ≠ 0 then setOccupied slot false v else v

/-! ## Transfers: a page is eight blocks of 64 words -/

def startLba (slot : ℕ) : ℕ := (slot - 1) * 8 % 2 ^ 32

def readBlocks (disk : ℕ → Fin 64 → Word) (lba : ℕ) : Fin 512 → Word := fun i =>
  disk (lba + i.val / 64) ⟨i.val % 64, Nat.mod_lt _ (by norm_num)⟩

def writeBlocks (disk : ℕ → Fin 64 → Word) (lba : ℕ) (page : Fin 512 → Word) : ℕ → Fin 64 → Word := fun b k =>
  if h : lba ≤ b ∧ b < lba + 8 then page ⟨(b - lba) * 64 + k.val, by omega⟩ else disk b k

def swapfsRead (E : Env) (entry : Word) (page : ℕ) (v : State) : Error × State :=
  let slot := allocatedSlot v entry
  if !v.device then (.noDevice, v)
  else if slot = 0 then (.invalid, v)
  else
    match E.readError v.ioClock with
    | none =>
      (.none, { v with ioClock := v.ioClock + 1,
                       pmm := { v.pmm with mem := fill v.pmm.mem page (readBlocks v.disk (startLba slot)) } })
    | some left =>
      (.io, { v with ioClock := v.ioClock + 1, pmm := { v.pmm with mem := fill v.pmm.mem page left } })

def swapfsWrite (E : Env) (entry : Word) (page : ℕ) (v : State) : Error × State :=
  let slot := allocatedSlot v entry
  if !v.device then (.noDevice, v)
  else if slot = 0 then (.invalid, v)
  else
    match E.writeError v.ioClock with
    | none =>
      (.none, { v with ioClock := v.ioClock + 1, disk := writeBlocks v.disk (startLba slot) (v.pmm.mem page) })
    | some left => (.io, { v with ioClock := v.ioClock + 1, disk := writeBlocks v.disk (startLba slot) left })

/-! ## The FIFO queue -/

def unlink (page : ℕ) (v : State) : State := { v with queue := fun r => (v.queue r).erase page }

/-- `page->node()` is on no list. -/
def unqueued (v : State) (page : ℕ) : Bool := v.spaces.filter (fun r => page ∈ v.queue r) = 0

def mapSwappable (r page : ℕ) (v : State) : Error × State :=
  if unqueued v page then
    (.none, { v with queue := fun f => if f = r then v.queue r ++ [page] else v.queue f })
  else (.invalid, v)

def swapOutVictim (r : ℕ) (v : State) : Option ℕ × State :=
  match v.queue r with
  | [] => (none, v)
  | victim :: rest => (some victim, { v with queue := fun f => if f = r then rest else v.queue f })

/-- `mm->swap_list.add(victim->node())`. -/
def requeue (r victim : ℕ) (v : State) : State :=
  { v with queue := fun f => if f = r then victim :: v.queue r else v.queue f }

/-! ## Bringing a page in -/

/-- The part of `swap::in` after the page was read. -/
def swapInMap (a : Arch) (E : Env) (r va page : ℕ) (ptep : ℕ × Fin 512) (entry : Word) (v : State) :
    Error × State :=
  if v.pmm.mem ptep.1 ptep.2 ≠ entry then (.busy, { v with pmm := freePages page 1 v.pmm })
  else
    let perm := userPagePerm (entry &&& entryWrite != 0) (entry &&& entryExecute != 0)
    match mapSwappable r page v with
    | (.none, v) =>
      match pageInsert a E r page va perm v.pmm with
      | (.none, m) => (.none, releaseEntry entry { v with pmm := m })
      | (error, m) => (error, let v := unlink page { v with pmm := m }; { v with pmm := freePages page 1 v.pmm })
    | (error, v) => (error, let v := unlink page v; { v with pmm := freePages page 1 v.pmm })

/-- The part of `swap::in` after the entry was looked up. -/
def swapInEntry (a : Arch) (E : Env) (r va : ℕ) (ptep : ℕ × Fin 512) (v : State) : Error × State :=
  let entry := v.pmm.mem ptep.1 ptep.2
  if a.ptePresent entry || allocatedSlot v entry == 0 then (.invalid, v)
  else
    match allocPages E 1 v.pmm with
    | (none, m) => (.noMem, { v with pmm := m })
    | (some page, m) =>
      match swapfsRead E entry page { v with pmm := m } with
      | (.none, v) => swapInMap a E r va page ptep entry v
      | (error, v) => (error, { v with pmm := freePages page 1 v.pmm })

def swapIn (a : Arch) (E : Env) (r va : ℕ) (v : State) : Error × State :=
  if r = v.kernelPgdir ∨ va < pgSize ∨ a.userSpaceTop ≤ va then (.invalid, v)
  else if !v.device then (.noDevice, v)
  else
    match (getPte a E r va false v.pmm).1 with
    | none => (.notFound, v)
    | some ptep => swapInEntry a E r va ptep v

/-! ## Moving pages out -/

/-- The loop of `scan_pt_for_pa` over the entries of one table, with the result 0 for "not found". -/
def scanTable (entries : List (Fin 512)) (look : Fin 512 → ℕ) : ℕ :=
  match entries with
  | [] => 0
  | i :: rest => if look i ≠ 0 then look i else scanTable rest look

/-- `scan_pt_for_pa` from a table at level `l` on; at the leaves the first match is the result. -/
def scanPtForPa (a : Arch) (h : Heap 512 Word) (target : Word) : ℕ → ℕ → ℕ → ℕ
  | 0, table, base =>
    match pageTableEntries.find? fun i => a.ptePresent (h table i) && a.pteAddr (h table i) == target with
    | none => 0
    | some i => base ||| i.val <<< levelShift 0
  | l + 1, table, base =>
    scanTable pageTableEntries fun i =>
      match a.tableOf (h table i) with
      | none => 0
      | some g => scanPtForPa a h target l g (base ||| i.val <<< levelShift (l + 1))

def findVaForPage (a : Arch) (r page : ℕ) (v : State) : ℕ :=
  let l := a.ptWalkLevels - 2
  scanTable userTopEntries fun i =>
    match a.tableOf (v.pmm.mem r i) with
    | none => 0
    | some g => scanPtForPa a v.pmm.mem (pageToPhys page) l g (i.val <<< levelShift (l + 1))

def swapEntry (slot : ℕ) (write execute : Bool) : Word :=
  BitVec.ofNat 64 slot <<< 8 ||| entryHasPermissions ||| (if write then entryWrite else 0) |||
    (if execute then entryExecute else 0)

/-- The part of an eviction after the slot was reserved and the mapping found good. -/
def evict (a : Arch) (E : Env) (r victim slot : ℕ) (ptep : ℕ × Fin 512) (v : State) : Bool × State :=
  let resident := v.pmm.mem ptep.1 ptep.2
  let entry := swapEntry slot (a.pteWritable resident) (a.pteExecutable resident)
  match swapfsWrite E entry victim v with
  | (error, v) =>
    if error ≠ .none ∨ v.pmm.mem ptep.1 ptep.2 ≠ resident ∨ v.pmm.refCount victim ≠ 1 then
      (false, requeue r victim (releaseEntry entry v))
    else
      let m := { v.pmm with mem := write v.pmm.mem ptep entry,
                            refCount := fun f => if f = victim then v.pmm.refCount victim - 1 else v.pmm.refCount f }
      (true, { v with pmm := freePages victim 1 m })

def releaseReserved (reserved : Option ℕ) (v : State) : State :=
  match reserved with
  | none => v
  | some slot => releaseEntry (swapEntry slot false false) v

/-- One round of the loop of `swap::out`; the flag says whether a page was moved out. -/
def swapOutOne (a : Arch) (E : Env) (r : ℕ) (v : State) : Bool × State :=
  match swapOutVictim r v with
  | (none, v) => (false, v)
  | (some victim, v) =>
    let va := findVaForPage a r victim v
    let ptep := if va ≠ 0 then (getPte a E r va false v.pmm).1 else none
    match ptep, reserveSlot v with
    | some s, (some slot, v) =>
      let e := v.pmm.mem s.1 s.2
      if a.ptePresent e && a.pteUser e && v.pmm.refCount victim == 1 then evict a E r victim slot s v
      else (false, requeue r victim (releaseReserved (some slot) v))
    | _, (reserved, v) => (false, requeue r victim (releaseReserved reserved v))

def swapOutLoop (a : Arch) (E : Env) (r : ℕ) : ℕ → State → ℕ × State
  | 0, v => (0, v)
  | n + 1, v =>
    match swapOutOne a E r v with
    | (false, v) => (0, v)
    | (true, v) =>
      let result := swapOutLoop a E r n v
      (result.1 + 1, result.2)

/-- `swap::out` called by the task whose address space is `current`. -/
def swapOut (a : Arch) (E : Env) (current r : ℕ) (pageCount : ℕ) (inTimerTick : Bool) (v : State) : ℕ × State :=
  if r = v.kernelPgdir ∨ current ≠ r ∨ pageCount = 0 ∨ inTimerTick then (0, v)
  else if !v.device then (0, v)
  else swapOutLoop a E r pageCount v

/-- The bits of a page-fault error code that `pg_fault` reads. -/
structure FaultCode where
  protection : Bool
  write : Bool
  user : Bool
  execute : Bool
deriving DecidableEq, Repr

def pgFault (a : Arch) (E : Env) (r : ℕ) (code : FaultCode) (faultVa : ℕ) (v : State) : Bool × State :=
  if faultVa < pgSize ∨ a.userSpaceTop ≤ faultVa ∨ code.protection ∨ !code.user then (false, v)
  else
    let va := faultVa / pgSize * pgSize
    match (getPte a E r va false v.pmm).1 with
    | none => (false, v)
    | some s =>
      let entry := v.pmm.mem s.1 s.2
      if entry = 0 ∨ a.ptePresent entry ∨ entry &&& entryHasPermissions = 0 ∨
          code.write ∧ entry &&& entryWrite = 0 ∨ code.execute ∧ entry &&& entryExecute = 0 then (false, v)
      else
        let result := swapIn a E r va v
        (result.1 == .none, result.2)

/-! ## Tearing an address space down -/

/-- A leaf entry of `free_user_pt_subtree`. -/
def freeLeafEntry (a : Arch) (entry : Word) (v : State) : State :=
  if !a.ptePresent entry then
    if entry ≠ 0 then releaseEntry entry v else v
  else
    let page := physToPage (a.pteAddr entry)
    let count := if 0 < v.pmm.refCount page then v.pmm.refCount page - 1 else v.pmm.refCount page
    let v := { v with pmm := { v.pmm with refCount := fun f => if f = page then count else v.pmm.refCount f } }
    if count = 0 then
      let v := unlink page v
      { v with pmm := freePages page 1 v.pmm }
    else v

def freeTableEntry (a : Arch) (sub : ℕ → State → State) (entry : Word) (v : State) : State :=
  match a.tableOf entry with
  | none => v
  | some table =>
    let v := sub table v
    { v with pmm := freeTablePage table v.pmm }

def freeUserPtSubtree (a : Arch) : ℕ → ℕ → State → State
  | 0, table, v => pageTableEntries.foldl (fun v i => freeLeafEntry a (v.pmm.mem table i) v) v
  | depth + 1, table, v =>
    pageTableEntries.foldl (fun v i =>
      freeTableEntry a (fun t v => freeUserPtSubtree a depth t v) (v.pmm.mem table i) v) v

def freeUserPgdir (a : Arch) (r : ℕ) (v : State) : State :=
  let v := userTopEntries.foldl (fun v i =>
    freeTableEntry a (freeUserPtSubtree a (a.ptWalkLevels - 2)) (v.pmm.mem r i) v) v
  { v with pmm := kfree r v.pmm, spaces := v.spaces.erase r }

end Zonix.Vm
