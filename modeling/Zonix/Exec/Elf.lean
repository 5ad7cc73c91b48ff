import Mathlib
import Zonix.Base.Word
import Zonix.Lib.Blit
import Zonix.Lib.Bytes
import Zonix.Lib.Prog
import Zonix.Vm.PageTable

/-!
# The ELF loader

`elf::validate` and `elf::load` of `kernel/exec/elf_loader.cpp`, `setup_user_stack` of `kernel/exec/exec.cpp`. Reads
of the file are recorded with their address and length, and so is whether a sum, difference or product of addresses
and sizes wrapped.
-/

namespace Zonix.Exec

open Zonix.Vm Zonix.Lib.Radix Prog

/-- A buffer of `size` bytes at address `base`; `bytes` is what is in memory from `base` on. -/
structure Buffer where
  base : ℕ
  size : ℕ
  bytes : ℕ → BitVec 8
  fits : base + size < 2 ^ 64

structure LoadState where
  pmm : Pmm
  reads : List (ℕ × ℕ)
  wrapped : Bool

inductive Stop where
  | error (e : Error)
  | assertion
  | stuck
deriving DecidableEq, Repr

abbrev Load := Prog LoadState Stop

def add64 (x y : ℕ) : Load ℕ := fun s =>
  (.ok (u64 (x + y)), { s with wrapped := s.wrapped || decide (2 ^ 64 ≤ x + y) })

def sub64 (x y : ℕ) : Load ℕ := fun s =>
  (.ok (u64 (x + 2 ^ 64 - y)), { s with wrapped := s.wrapped || decide (x < y) })

def mul64 (x y : ℕ) : Load ℕ := fun s =>
  (.ok (u64 (x * y)), { s with wrapped := s.wrapped || decide (2 ^ 64 ≤ x * y) })

/-- Reading `n` bytes at an address. -/
def Buffer.read (b : Buffer) (address n : ℕ) : Load (ℕ → BitVec 8) := fun s =>
  (.ok fun i => b.bytes (address - b.base + i), { s with reads := s.reads ++ [(address, n)] })

/-! ## Headers -/

structure ElfHeader where
  magic : ℕ
  elf0 : ℕ
  type : ℕ
  machine : ℕ
  version : ℕ
  entry : ℕ
  phoff : ℕ
  ehsize : ℕ
  phentsize : ℕ
  phnum : ℕ
deriving DecidableEq, Repr

structure ProgramHeader where
  type : ℕ
  flags : ℕ
  offset : ℕ
  va : ℕ
  filesz : ℕ
  memsz : ℕ
deriving DecidableEq, Repr

def elfHeaderSize : ℕ := 64
def programHeaderSize : ℕ := 56
def elfPtLoad : ℕ := 1
def elfMagic : ℕ := 0x464C457F

def ElfHeader.decode (bs : ℕ → BitVec 8) : ElfHeader where
  magic := leNat bs 0 4
  elf0 := leNat bs 4 1
  type := leNat bs 16 2
  machine := leNat bs 18 2
  version := leNat bs 20 4
  entry := leNat bs 24 8
  phoff := leNat bs 32 8
  ehsize := leNat bs 52 2
  phentsize := leNat bs 54 2
  phnum := leNat bs 56 2

def ProgramHeader.decode (bs : ℕ → BitVec 8) : ProgramHeader where
  type := leNat bs 0 4
  flags := leNat bs 4 4
  offset := leNat bs 8 8
  va := leNat bs 16 8
  filesz := leNat bs 32 8
  memsz := leNat bs 40 8

/-- `EM_CURRENT`. -/
def emCurrent : Arch → ℕ
  | .x86 => 0x3E
  | .aarch64 => 0xB7
  | .riscv64 => 0xF3

def ElfHeader.isValid (a : Arch) (eh : ElfHeader) : Bool :=
  eh.magic == elfMagic && eh.elf0 == 2 && eh.version == 1 && eh.machine == emCurrent a

def ElfHeader.isExecutable (a : Arch) (eh : ElfHeader) : Bool :=
  eh.isValid a && eh.type == 2 && eh.phoff != 0 && eh.phnum != 0

/-- `p_flags & ELF_PF_X`, `p_flags & ELF_PF_W`. -/
def ProgramHeader.executable (ph : ProgramHeader) : Bool := ph.flags.testBit 0
def ProgramHeader.writable (ph : ProgramHeader) : Bool := ph.flags.testBit 1

def readHeader (b : Buffer) : Load ElfHeader := do
  let bs ← b.read b.base elfHeaderSize
  pure (.decode bs)

/-! ## `elf::validate` -/

def userStackSize : ℕ := 4 * pgSize

def ensureValid (c : Prop) [Decidable c] : Load Unit := ensure c (.error .invalid)

def validateSegment (a : Arch) (fileSize : ℕ) (eh : ElfHeader) (ph : ProgramHeader) : Load Bool :=
  if ph.type ≠ elfPtLoad then pure false
  else do
    ensureValid (ph.filesz ≤ ph.memsz)
    ensureValid (ph.offset ≤ fileSize)
    let room ← sub64 fileSize ph.offset
    ensureValid (ph.filesz ≤ room)
    if ph.memsz = 0 then pure false
    else do
      ensureValid (pgSize ≤ ph.va ∧ ph.va < a.userSpaceTop)
      let space ← sub64 a.userSpaceTop ph.va
      ensureValid (ph.memsz ≤ space)
      let stop ← add64 ph.va ph.memsz
      ensureValid (stop ≤ a.userStackTop - userStackSize ∨ a.userStackTop ≤ ph.va)
      pure (ph.executable && decide (ph.va ≤ eh.entry) && decide (eh.entry < stop))

/-- `memcpy(&ph, data + eh->e_phoff + i * sizeof(ProgramHeader), sizeof(ph))`. -/
def readTableEntry (b : Buffer) (eh : ElfHeader) (i : ℕ) : Load ProgramHeader := do
  let table ← add64 b.base eh.phoff
  let offset ← mul64 i programHeaderSize
  let address ← add64 table offset
  let bs ← b.read address programHeaderSize
  pure (.decode bs)

def validateLoop (a : Arch) (b : Buffer) (eh : ElfHeader) : ℕ → ℕ → Bool → Load Bool
  | 0, _, executableEntry => pure executableEntry
  | n + 1, i, executableEntry => do
    let ph ← readTableEntry b eh i
    let found ← validateSegment a b.size eh ph
    validateLoop a b eh n (i + 1) (executableEntry || found)

def validate (a : Arch) (b : Buffer) : Load Unit := do
  ensureValid (elfHeaderSize ≤ b.size)
  let eh ← readHeader b
  ensureValid (eh.isValid a ∧ eh.isExecutable a)
  ensureValid (eh.ehsize = elfHeaderSize ∧ eh.phentsize = programHeaderSize)
  ensureValid (elfHeaderSize ≤ eh.phoff ∧ eh.phoff ≤ b.size)
  let tableSize ← mul64 eh.phnum programHeaderSize
  let room ← sub64 b.size eh.phoff
  ensureValid (tableSize ≤ room)
  ensureValid (pgSize ≤ eh.entry ∧ eh.entry < a.userSpaceTop)
  let executableEntry ← validateLoop a b eh eh.phnum 0 false
  ensureValid (executableEntry = true)

/-! ## `elf::load` -/

def pageByte (ws : Fin 512 → Word) (j : ℕ) : BitVec 8 :=
  BitVec.ofNat 8 ((ws ⟨j / 8 % 512, Nat.mod_lt _ (by norm_num)⟩).toNat / 256 ^ (j % 8))

def ofBytes (bs : ℕ → BitVec 8) : Fin 512 → Word := fun i => BitVec.ofNat 64 (leNat bs (8 * i) 8)

def mergeUserPagePerm (a : Arch) (entry : Word) (perm : VmFlags) : VmFlags :=
  userPagePerm (a.pteWritable entry || perm.write) (a.pteExecutable entry || !perm.noexec)

/-- `alloc_and_map_page` and `memset` of the new page. -/
def mapZeroed (a : Arch) (E : Env) (pgdir va : ℕ) (perm : VmFlags) : Load Unit := fun s =>
  match allocAndMapPage a E pgdir va perm s.pmm with
  | (none, m) => (.error (.error .noMem), { s with pmm := m })
  | (some page, m) => (.ok (), { s with pmm := { m with mem := fill m.mem page fun _ => 0 } })

def mapPage (a : Arch) (E : Env) (pgdir va : ℕ) (perm : VmFlags) : Load Unit := fun s =>
  match (getPte a E pgdir va false s.pmm).1 with
  | none => mapZeroed a E pgdir va perm s
  | some e =>
    let existing := s.pmm.mem e.1 e.2
    if a.ptePresent existing then
      (.ok (), { s with pmm := { s.pmm with
        mem := write s.pmm.mem e (a.makePtePage (a.pteAddr existing) (mergeUserPagePerm a existing perm)) } })
    else mapZeroed a E pgdir va perm s

/-- `for (va = ...; va < end; va += PG_SIZE)`. -/
def pageLoop (body : ℕ → Load Unit) : ℕ → ℕ → ℕ → Load Unit
  | 0, _, _ => fail .stuck
  | fuel + 1, va, stop =>
    if va < stop then do
      body va
      let next ← add64 va pgSize
      pageLoop body fuel next stop
    else pure ()

/-- The callback of `iterate_pages`, without the step of `src`. -/
def copyChunk (a : Arch) (E : Env) (b : Buffer) (pgdir va src chunk : ℕ) : Load Unit := do
  let s ← state
  match (getPte a E pgdir va false s.pmm).1 with
  | none => fail .assertion
  | some e =>
    let entry := s.pmm.mem e.1 e.2
    if a.ptePresent entry then do
      let page := physToPage (a.pteAddr entry)
      let bs ← b.read src chunk
      update fun s => { s with pmm := { s.pmm with
        mem := fill s.pmm.mem page (ofBytes (blit (pageByte (s.pmm.mem page)) (va % pgSize) bs 0 chunk)) } }
    else fail .assertion

/-- `iterate_pages` over the file bytes of a segment. -/
def copyLoop (a : Arch) (E : Env) (b : Buffer) (pgdir : ℕ) : ℕ → ℕ → ℕ → ℕ → Load Unit
  | 0, _, _, _ => fail .stuck
  | fuel + 1, va, size, src =>
    if size = 0 then pure ()
    else do
      let chunk := min (pgSize - va % pgSize) size
      copyChunk a E b pgdir va src chunk
      let src ← add64 src chunk
      let va ← add64 va chunk
      let size ← sub64 size chunk
      copyLoop a E b pgdir fuel va size src

def loadSegment (a : Arch) (E : Env) (b : Buffer) (pgdir : ℕ) (ph : ProgramHeader) : Load Unit :=
  if ph.type ≠ elfPtLoad ∨ ph.memsz = 0 then pure ()
  else do
    let perm := userPagePerm ph.writable ph.executable
    let segStart := ph.va - ph.va % pgSize
    let stop ← add64 ph.va ph.memsz
    let up ← add64 stop pgSize
    let up ← sub64 up 1
    let segEnd := up / pgSize * pgSize
    pageLoop (mapPage a E pgdir · perm) (segEnd / pgSize + 1) segStart segEnd
    if 0 < ph.filesz then do
      let src ← add64 b.base ph.offset
      copyLoop a E b pgdir (ph.filesz + 1) ph.va ph.filesz src
    else pure ()

/-- `memcpy(&header, data + ph_offset, sizeof(header))`. -/
def readProgramHeader (b : Buffer) (eh : ElfHeader) (i : ℕ) : Load ProgramHeader := do
  let phOffset ← add64 eh.phoff (i * eh.phentsize)
  let address ← add64 b.base phOffset
  let bs ← b.read address programHeaderSize
  pure (.decode bs)

def loadLoop (a : Arch) (E : Env) (b : Buffer) (pgdir : ℕ) (eh : ElfHeader) : ℕ → ℕ → Load Unit
  | 0, _ => pure ()
  | n + 1, i => do
    let ph ← readProgramHeader b eh i
    loadSegment a E b pgdir ph
    loadLoop a E b pgdir eh n (i + 1)

def loadSegments (a : Arch) (E : Env) (b : Buffer) (pgdir : ℕ) : Load ℕ := do
  let eh ← readHeader b
  loadLoop a E b pgdir eh eh.phnum 0
  pure eh.entry

def load (a : Arch) (E : Env) (b : Buffer) (pgdir : ℕ) : Load ℕ := do
  validate a b
  loadSegments a E b pgdir

/-! ## `exec::setup_user_stack` -/

def vmUserRw : VmFlags := ⟨true, true, false, true⟩

def setupUserStack (a : Arch) (E : Env) (pgdir : ℕ) : Load ℕ := do
  let bottom ← sub64 a.userStackTop userStackSize
  pageLoop (mapZeroed a E pgdir · vmUserRw) (userStackSize / pgSize + 1) bottom a.userStackTop
  pure a.userStackTop

/-- The part of `UserImage::load` after the page table was created. -/
def loadImage (a : Arch) (E : Env) (b : Buffer) (pgdir : ℕ) : Load (ℕ × ℕ) := do
  let entry ← load a E b pgdir
  let stack ← setupUserStack a E pgdir
  pure (entry, stack)

end Zonix.Exec
