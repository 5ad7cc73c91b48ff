import Mathlib
import Zonix.Lib.Bits

/-!
# Page-table entries of the three architectures

`include/kernel/vm_flags.h` and `arch/{x86,aarch64,riscv64}/include/asm/page.h`. A level counts from the leaf:
level 0 maps 4 KiB pages, so `LEVEL_SHIFTS[level]` of the source is `levelShift` of what remains below.
-/

namespace Zonix.Vm

open Zonix.Lib.Bits

abbrev Word := BitVec 64

def pgSize : ℕ := 4096

def levelShift (l : ℕ) : ℕ := 12 + 9 * l

instance neZero_512 : NeZero 512 := ⟨by decide⟩

/-- `(va >> LEVEL_SHIFTS[level]) & 0x1FF`. -/
def levelIndex (va l : ℕ) : Fin 512 := ⟨va / 2 ^ levelShift l % 512, Nat.mod_lt _ (by norm_num)⟩

/-- A mapping request: the `VM_*` bits that `make_pte_page` reads. -/
structure VmFlags where
  write : Bool
  user : Bool
  nocache : Bool
  noexec : Bool
deriving DecidableEq, Repr

def userPagePerm (write executable : Bool) : VmFlags := ⟨write, true, false, !executable⟩

namespace X86

def pteP : Word := 0x001
def pteW : Word := 0x002
def pteU : Word := 0x004
def ptePWT : Word := 0x008
def ptePCD : Word := 0x010
def ptePS : Word := 0x080
def pteNX : Word := 1#64 <<< 63
def pteAddrMask : Word := 0x000FFFFFFFFFF000
def ptePatPage : Word := ptePS
def ptePatLarge : Word := 1#64 <<< 12

def pteAddr (pte : Word) : Word := pte &&& pteAddrMask

def pteIsBlock (entry : Word) : Bool := entry &&& ptePS != 0

def makePteTable (pa : Word) : Word := pa ||| pteP ||| pteW ||| pteU

def makePtePage (pa : Word) (perm : VmFlags) : Word :=
  pa ||| pteP ||| (if perm.write then pteW else 0) ||| (if perm.user then pteU else 0) |||
    (if perm.nocache then ptePCD ||| ptePWT else 0) ||| (if perm.noexec then pteNX else 0)

def splitPageEntry (entry pa : Word) (childShift : ℕ) : Word :=
  let flags := entry &&& ~~~(pteAddrMask ||| ptePS)
  let pat := entry &&& ptePatLarge != 0
  pa ||| (flags ||| (if 12 < childShift then ptePS ||| (if pat then ptePatLarge else 0)
    else if pat then ptePatPage else 0))

def ptePresent (entry : Word) : Bool := entry &&& pteP != 0
def pteWritable (entry : Word) : Bool := entry &&& pteW != 0
def pteUser (entry : Word) : Bool := entry &&& pteU != 0
def pteExecutable (entry : Word) : Bool := entry &&& pteNX == 0

def pteUserAccessible (entry : Word) (write : Bool) : Bool :=
  ptePresent entry && pteUser entry && (!write || pteWritable entry)

def pteUserTableAccessible (entry : Word) (write : Bool) : Bool := pteUserAccessible entry write

end X86

namespace AArch64

def pteValid : Word := 1#64 <<< 0
def pteTable : Word := 1#64 <<< 1
def pteBlock : Word := 0#64 <<< 1
def ptePage : Word := 1#64 <<< 1
def pteAF : Word := 1#64 <<< 10
def pteAttrDevice : Word := 1#64 <<< 2
def pteApUser : Word := 1#64 <<< 6
def pteApReadOnly : Word := 1#64 <<< 7
def pteApTableNoUser : Word := 1#64 <<< 61
def pteApTableReadOnly : Word := 1#64 <<< 62
def pteTypeMask : Word := pteValid ||| pteTable
def pteAddrMask : Word := 0x0000FFFFFFFFF000
def pteUXN : Word := 1#64 <<< 54
def ptePXN : Word := 1#64 <<< 53

def pteAddr (pte : Word) : Word := pte &&& pteAddrMask

def pteIsBlock (entry : Word) : Bool := entry &&& pteTypeMask == pteValid

def makePteTable (pa : Word) : Word := pa ||| pteValid ||| pteTable

def makePtePage (pa : Word) (perm : VmFlags) : Word :=
  pa ||| (pteValid ||| ptePage ||| pteAF ||| (if perm.write then 0 else pteApReadOnly) |||
    (if perm.user then pteApUser ||| ptePXN else 0) ||| (if perm.noexec then pteUXN ||| ptePXN else 0) |||
    (if perm.nocache then pteAttrDevice else 0))

def splitPageEntry (entry pa : Word) (childShift : ℕ) : Word :=
  let flags := entry &&& ~~~(pteAddrMask ||| pteTypeMask)
  pa ||| flags ||| pteValid ||| (if childShift = 12 then ptePage else pteBlock)

def ptePresent (entry : Word) : Bool := entry &&& pteValid != 0
def pteWritable (entry : Word) : Bool := entry &&& pteApReadOnly == 0
def pteUser (entry : Word) : Bool := entry &&& pteApUser != 0
def pteExecutable (entry : Word) : Bool := entry &&& pteUXN == 0

def pteUserAccessible (entry : Word) (write : Bool) : Bool :=
  ptePresent entry && pteUser entry && (!write || pteWritable entry)

def pteTableUser (entry : Word) : Bool := entry &&& pteApTableNoUser == 0
def pteTableWritable (entry : Word) : Bool := entry &&& pteApTableReadOnly == 0

def pteUserTableAccessible (entry : Word) (write : Bool) : Bool :=
  pteTableUser entry && (!write || pteTableWritable entry)

end AArch64

namespace Riscv

def pteV : Word := 1#64 <<< 0
def pteR : Word := 1#64 <<< 1
def pteW : Word := 1#64 <<< 2
def pteX : Word := 1#64 <<< 3
def pteU : Word := 1#64 <<< 4
def pteA : Word := 1#64 <<< 6
def pteD : Word := 1#64 <<< 7
def pteFlagsMask : Word := lowMask 10

def pteAddr (pte : Word) : Word := (pte >>> 10) <<< 12

def pteIsLeaf (pte : Word) : Bool := pte &&& (pteR ||| pteW ||| pteX) != 0

def pteIsBlock (pte : Word) : Bool := pteIsLeaf pte

def makePteTable (pa : Word) : Word := (pa >>> 12) <<< 10 ||| pteV

def makePtePage (pa : Word) (perm : VmFlags) : Word :=
  (pa >>> 12) <<< 10 ||| pteV ||| pteR ||| pteA ||| pteD ||| (if perm.write then pteW else 0) |||
    (if perm.user then pteU else 0) ||| (if perm.noexec then 0 else pteX)

def splitPageEntry (entry pa : Word) (_childShift : ℕ) : Word := (pa >>> 12) <<< 10 ||| (entry &&& pteFlagsMask)

def ptePresent (entry : Word) : Bool := entry &&& pteV != 0
def pteWritable (entry : Word) : Bool := entry &&& pteW != 0
def pteUser (entry : Word) : Bool := entry &&& pteU != 0
def pteReadable (entry : Word) : Bool := entry &&& pteR != 0
def pteExecutable (entry : Word) : Bool := entry &&& pteX != 0

def pteUserAccessible (entry : Word) (write : Bool) : Bool :=
  ptePresent entry && pteUser entry && pteReadable entry && (!write || pteWritable entry)

def pteUserTableAccessible (_entry : Word) (_write : Bool) : Bool := true

end Riscv

inductive Arch where
  | x86
  | aarch64
  | riscv64
deriving DecidableEq, Repr

namespace Arch

/-- `PT_WALK_LEVELS`. -/
def ptWalkLevels : Arch → ℕ
  | x86 | aarch64 => 4
  | riscv64 => 3

def userSpaceTop : Arch → ℕ
  | x86 | aarch64 => 0x0000800000000000
  | riscv64 => 0x0000004000000000

def userStackTop : Arch → ℕ
  | x86 | aarch64 => 0x00007FFFFFFFE000
  | riscv64 => 0x0000004000000000 - 2 * pgSize

def pteAddr : Arch → Word → Word
  | x86 => X86.pteAddr
  | aarch64 => AArch64.pteAddr
  | riscv64 => Riscv.pteAddr

def pteIsBlock : Arch → Word → Bool
  | x86 => X86.pteIsBlock
  | aarch64 => AArch64.pteIsBlock
  | riscv64 => Riscv.pteIsBlock

def makePteTable : Arch → Word → Word
  | x86 => X86.makePteTable
  | aarch64 => AArch64.makePteTable
  | riscv64 => Riscv.makePteTable

def makePtePage : Arch → Word → VmFlags → Word
  | x86 => X86.makePtePage
  | aarch64 => AArch64.makePtePage
  | riscv64 => Riscv.makePtePage

def splitPageEntry : Arch → Word → Word → ℕ → Word
  | x86 => X86.splitPageEntry
  | aarch64 => AArch64.splitPageEntry
  | riscv64 => Riscv.splitPageEntry

def ptePresent : Arch → Word → Bool
  | x86 => X86.ptePresent
  | aarch64 => AArch64.ptePresent
  | riscv64 => Riscv.ptePresent

def pteWritable : Arch → Word → Bool
  | x86 => X86.pteWritable
  | aarch64 => AArch64.pteWritable
  | riscv64 => Riscv.pteWritable

def pteUser : Arch → Word → Bool
  | x86 => X86.pteUser
  | aarch64 => AArch64.pteUser
  | riscv64 => Riscv.pteUser

def pteExecutable : Arch → Word → Bool
  | x86 => X86.pteExecutable
  | aarch64 => AArch64.pteExecutable
  | riscv64 => Riscv.pteExecutable

def pteUserAccessible : Arch → Word → Bool → Bool
  | x86 => X86.pteUserAccessible
  | aarch64 => AArch64.pteUserAccessible
  | riscv64 => Riscv.pteUserAccessible

def pteUserTableAccessible : Arch → Word → Bool → Bool
  | x86 => X86.pteUserTableAccessible
  | aarch64 => AArch64.pteUserTableAccessible
  | riscv64 => Riscv.pteUserTableAccessible

def mergeUserPagePerm (a : Arch) (entry : Word) (perm : VmFlags) : VmFlags :=
  userPagePerm (a.pteWritable entry || perm.write) (a.pteExecutable entry || !perm.noexec)

end Arch

/-- `page_to_phys`: the address of frame `f`. -/
def pageToPhys (f : ℕ) : Word := BitVec.ofNat 64 (f * pgSize)

/-- `phys_to_page`: the frame that holds the address `pa`. -/
def physToPage (pa : Word) : ℕ := pa.toNat / pgSize

/-! ## What the hardware reads in an entry -/

structure Limits where
  noUser : Bool
  noWrite : Bool
  noExec : Bool
  noKernelExec : Bool
deriving DecidableEq, Repr

/-- The access rights of a leaf; `memory` holds the attribute bits besides them (cache policy, shareability,
global, accessed, dirty, software bits), with the x86 PAT bit moved to one place for all page sizes. -/
structure Attrs where
  read : Bool
  write : Bool
  user : Bool
  exec : Bool
  kernelExec : Bool
  memory : Word
deriving DecidableEq, Repr

def Attrs.limit (x : Attrs) (r : Limits) : Attrs :=
  { x with user := x.user && !r.noUser, write := x.write && !r.noWrite, exec := x.exec && !r.noExec,
           kernelExec := x.kernelExec && !r.noKernelExec }

/-- On AArch64 bits 59 to 62 of a table descriptor are PXNTable, UXNTable and APTable; Sv39 has no such bits. -/
def Arch.limits (a : Arch) (w : Word) : Limits :=
  match a with
  | x86 => ⟨!X86.pteUser w, !X86.pteWritable w, !X86.pteExecutable w, !X86.pteExecutable w⟩
  | aarch64 => ⟨!AArch64.pteTableUser w, !AArch64.pteTableWritable w, w.getLsbD 60, w.getLsbD 59⟩
  | riscv64 => ⟨false, false, false, false⟩

def Arch.otherBits : Arch → Word
  | x86 => 0x7FF0000000000F78
  | aarch64 => 0xFF9F000000000F3C
  | riscv64 => 0xFFC00000000003E0

def X86.patBit (w : Word) (l : ℕ) : Bool := w.getLsbD (if l = 0 then 7 else 12)

def Arch.attrs (a : Arch) (w : Word) (l : ℕ) : Attrs :=
  match a with
  | x86 =>
    { read := true, write := X86.pteWritable w, user := X86.pteUser w, exec := X86.pteExecutable w,
      kernelExec := X86.pteExecutable w,
      memory := w &&& x86.otherBits ||| (if X86.patBit w l then X86.ptePatPage else 0) }
  | aarch64 =>
    { read := true, write := AArch64.pteWritable w, user := AArch64.pteUser w, exec := AArch64.pteExecutable w,
      kernelExec := w &&& AArch64.ptePXN == 0, memory := w &&& aarch64.otherBits }
  | riscv64 =>
    { read := Riscv.pteReadable w, write := Riscv.pteWritable w, user := Riscv.pteUser w,
      exec := Riscv.pteExecutable w, kernelExec := Riscv.pteExecutable w, memory := w &&& riscv64.otherBits }

def Arch.leafBase (a : Arch) (w : Word) (l : ℕ) : Word := a.pteAddr w &&& ~~~(lowMask (levelShift l))

/-- An entry that the architecture allows at level `l`: large leaves only for 2 MiB and 1 GiB, naturally aligned
(bit 12 of an x86 large leaf is its PAT bit), and the reserved bits of Sv39 clear. -/
def Arch.WellFormed (a : Arch) (w : Word) (l : ℕ) : Prop :=
  a.ptePresent w → a.pteIsBlock w → 0 < l → l ≤ 2 ∧
    match a with
    | x86 => a.pteAddr w &&& ~~~X86.ptePatLarge = a.leafBase w l
    | aarch64 => a.pteAddr w = a.leafBase w l
    | riscv64 => a.pteAddr w = a.leafBase w l ∧ w.toNat < 2 ^ 54

end Zonix.Vm
