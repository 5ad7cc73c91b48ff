import Mathlib
import Zonix.Vm.PteBits

/-!
# Entries made by the kernel

`make_pte_page` and `make_pte_table`: what the predicates of the same header read in them.
-/

namespace Zonix.Vm

open Zonix.Lib.Bits

namespace Arch

variable {a : Arch} {pa w w' : Word}

/-! ## Address and flags -/

/-- Where an entry holds the address `pa`. -/
def placed (a : Arch) (pa : Word) : Word :=
  match a with
  | riscv64 => (pa >>> 12) <<< 10
  | _ => pa

/-- The bits of an entry that are not part of the address. -/
def flagBit (a : Arch) (j : ℕ) : Bool :=
  match a with
  | riscv64 => j < 10
  | _ => j < 12 || a.paBits ≤ j

theorem placed_flag (h : a.Fits pa 12) (flags : Word) {j : ℕ} (hj : a.flagBit j = true) :
    (a.placed pa ||| flags).getLsbD j = flags.getLsbD j := by
  have hout : (a.placed pa).getLsbD j = false := by
    cases a with
    | riscv64 =>
      have hj : j < 10 := of_decide_eq_true hj
      simp [placed, hj]
    | x86 =>
      rcases (by simpa [flagBit] using hj) with hj | hj
      · exact h.low hj
      · exact h.high hj
    | aarch64 =>
      rcases (by simpa [flagBit] using hj) with hj | hj
      · exact h.low hj
      · exact h.high hj
  rw [BitVec.getLsbD_or, hout, Bool.false_or]

theorem pteAddr_placed (h : a.Fits pa 12) {flags : Word}
    (hf : ∀ j < 64, a.flagBit j = false → flags.getLsbD j = false) : a.pteAddr (a.placed pa ||| flags) = pa := by
  rw [← leafBase_zero]
  cases a with
  | x86 =>
    apply masked_or X86.pteAddrMask_bits (le_refl 12) h
    intro j h1 h2
    exact hf j (by omega) (by simp [flagBit, paBits, h1, Nat.not_le.2 h2])
  | aarch64 =>
    apply masked_or AArch64.pteAddrMask_bits (le_refl 12) h
    intro j h1 h2
    exact hf j (by omega) (by simp [flagBit, paBits, h1, Nat.not_le.2 h2])
  | riscv64 =>
    apply shifted_or (le_refl 12) (fun j hj => (h j hj).1)
    intro j h1
    by_cases h64 : j < 64
    · exact hf j h64 (by simp [flagBit, h1])
    · exact BitVec.getLsbD_of_ge _ _ (by omega)

theorem predicates_congr (h : ∀ j, a.flagBit j = true → w.getLsbD j = w'.getLsbD j) :
    a.ptePresent w = a.ptePresent w' ∧ a.pteWritable w = a.pteWritable w' ∧ a.pteUser w = a.pteUser w' ∧
      a.pteExecutable w = a.pteExecutable w' ∧ a.pteIsBlock w = a.pteIsBlock w' ∧ a.limits w = a.limits w' ∧
      (∀ write, a.pteUserAccessible w write = a.pteUserAccessible w' write) ∧
      ∀ write, a.pteUserTableAccessible w write = a.pteUserTableAccessible w' write := by
  cases a with
  | x86 =>
    simp only [ptePresent, pteWritable, pteUser, pteExecutable, pteIsBlock, limits, pteUserAccessible,
      pteUserTableAccessible, X86.pteUserAccessible, X86.pteUserTableAccessible, X86.ptePresent_bit,
      X86.pteWritable_bit, X86.pteUser_bit, X86.pteExecutable_bit, X86.pteIsBlock_bit, h 0 rfl, h 1 rfl, h 2 rfl,
      h 7 rfl, h 63 rfl, implies_true, and_self]
  | aarch64 =>
    simp only [ptePresent, pteWritable, pteUser, pteExecutable, pteIsBlock, limits, pteUserAccessible,
      pteUserTableAccessible, AArch64.pteUserAccessible, AArch64.pteUserTableAccessible, AArch64.ptePresent_bit,
      AArch64.pteWritable_bit, AArch64.pteUser_bit, AArch64.pteExecutable_bit, AArch64.pteIsBlock_bit,
      AArch64.pteTableUser_bit, AArch64.pteTableWritable_bit, h 0 rfl, h 1 rfl, h 6 rfl, h 7 rfl, h 54 rfl, h 59 rfl,
      h 60 rfl, h 61 rfl, h 62 rfl, implies_true, and_self]
  | riscv64 =>
    simp only [ptePresent, pteWritable, pteUser, pteExecutable, pteIsBlock, limits, pteUserAccessible,
      pteUserTableAccessible, Riscv.pteUserAccessible, Riscv.pteUserTableAccessible, Riscv.ptePresent_bit,
      Riscv.pteWritable_bit, Riscv.pteUser_bit, Riscv.pteExecutable_bit, Riscv.pteReadable_bit, Riscv.pteIsBlock_bit,
      h 0 rfl, h 1 rfl, h 2 rfl, h 3 rfl, h 4 rfl, implies_true, and_self]

/-! ## Page entries -/

/-- The bits that `make_pte_page` adds to the address. -/
def pageFlags (a : Arch) (perm : VmFlags) : Word := a.makePtePage 0 perm

theorem makePtePage_eq (a : Arch) (pa : Word) (perm : VmFlags) :
    a.makePtePage pa perm = a.placed pa ||| a.pageFlags perm := by
  cases a with
  | x86 => simp [makePtePage, X86.makePtePage, pageFlags, placed, BitVec.or_assoc]
  | aarch64 => simp [makePtePage, AArch64.makePtePage, pageFlags, placed]
  | riscv64 => simp [makePtePage, Riscv.makePtePage, pageFlags, placed, BitVec.or_assoc]

structure IsPage (a : Arch) (w : Word) (pa : Word) (perm : VmFlags) : Prop where
  present : a.ptePresent w
  addr : a.pteAddr w = pa
  writable : a.pteWritable w = perm.write
  user : a.pteUser w = perm.user
  executable : a.pteExecutable w = !perm.noexec
  accessible : ∀ write, a.pteUserAccessible w write = (perm.user && (!write || perm.write))

theorem pageFlags_read (a : Arch) (perm : VmFlags) :
    a.ptePresent (a.pageFlags perm) = true ∧ a.pteWritable (a.pageFlags perm) = perm.write ∧
      a.pteUser (a.pageFlags perm) = perm.user ∧ a.pteExecutable (a.pageFlags perm) = !perm.noexec ∧
      ∀ write, a.pteUserAccessible (a.pageFlags perm) write = (perm.user && (!write || perm.write)) := by
  obtain ⟨w, u, n, x⟩ := perm
  cases a <;> cases w <;> cases u <;> cases n <;> cases x <;> decide

theorem pageFlags_flagBit (a : Arch) (perm : VmFlags) :
    ∀ j < 64, a.flagBit j = false → (a.pageFlags perm).getLsbD j = false := by
  obtain ⟨w, u, n, x⟩ := perm
  cases a <;> cases w <;> cases u <;> cases n <;> cases x <;> decide +kernel

theorem isPage_makePtePage (a : Arch) {pa : Word} (perm : VmFlags) (h : a.Fits pa 12) :
    a.IsPage (a.makePtePage pa perm) pa perm := by
  rw [makePtePage_eq]
  obtain ⟨hP, hW, hU, hX, -, -, hA, -⟩ := predicates_congr fun _ => placed_flag h (a.pageFlags perm)
  obtain ⟨fP, fW, fU, fX, fA⟩ := a.pageFlags_read perm
  exact ⟨hP.trans fP, pteAddr_placed h (a.pageFlags_flagBit perm), hW.trans fW, hU.trans fU, hX.trans fX,
    fun write => (hA write).trans (fA write)⟩

/-! ## Table entries -/

structure IsTable (a : Arch) (w : Word) (pa : Word) : Prop where
  present : a.ptePresent w
  table : a.pteIsBlock w = false
  addr : a.pteAddr w = pa
  limits : a.limits w = ⟨false, false, false, false⟩
  accessible : ∀ write, a.pteUserTableAccessible w write

/-- The bits that `make_pte_table` adds to the address. -/
def tableFlags : Arch → Word
  | x86 => 7
  | aarch64 => 3
  | riscv64 => 1

theorem makePteTable_eq (a : Arch) (pa : Word) : a.makePteTable pa = a.placed pa ||| a.tableFlags := by
  cases a with
  | x86 =>
    simp only [makePteTable, X86.makePteTable, BitVec.or_assoc]
    rfl
  | aarch64 =>
    simp only [makePteTable, AArch64.makePteTable, BitVec.or_assoc]
    rfl
  | riscv64 => rfl

theorem tableFlags_read (a : Arch) :
    a.ptePresent a.tableFlags = true ∧ a.pteIsBlock a.tableFlags = false ∧
      a.limits a.tableFlags = ⟨false, false, false, false⟩ ∧
      ∀ write, a.pteUserTableAccessible a.tableFlags write = true := by
  cases a <;> decide

theorem tableFlags_flagBit (a : Arch) : ∀ j < 64, a.flagBit j = false → a.tableFlags.getLsbD j = false := by
  cases a <;> decide +kernel

theorem isTable_makePteTable (a : Arch) {pa : Word} (h : a.Fits pa 12) : a.IsTable (a.makePteTable pa) pa := by
  rw [makePteTable_eq]
  obtain ⟨hP, -, -, -, hB, hL, -, hT⟩ := predicates_congr fun _ => placed_flag h a.tableFlags
  obtain ⟨fP, fB, fL, fT⟩ := a.tableFlags_read
  exact ⟨hP.trans fP, hB.trans fB, pteAddr_placed h a.tableFlags_flagBit, hL.trans fL,
    fun write => (hT write).trans (fT write)⟩

end Arch

end Zonix.Vm
