import Mathlib
import Zonix.Vm.Pte

/-!
# The bits of an entry

Every predicate of `page.h` on an entry is one of its bits, and an address put into an entry is read back from it.
-/

namespace Zonix.Vm

open Zonix.Lib.Bits

theorem and_eq_zero_iff (w c : Word) : w &&& c = 0 ↔ ∀ j < 64, c.getLsbD j = true → w.getLsbD j = false := by
  constructor
  · intro h j hj hc
    have hb := congrArg (BitVec.getLsbD · j) h
    simpa [BitVec.getLsbD_and, hc] using hb
  · intro h
    apply BitVec.eq_of_getLsbD_eq
    intro j hj
    cases hc : c.getLsbD j with
    | false => simp [BitVec.getLsbD_and, hc]
    | true => simp [BitVec.getLsbD_and, hc, h j hj hc]

theorem and_shl_ne_zero (w : Word) (k : ℕ) (hk : k < 64) : (w &&& 1#64 <<< k != 0) = w.getLsbD k := by
  have h : (1#64 <<< k) = BitVec.twoPow 64 k := rfl
  have hz : w &&& 1#64 <<< k = 0 ↔ w.getLsbD k = false := by
    rw [and_eq_zero_iff, h]
    constructor
    · intro hall
      exact hall k hk (by simp [hk])
    · intro hw j hj hc
      simp [BitVec.getLsbD_twoPow] at hc
      rw [← hc.2]
      exact hw
  cases hb : w.getLsbD k with
  | false => simpa using hz.2 hb
  | true =>
    have hne : w &&& 1#64 <<< k ≠ 0 := fun h0 => by rw [hz.1 h0] at hb; cases hb
    simpa using hne

theorem and_shl_eq_zero (w : Word) (k : ℕ) (hk : k < 64) : (w &&& 1#64 <<< k == 0) = !w.getLsbD k := by
  rw [← and_shl_ne_zero w k hk, bne, Bool.not_not]

namespace X86

theorem ptePresent_bit (w : Word) : ptePresent w = w.getLsbD 0 := and_shl_ne_zero w 0 (by norm_num)
theorem pteWritable_bit (w : Word) : pteWritable w = w.getLsbD 1 := and_shl_ne_zero w 1 (by norm_num)
theorem pteUser_bit (w : Word) : pteUser w = w.getLsbD 2 := and_shl_ne_zero w 2 (by norm_num)
theorem pteIsBlock_bit (w : Word) : pteIsBlock w = w.getLsbD 7 := and_shl_ne_zero w 7 (by norm_num)
theorem pteExecutable_bit (w : Word) : pteExecutable w = !w.getLsbD 63 := and_shl_eq_zero w 63 (by norm_num)
theorem pat_bit (w : Word) : (w &&& ptePatLarge != 0) = w.getLsbD 12 := and_shl_ne_zero w 12 (by norm_num)

end X86

namespace AArch64

theorem ptePresent_bit (w : Word) : ptePresent w = w.getLsbD 0 := and_shl_ne_zero w 0 (by norm_num)
theorem pteWritable_bit (w : Word) : pteWritable w = !w.getLsbD 7 := and_shl_eq_zero w 7 (by norm_num)
theorem pteUser_bit (w : Word) : pteUser w = w.getLsbD 6 := and_shl_ne_zero w 6 (by norm_num)
theorem pteExecutable_bit (w : Word) : pteExecutable w = !w.getLsbD 54 := and_shl_eq_zero w 54 (by norm_num)
theorem ptePXN_bit (w : Word) : (w &&& ptePXN == 0) = !w.getLsbD 53 := and_shl_eq_zero w 53 (by norm_num)
theorem pteTableUser_bit (w : Word) : pteTableUser w = !w.getLsbD 61 := and_shl_eq_zero w 61 (by norm_num)
theorem pteTableWritable_bit (w : Word) : pteTableWritable w = !w.getLsbD 62 := and_shl_eq_zero w 62 (by norm_num)

theorem pteTypeMask_bits : ∀ j < 64, pteTypeMask.getLsbD j = decide (j < 2) := by decide +kernel

theorem pteIsBlock_bit (w : Word) : pteIsBlock w = (w.getLsbD 0 && !w.getLsbD 1) := by
  have hiff : w &&& pteTypeMask = pteValid ↔ w.getLsbD 0 = true ∧ w.getLsbD 1 = false := by
    constructor
    · intro h
      have h0 := congrArg (BitVec.getLsbD · 0) h
      have h1 := congrArg (BitVec.getLsbD · 1) h
      simp only [BitVec.getLsbD_and] at h0 h1
      exact ⟨by simpa [pteTypeMask, pteValid, pteTable] using h0, by simpa [pteTypeMask, pteValid, pteTable] using h1⟩
    · intro h
      apply BitVec.eq_of_getLsbD_eq
      intro j hj
      rw [BitVec.getLsbD_and, pteTypeMask_bits j hj]
      have hv : pteValid.getLsbD j = decide (j = 0) := by
        revert j; decide +kernel
      rw [hv]
      obtain rfl | rfl | hj2 : j = 0 ∨ j = 1 ∨ 2 ≤ j := by omega
      · simp [h.1]
      · rw [h.2]
        rfl
      · have : ¬ j < 2 := by omega
        have h0 : j ≠ 0 := by omega
        simp [this, h0]
  unfold pteIsBlock
  rw [Bool.eq_iff_iff]
  simp only [beq_iff_eq, hiff, Bool.and_eq_true, Bool.not_eq_true']

end AArch64

namespace Riscv

theorem ptePresent_bit (w : Word) : ptePresent w = w.getLsbD 0 := and_shl_ne_zero w 0 (by norm_num)
theorem pteReadable_bit (w : Word) : pteReadable w = w.getLsbD 1 := and_shl_ne_zero w 1 (by norm_num)
theorem pteWritable_bit (w : Word) : pteWritable w = w.getLsbD 2 := and_shl_ne_zero w 2 (by norm_num)
theorem pteExecutable_bit (w : Word) : pteExecutable w = w.getLsbD 3 := and_shl_ne_zero w 3 (by norm_num)
theorem pteUser_bit (w : Word) : pteUser w = w.getLsbD 4 := and_shl_ne_zero w 4 (by norm_num)

theorem pteLeaf_bits : ∀ j < 64, (pteR ||| pteW ||| pteX).getLsbD j = decide (1 ≤ j ∧ j ≤ 3) := by decide +kernel

theorem pteIsBlock_bit (w : Word) : pteIsBlock w = (w.getLsbD 1 || w.getLsbD 2 || w.getLsbD 3) := by
  have hiff : w &&& (pteR ||| pteW ||| pteX) = 0 ↔
      w.getLsbD 1 = false ∧ w.getLsbD 2 = false ∧ w.getLsbD 3 = false := by
    rw [and_eq_zero_iff]
    constructor
    · intro h
      exact ⟨h 1 (by norm_num) (by decide), h 2 (by norm_num) (by decide), h 3 (by norm_num) (by decide)⟩
    · intro h j hj hc
      rw [pteLeaf_bits j hj, decide_eq_true_eq] at hc
      obtain rfl | rfl | rfl : j = 1 ∨ j = 2 ∨ j = 3 := by omega
      · exact h.1
      · exact h.2.1
      · exact h.2.2
  unfold pteIsBlock pteIsLeaf
  rw [Bool.eq_iff_iff]
  simp only [bne_iff_ne, ne_eq, hiff, Bool.or_eq_true]
  grind

end Riscv

def Arch.paBits : Arch → ℕ
  | x86 => 52
  | aarch64 => 48
  | riscv64 => 56

/-- The address is a multiple of `2 ^ s` that an entry can hold. -/
def Arch.Fits (a : Arch) (pa : Word) (s : ℕ) : Prop := ∀ j, pa.getLsbD j = true → s ≤ j ∧ j < a.paBits

theorem X86.pteAddrMask_bits : ∀ j < 64, X86.pteAddrMask.getLsbD j = decide (12 ≤ j ∧ j < 52) := by decide +kernel

theorem AArch64.pteAddrMask_bits : ∀ j < 64, AArch64.pteAddrMask.getLsbD j = decide (12 ≤ j ∧ j < 48) := by
  decide +kernel

variable {s : ℕ} {pa : Word}

theorem Arch.Fits.low {a : Arch} {j : ℕ} (h : a.Fits pa s) (hj : j < s) : pa.getLsbD j = false := by
  cases hb : pa.getLsbD j with
  | false => rfl
  | true => have := (h j hb).1; omega

theorem Arch.Fits.high {a : Arch} {j : ℕ} (h : a.Fits pa s) (hj : a.paBits ≤ j) :
    pa.getLsbD j = false := by
  cases hb : pa.getLsbD j with
  | false => rfl
  | true => have := (h j hb).2; omega

theorem fits_pageToPhys (a : Arch) (f : ℕ) (hf : f < 2 ^ 32) : a.Fits (pageToPhys f) 12 := by
  intro j hj
  have h44 : 44 ≤ a.paBits := by cases a <;> decide
  have hb : (pageToPhys f).getLsbD j = (decide (j < 64) && (decide (12 ≤ j) && f.testBit (j - 12))) := by
    rw [pageToPhys, BitVec.getLsbD_ofNat, show f * pgSize = 2 ^ 12 * f by rw [pgSize]; omega,
      Nat.testBit_two_pow_mul]
  simp only [hb, Bool.and_eq_true, decide_eq_true_eq] at hj
  refine ⟨hj.2.1, ?_⟩
  by_contra hlt
  have h0 : f.testBit (j - 12) = false :=
    Nat.testBit_lt_two_pow (lt_of_lt_of_le hf (Nat.pow_le_pow_right (by norm_num) (by omega)))
  rw [h0] at hj
  exact Bool.false_ne_true hj.2.2

theorem masked_or {m flags : Word} {n : ℕ} (hm : ∀ j < 64, m.getLsbD j = decide (12 ≤ j ∧ j < n)) (hs : 12 ≤ s)
    (hpa : ∀ j, pa.getLsbD j = true → s ≤ j ∧ j < n) (hf : ∀ j, s ≤ j → j < n → flags.getLsbD j = false) :
    (pa ||| flags) &&& m &&& ~~~(lowMask s) = pa := by
  apply BitVec.eq_of_getLsbD_eq
  intro j hj
  simp only [BitVec.getLsbD_and, BitVec.getLsbD_or, BitVec.getLsbD_not, hm j hj, getLsbD_lowMask, hj, decide_true,
    Bool.true_and]
  by_cases h : s ≤ j ∧ j < n
  · have h1 : ¬ j < s := by omega
    have h2 : 12 ≤ j := by omega
    simp [hf j h.1 h.2, h.2, h1, h2]
  · have h0 : pa.getLsbD j = false := by
      cases hb : pa.getLsbD j with
      | false => rfl
      | true => exact absurd (hpa j hb) h
    have h1 : (decide (12 ≤ j ∧ j < n) && !decide (j < s)) = false := by
      rw [Bool.and_eq_false_iff, decide_eq_false_iff_not, Bool.not_eq_false', decide_eq_true_eq]
      omega
    rw [h0, Bool.and_assoc, h1, Bool.and_false]

theorem shifted_or {flags : Word} (hs : 12 ≤ s) (hpa : ∀ j, pa.getLsbD j = true → s ≤ j)
    (hf : ∀ j, 10 ≤ j → flags.getLsbD j = false) :
    (((pa >>> 12) <<< 10 ||| flags) >>> 10) <<< 12 &&& ~~~(lowMask s) = pa := by
  apply BitVec.eq_of_getLsbD_eq
  intro j hj
  simp only [BitVec.getLsbD_and, BitVec.getLsbD_or, BitVec.getLsbD_not, BitVec.getLsbD_shiftLeft,
    BitVec.getLsbD_ushiftRight, getLsbD_lowMask, hj, decide_true, Bool.true_and]
  by_cases h : s ≤ j
  · have h1 : ¬ j < s := by omega
    have h2 : ¬ j < 12 := by omega
    have h3 : 10 + (j - 12) < 64 := by omega
    rw [hf (10 + (j - 12)) (by omega), show 12 + (10 + (j - 12) - 10) = j by omega]
    simp [h1, h2, h3]
  · have h1 : j < s := by omega
    have h0 : pa.getLsbD j = false := by
      cases hb : pa.getLsbD j with
      | false => rfl
      | true => exact absurd (hpa j hb) h
    simp [h1, h0]

theorem levelShift_ge (l : ℕ) : 12 ≤ levelShift l := by unfold levelShift; omega

namespace Arch

theorem leafBase_zero (a : Arch) (w : Word) : a.leafBase w 0 = a.pteAddr w := by
  have hlow : ∀ j < 12, (a.pteAddr w).getLsbD j = false := by
    intro j hj
    cases a with
    | x86 =>
      have hm : ¬ (12 ≤ j ∧ j < 52) := by omega
      rw [pteAddr, X86.pteAddr, BitVec.getLsbD_and, X86.pteAddrMask_bits j (by omega)]
      simp [hm]
    | aarch64 =>
      have hm : ¬ (12 ≤ j ∧ j < 48) := by omega
      rw [pteAddr, AArch64.pteAddr, BitVec.getLsbD_and, AArch64.pteAddrMask_bits j (by omega)]
      simp [hm]
    | riscv64 => simp [pteAddr, Riscv.pteAddr, hj]
  apply BitVec.eq_of_getLsbD_eq
  intro j hj
  rw [leafBase, BitVec.getLsbD_and, BitVec.getLsbD_not, getLsbD_lowMask]
  by_cases h : j < 12
  · simp [hlow j h]
  · have h1 : ¬ j < levelShift 0 := h
    simp [hj, h1]

theorem Fits.mono {a : Arch} {t : ℕ} (h : a.Fits pa s) (hst : t ≤ s) : a.Fits pa t :=
  fun j hj => ⟨hst.trans (h j hj).1, (h j hj).2⟩

theorem ptePresent_zero (a : Arch) : a.ptePresent 0 = false := by cases a <;> rfl

theorem ptePresent_bit (a : Arch) (w : Word) : a.ptePresent w = w.getLsbD 0 := by
  cases a with
  | x86 => exact X86.ptePresent_bit w
  | aarch64 => exact AArch64.ptePresent_bit w
  | riscv64 => exact Riscv.ptePresent_bit w

theorem ne_zero_of_present {a : Arch} {w : Word} (h : a.ptePresent w) : w ≠ 0 := by
  intro h0
  rw [h0, ptePresent_zero] at h
  cases h

end Arch

theorem physToPage_pageToPhys {f : ℕ} (hf : f < 2 ^ 32) : physToPage (pageToPhys f) = f := by
  rw [physToPage, pageToPhys, BitVec.toNat_ofNat, pgSize, Nat.mod_eq_of_lt (by omega)]
  omega

end Zonix.Vm
