import Mathlib

namespace Zonix.Lib.Bits

variable {w : ℕ}

/-- The low `s` bits: `(1 << s) - 1`. -/
def lowMask (s : ℕ) : BitVec w := BitVec.ofNat w (2 ^ s - 1)

theorem getLsbD_lowMask (s j : ℕ) :
    (lowMask s : BitVec w).getLsbD j = (decide (j < w) && decide (j < s)) := by
  rw [lowMask, BitVec.getLsbD_ofNat, Nat.testBit_two_pow_sub_one]

theorem getLsbD_of_lt {x : BitVec w} {k j : ℕ} (hx : x.toNat < 2 ^ k) (hj : k ≤ j) : x.getLsbD j = false := by
  rw [← BitVec.testBit_toNat]
  exact Nat.testBit_lt_two_pow (lt_of_lt_of_le hx (Nat.pow_le_pow_right (by norm_num) hj))

theorem toNat_and_not_lowMask (x : BitVec w) (s : ℕ) :
    (x &&& ~~~(lowMask s)).toNat = x.toNat / 2 ^ s * 2 ^ s := by
  apply Nat.eq_of_testBit_eq
  intro j
  rw [BitVec.testBit_toNat, mul_comm, Nat.testBit_two_pow_mul, Nat.testBit_div_two_pow]
  simp only [BitVec.getLsbD_and, BitVec.getLsbD_not, getLsbD_lowMask]
  by_cases hj : j < w
  · by_cases h : j < s
    · simp [hj, h]
    · have h' : s ≤ j := by omega
      simp [hj, h, h', BitVec.testBit_toNat]
  · have hx : x.getLsbD j = false := BitVec.getLsbD_of_ge x j (by omega)
    by_cases h : s ≤ j
    · simp [hj, h, BitVec.testBit_toNat, hx]
    · simp [hj, h]

theorem shiftLeft_toNat {i : BitVec w} {s k : ℕ} (hi : i.toNat < 2 ^ k) (hk : k + s ≤ w) :
    (i <<< s).toNat = i.toNat * 2 ^ s := by
  rw [BitVec.toNat_shiftLeft, Nat.shiftLeft_eq, Nat.mod_eq_of_lt]
  calc i.toNat * 2 ^ s < 2 ^ k * 2 ^ s := Nat.mul_lt_mul_of_pos_right hi (by positivity)
    _ = 2 ^ (k + s) := (pow_add 2 k s).symm
    _ ≤ 2 ^ w := Nat.pow_le_pow_right (by norm_num) hk

end Zonix.Lib.Bits
