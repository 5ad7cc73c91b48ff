import Mathlib.Data.BitVec
import Mathlib.Tactic.Ring

/-!
# Bitmaps packed into bytes, and searches that go round

Bit `i` of a packed bitmap is bit `i % 8` of byte `i / 8`. `around limit c k` is the `k`-th place of a round through
`1, …, limit - 1` that begins at `c`.
-/

namespace Zonix.Lib.Bitmap

def test (b : Array (BitVec 8)) (i : ℕ) : Bool := b.getD (i / 8) 0 &&& (1#8 <<< (i % 8)) != 0

def assign (b : Array (BitVec 8)) (i : ℕ) (value : Bool) : Array (BitVec 8) :=
  let mask := 1#8 <<< (i % 8)
  let byte := b.getD (i / 8) 0
  b.setIfInBounds (i / 8) (if value then byte ||| mask else byte &&& ~~~mask)

theorem and_bit_ne_zero (x : BitVec 8) {k : ℕ} (hk : k < 8) : (x &&& (1#8 <<< k) != 0) = x.getLsbD k := by
  rw [← BitVec.twoPow_eq, BitVec.and_twoPow]
  cases hx : x.getLsbD k with
  | false => simp
  | true =>
    have hne : BitVec.twoPow 8 k ≠ 0#8 := by
      intro h
      have hbit := congrArg (·.getLsbD k) h
      simp [hk] at hbit
    simpa using hne

theorem test_eq (b : Array (BitVec 8)) (i : ℕ) : test b i = (b.getD (i / 8) 0).getLsbD (i % 8) :=
  and_bit_ne_zero _ (Nat.mod_lt _ (by decide))

theorem assign_size (b : Array (BitVec 8)) (i : ℕ) (value : Bool) : (assign b i value).size = b.size :=
  Array.size_setIfInBounds

theorem test_assign {b : Array (BitVec 8)} {i : ℕ} (hi : i / 8 < b.size) (value : Bool) (j : ℕ) :
    test (assign b i value) j = if j = i then value else test b j := by
  have hk : i % 8 < 8 := Nat.mod_lt _ (by decide)
  have hj : j % 8 < 8 := Nat.mod_lt _ (by decide)
  rw [test_eq, test_eq, assign]
  by_cases hbyte : j / 8 = i / 8
  · have hself : (b.setIfInBounds (i / 8) (if value then b.getD (i / 8) 0 ||| 1#8 <<< (i % 8)
        else b.getD (i / 8) 0 &&& ~~~(1#8 <<< (i % 8)))).getD (j / 8) 0 =
        if value then b.getD (i / 8) 0 ||| 1#8 <<< (i % 8) else b.getD (i / 8) 0 &&& ~~~(1#8 <<< (i % 8)) := by
      rw [hbyte, Array.getD_eq_getD_getElem?, Array.getElem?_setIfInBounds_self_of_lt hi, Option.getD_some]
    rw [hself, hbyte, ← BitVec.twoPow_eq]
    by_cases hji : j = i
    · subst hji
      cases value <;> simp [hj]
    · have hbit : j % 8 ≠ i % 8 := by omega
      cases value <;> simp [hji, hbit, hj]
  · have hother : ∀ x, (b.setIfInBounds (i / 8) x).getD (j / 8) 0 = b.getD (j / 8) 0 := by
      intro x
      rw [Array.getD_eq_getD_getElem?, Array.getD_eq_getD_getElem?, Array.getElem?_setIfInBounds_ne (Ne.symm hbyte)]
    have hji : j ≠ i := fun h => hbyte (by rw [h])
    rw [hother, if_neg hji]

theorem test_replicate_zero (n i : ℕ) : test (Array.replicate n 0) i = false := by
  rw [test_eq, Array.getD_eq_getD_getElem?, Array.getElem?_replicate]
  split <;> simp

/-! ## Going round -/

def around (limit c k : ℕ) : ℕ := if c + k < limit then c + k else c + k - (limit - 1)

section Around

variable {limit c : ℕ}

theorem around_zero (hc : c < limit) : around limit c 0 = c := by simp [around, hc]

theorem around_mem (hc : 1 ≤ c ∧ c < limit) {k : ℕ} (hk : k < limit) :
    1 ≤ around limit c k ∧ around limit c k < limit := by
  rw [around]
  split <;> omega

theorem around_succ (hc : 1 ≤ c ∧ c < limit) {k : ℕ} (hk : k + 1 < limit) :
    around limit (if c + 1 = limit then 1 else c + 1) k = around limit c (k + 1) := by
  rw [around, around]
  split <;> split <;> split <;> omega

theorem exists_around {s : ℕ} (hc : 1 ≤ c ∧ c < limit) (hs : 1 ≤ s ∧ s < limit) :
    ∃ k < limit - 1, around limit c k = s := by
  by_cases hle : c ≤ s
  · refine ⟨s - c, by omega, ?_⟩
    rw [around]
    split <;> omega
  · refine ⟨s + (limit - 1) - c, by omega, ?_⟩
    rw [around]
    split <;> omega

end Around

end Zonix.Lib.Bitmap
