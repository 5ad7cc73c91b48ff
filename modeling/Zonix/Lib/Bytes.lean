import Mathlib.Data.Nat.Notation
import Mathlib.Algebra.Order.Ring.Nat

/-! # Little-endian numbers

`leNat bs off n` is the number in the `n` bytes from `off` on; `leBytes n v` is `v` as `n` bytes and `leValue` reads
such a list back. -/

def leNat (bs : ℕ → BitVec 8) (off : ℕ) : ℕ → ℕ
  | 0 => 0
  | n + 1 => (bs off).toNat + 256 * leNat bs (off + 1) n

theorem leNat_lt (bs : ℕ → BitVec 8) (off n : ℕ) : leNat bs off n < 256 ^ n := by
  induction n generalizing off with
  | zero => exact Nat.one_pos
  | succ n ih =>
    have hrest := ih (off + 1)
    have hbyte := (bs off).isLt
    rw [leNat, Nat.pow_succ]
    omega

theorem leNat_byte (bs : ℕ → BitVec 8) (off : ℕ) {n k : ℕ} (hk : k < n) :
    leNat bs off n / 256 ^ k % 256 = (bs (off + k)).toNat := by
  induction n generalizing off k with
  | zero => omega
  | succ n ih =>
    have hbyte := (bs off).isLt
    rw [leNat]
    cases k with
    | zero =>
      show ((bs off).toNat + 256 * leNat bs (off + 1) n) / 256 ^ 0 % 256 = (bs off).toNat
      omega
    | succ k =>
      rw [Nat.pow_succ, Nat.mul_comm (256 ^ k), ← Nat.div_div_eq_div_mul,
        show ((bs off).toNat + 256 * leNat bs (off + 1) n) / 256 = leNat bs (off + 1) n by omega, ih (off + 1) (by omega),
        show off + 1 + k = off + (k + 1) by omega]

def leBytes : ℕ → ℕ → List (BitVec 8)
  | 0, _ => []
  | n + 1, v => BitVec.ofNat 8 v :: leBytes n (v / 256)

def leValue : List (BitVec 8) → ℕ
  | [] => 0
  | b :: bs => b.toNat + 256 * leValue bs

theorem leBytes_length (n v : ℕ) : (leBytes n v).length = n := by
  induction n generalizing v with
  | zero => rfl
  | succ n ih => rw [leBytes, List.length_cons, ih]

theorem leValue_leBytes {n v : ℕ} (hv : v < 256 ^ n) : leValue (leBytes n v) = v := by
  induction n generalizing v with
  | zero => rw [leBytes, leValue, Nat.lt_one_iff.1 hv]
  | succ n ih =>
    rw [Nat.pow_succ] at hv
    rw [leBytes, leValue, ih (by omega), BitVec.toNat_ofNat]
    omega
