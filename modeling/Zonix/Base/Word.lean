import Mathlib

/-! # Fixed-width arithmetic of the source -/

namespace Zonix

/-- Arithmetic of `uint32_t` and `unsigned int`. -/
def u32 (n : ℕ) : ℕ := n % 2 ^ 32

theorem u32_eq {n : ℕ} (h : n < 2 ^ 32) : u32 n = n := Nat.mod_eq_of_lt h
theorem u32_lt (n : ℕ) : u32 n < 2 ^ 32 := Nat.mod_lt _ (by decide)

/-- Arithmetic of `uint64_t`, `size_t` and `uintptr_t`. -/
def u64 (n : ℕ) : ℕ := n % 2 ^ 64

theorem u64_lt (n : ℕ) : u64 n < 2 ^ 64 := Nat.mod_lt _ (by decide)
theorem u64_eq {n : ℕ} (h : n < 2 ^ 64) : u64 n = n := Nat.mod_eq_of_lt h

end Zonix
