import Mathlib.Data.Nat.Notation
import Mathlib.Logic.Function.Basic

/-! # Copying a range of a sequence

`blit dst d src s n` is `dst` with its `n` elements from `d` on replaced by those of `src` from `s` on;
`scatter dst p src n` stores the first `n` elements of `src` in order, each where `p` says. -/

variable {α : Type}

def blit (dst : ℕ → α) (d : ℕ) (src : ℕ → α) (s n : ℕ) : ℕ → α :=
  fun i => if d ≤ i ∧ i < d + n then src (s + (i - d)) else dst i

variable {src : ℕ → α} {n : ℕ}

theorem blit_in {dst : ℕ → α} {d s i : ℕ} (h : d ≤ i ∧ i < d + n) : blit dst d src s n i = src (s + (i - d)) :=
  if_pos h

theorem blit_out {dst : ℕ → α} {d s i : ℕ} (h : ¬(d ≤ i ∧ i < d + n)) : blit dst d src s n i = dst i :=
  if_neg h

theorem blit_zero (dst src : ℕ → α) (d s : ℕ) : blit dst d src s 0 = dst := by
  funext i
  exact blit_out (by omega)

theorem blit_add (dst src : ℕ → α) (d s n m : ℕ) :
    blit (blit dst d src s n) (d + n) src (s + n) m = blit dst d src s (n + m) := by
  funext i
  by_cases hlow : d ≤ i ∧ i < d + n
  · rw [blit_out (by omega), blit_in hlow, blit_in (by omega)]
  · by_cases hhigh : d + n ≤ i ∧ i < d + n + m
    · rw [blit_in hhigh, blit_in (by omega), show s + n + (i - (d + n)) = s + (i - d) by omega]
    · rw [blit_out hhigh, blit_out hlow, blit_out (by omega)]

theorem blit_blit (dst buf src : ℕ → α) (d t s n : ℕ) : blit dst d (blit buf t src s n) t n = blit dst d src s n := by
  funext i
  by_cases hi : d ≤ i ∧ i < d + n
  · rw [blit_in hi, blit_in hi, blit_in (by omega), show t + (i - d) - t = i - d by omega]
  · rw [blit_out hi, blit_out hi]

theorem blit_shift {src' : ℕ → α} {s s' : ℕ} (h : ∀ k < n, src (s + k) = src' (s' + k)) (dst : ℕ → α) (d : ℕ) :
    blit dst d src s n = blit dst d src' s' n := by
  funext i
  by_cases hi : d ≤ i ∧ i < d + n
  · rw [blit_in hi, blit_in hi, h _ (by omega)]
  · rw [blit_out hi, blit_out hi]

def scatter (dst : ℕ → α) (p : ℕ → ℕ) (src : ℕ → α) : ℕ → ℕ → α
  | 0 => dst
  | n + 1 => Function.update (scatter dst p src n) (p n) (src n)

theorem scatter_add (dst : ℕ → α) (p : ℕ → ℕ) (src : ℕ → α) (n m : ℕ) :
    scatter dst p src (n + m) = scatter (scatter dst p src n) (fun i => p (n + i)) (fun i => src (n + i)) m := by
  induction m with
  | zero => rfl
  | succ m ih => rw [← Nat.add_assoc, scatter, ih, scatter]

theorem scatter_out {dst : ℕ → α} {p : ℕ → ℕ} {j : ℕ} (h : ∀ i < n, p i ≠ j) : scatter dst p src n j = dst j := by
  induction n with
  | zero => rfl
  | succ n ih => rw [scatter, Function.update_of_ne (h n (by omega)).symm, ih fun i hi => h i (by omega)]

theorem scatter_congr {dst src' : ℕ → α} {p p' : ℕ → ℕ} (hp : ∀ i < n, p i = p' i)
    (hs : ∀ i < n, src i = src' i) : scatter dst p src n = scatter dst p' src' n := by
  induction n with
  | zero => rfl
  | succ n ih =>
    rw [scatter, scatter, ih (fun i hi => hp i (by omega)) fun i hi => hs i (by omega), hp n (by omega),
      hs n (by omega)]

theorem scatter_run (dst : ℕ → α) {p : ℕ → ℕ} {d : ℕ} (h : ∀ i < n, p i = d + i) (src : ℕ → α) (s : ℕ) :
    scatter dst p (fun i => src (s + i)) n = blit dst d src s n := by
  induction n with
  | zero => rw [scatter, blit_zero]
  | succ n ih =>
    funext j
    rw [scatter, ih fun i hi => h i (by omega), h n (by omega)]
    by_cases hj : j = d + n
    · rw [hj, Function.update_self, blit_in (by omega), show d + n - d = n by omega]
    · rw [Function.update_of_ne hj]
      by_cases hin : d ≤ j ∧ j < d + n
      · rw [blit_in hin, blit_in (by omega)]
      · rw [blit_out hin, blit_out (by omega)]
