import Mathlib

/-!
# Numerals

`Represents sym b text n`: the text is `n` in base `b`, most significant digit first and without leading zeros, each
digit `d` written as `sym d`. Repeated division gives such a text.
-/

namespace Zonix.Numeral

variable {γ : Type*} (sym : ℕ → γ)

def Represents (b : ℕ) (text : List γ) (n : ℕ) : Prop :=
  ∃ ds : List ℕ, text = ds.map sym ∧ (∀ d ∈ ds, d < b) ∧ Nat.ofDigits b ds.reverse = n ∧ (ds.head? = some 0 → ds = [0]) ∧
    ds ≠ []

def numeral (b n : ℕ) : List γ := if n = 0 then [sym 0] else ((Nat.digits b n).map sym).reverse

theorem represents_numeral {b : ℕ} (hb : 1 < b) (n : ℕ) : Represents sym b (numeral sym b n) n := by
  rw [numeral]
  split
  · rename_i hn
    refine ⟨[0], rfl, ?_, ?_, fun _ => rfl, List.cons_ne_nil _ _⟩
    · exact List.forall_mem_singleton.2 (by omega)
    · rw [hn]
      rfl
  · rename_i hn
    have hne : Nat.digits b n ≠ [] := Nat.digits_ne_nil_iff_ne_zero.2 hn
    refine ⟨(Nat.digits b n).reverse, (List.map_reverse).symm, ?_, ?_, ?_, ?_⟩
    · intro d hd
      exact Nat.digits_lt_base hb (List.mem_reverse.1 hd)
    · rw [List.reverse_reverse, Nat.ofDigits_digits]
    · intro hzero
      rw [List.head?_reverse, List.getLast?_eq_some_getLast hne] at hzero
      exact absurd (Option.some.inj hzero) (Nat.getLast_digit_ne_zero b hn)
    · exact fun h => hne (List.reverse_eq_nil_iff.1 h)

def horner (b a : ℕ) (ds : List ℕ) : ℕ := ds.foldl (fun a d => a * b + d) a

theorem le_horner {b : ℕ} (hb : 0 < b) (a : ℕ) (ds : List ℕ) : a ≤ horner b a ds := by
  induction ds generalizing a with
  | nil => exact le_rfl
  | cons d ds ih =>
    have hstep : a ≤ a * b + d := (Nat.le_mul_of_pos_right a hb).trans (Nat.le_add_right _ _)
    exact hstep.trans (ih (a * b + d))

theorem horner_reverse_digits (b n : ℕ) : horner b 0 (Nat.digits b n).reverse = n := by
  rw [horner, List.foldl_reverse]
  refine Eq.trans ?_ (Nat.ofDigits_digits b n)
  rw [Nat.ofDigits_eq_foldr]
  refine congrFun (congrFun (congrArg List.foldr (funext fun d => funext fun a => ?_)) 0) _
  rw [Nat.cast_id, Nat.mul_comm, Nat.add_comm]

end Zonix.Numeral
