import Mathlib

/-!
# A sequence in a ring of slots

Element `s` of a growing sequence is stored, with its number, in slot `s % n`. Of the whole history the ring holds the
last `n` elements; the slot of an older one holds a later element with a larger number.
-/

namespace Zonix.RingLog

variable {α : Type*} {n : ℕ} {hist : List α} {ring : ℕ → ℕ × α}

def Holds (n : ℕ) (hist : List α) (ring : ℕ → ℕ × α) : Prop :=
  ∀ s x, hist[s]? = some x → hist.length ≤ s + n → ring (s % n) = (s, x)

theorem holds_nil (n : ℕ) (ring : ℕ → ℕ × α) : Holds n [] ring := by
  intro s x h
  cases h

theorem Holds.append (h : Holds n hist ring) (x : α) :
    Holds n (hist ++ [x]) (Function.update ring (hist.length % n) (hist.length, x)) := by
  intro s y hy hlast
  rw [List.length_append, List.length_singleton] at hlast
  by_cases hs : s = hist.length
  · rw [hs, List.getElem?_concat_length] at hy
    rw [hs, Function.update_self, Option.some.inj hy]
  · have hlt : s < hist.length := by
      have hlen := (List.getElem?_eq_some_iff.1 hy).1
      rw [List.length_append, List.length_singleton] at hlen
      omega
    have hslot : s % n ≠ hist.length % n := by
      intro heq
      have hdvd : n ∣ hist.length - s := (Nat.modEq_iff_dvd' hlt.le).1 heq
      have := Nat.le_of_dvd (by omega) hdvd
      omega
    rw [List.getElem?_append_left hlt] at hy
    rw [Function.update_of_ne hslot]
    exact h s y hy (by omega)

def Overwritten (n s len : ℕ) : Prop := ∃ s', s < s' ∧ s' < len ∧ s' % n = s % n

theorem overwritten_iff (n s len : ℕ) (hn : 0 < n) : Overwritten n s len ↔ s + n < len := by
  constructor
  · rintro ⟨s', hlt, hlen, hslot⟩
    have hdvd : n ∣ s' - s := (Nat.modEq_iff_dvd' hlt.le).1 hslot.symm
    have := Nat.le_of_dvd (by omega) hdvd
    omega
  · intro h
    exact ⟨s + n, by omega, h, Nat.add_mod_right s n⟩

theorem Holds.read (h : Holds n hist ring) (hn : 0 < n) {s : ℕ} {x : α} (hx : hist[s]? = some x) :
    ((ring (s % n)).1 = s ↔ ¬Overwritten n s hist.length) ∧ ((ring (s % n)).1 = s → (ring (s % n)).2 = x) := by
  rw [overwritten_iff n s hist.length hn, Nat.not_lt]
  have hs := (List.getElem?_eq_some_iff.1 hx).1
  by_cases hlast : hist.length ≤ s + n
  · rw [h s x hx hlast]
    exact ⟨iff_of_true rfl hlast, fun _ => rfl⟩
  · -- the last element that was stored in this slot
    have hdiv := Nat.div_add_mod (hist.length - 1 - s) n
    have hmod := Nat.mod_lt (hist.length - 1 - s) hn
    have hq : 0 < (hist.length - 1 - s) / n := Nat.div_pos (by omega) hn
    have hle : n ≤ n * ((hist.length - 1 - s) / n) := Nat.le_mul_of_pos_right n hq
    have hlt : s + n * ((hist.length - 1 - s) / n) < hist.length := by omega
    have hread := h _ _ (List.getElem?_eq_getElem hlt) (by omega)
    rw [Nat.add_mul_mod_self_left] at hread
    have hne : (ring (s % n)).1 ≠ s := by
      rw [hread]
      show s + n * ((hist.length - 1 - s) / n) ≠ s
      omega
    exact ⟨iff_of_false hne hlast, fun heq => absurd heq hne⟩

end Zonix.RingLog
