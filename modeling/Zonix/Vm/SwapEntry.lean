import Mathlib
import Zonix.Vm.Swap

/-!
# Swap entries

An entry of a page that is out: its slot from bit 8 on and the permissions in the low byte. No architecture reads it
as present.
-/

namespace Zonix.Vm

theorem getLsbD_swapEntry (slot : ℕ) (w x : Bool) (j : ℕ) (hj : j < 64) :
    (swapEntry slot w x).getLsbD j =
      ((decide (8 ≤ j) && slot.testBit (j - 8)) || decide (j = 7) || (decide (j = 1) && w) ||
        (decide (j = 2) && x)) := by
  have h7 : ∀ j < 64, entryHasPermissions.getLsbD j = decide (j = 7) := by decide +kernel
  have h1 : ∀ j < 64, entryWrite.getLsbD j = decide (j = 1) := by decide +kernel
  have h2 : ∀ j < 64, entryExecute.getLsbD j = decide (j = 2) := by decide +kernel
  rw [swapEntry, BitVec.getLsbD_or, BitVec.getLsbD_or, BitVec.getLsbD_or, h7 j hj, BitVec.getLsbD_shiftLeft,
    BitVec.getLsbD_ofNat]
  have hs : (decide (j < 64) && !decide (j < 8) && (decide (j - 8 < 64) && slot.testBit (j - 8))) =
      (decide (8 ≤ j) && slot.testBit (j - 8)) := by
    by_cases h8 : j < 8
    · have : ¬ 8 ≤ j := by omega
      simp [h8, this]
    · have : 8 ≤ j := by omega
      simp [h8, this, hj, show j - 8 < 64 by omega]
  rw [hs]
  cases w <;> cases x <;> simp [h1 j hj, h2 j hj]

theorem ptePresent_swapEntry (a : Arch) (slot : ℕ) (w x : Bool) : a.ptePresent (swapEntry slot w x) = false := by
  rw [a.ptePresent_bit, getLsbD_swapEntry _ _ _ _ (by norm_num)]
  simp

theorem swapEntry_ne_zero (slot : ℕ) (w x : Bool) : swapEntry slot w x ≠ 0 := by
  intro h
  have hb := getLsbD_swapEntry slot w x 7 (by norm_num)
  rw [h] at hb
  simp at hb

theorem swapEntry_write (slot : ℕ) (w x : Bool) : (swapEntry slot w x &&& entryWrite != 0) = w := by
  refine (and_shl_ne_zero (swapEntry slot w x) 1 (by norm_num)).trans ?_
  rw [getLsbD_swapEntry _ _ _ _ (by norm_num)]
  simp

theorem swapEntry_execute (slot : ℕ) (w x : Bool) : (swapEntry slot w x &&& entryExecute != 0) = x := by
  refine (and_shl_ne_zero (swapEntry slot w x) 2 (by norm_num)).trans ?_
  rw [getLsbD_swapEntry _ _ _ _ (by norm_num)]
  simp

theorem swapEntry_permissions (slot : ℕ) (w x : Bool) : (swapEntry slot w x &&& entryHasPermissions != 0) = true := by
  refine (and_shl_ne_zero (swapEntry slot w x) 7 (by norm_num)).trans ?_
  rw [getLsbD_swapEntry _ _ _ _ (by norm_num)]
  simp

def slotOf (entry : Word) : ℕ := (entry >>> 8).toNat % 2 ^ 32

theorem slotOf_swapEntry {slot : ℕ} (w x : Bool) (hs : slot < 2 ^ 24) : slotOf (swapEntry slot w x) = slot := by
  have hlow : (swapEntry slot w x >>> 8).toNat = slot := by
    apply Nat.eq_of_testBit_eq
    intro j
    rw [BitVec.testBit_toNat, BitVec.getLsbD_ushiftRight]
    by_cases hj : 8 + j < 64
    · rw [getLsbD_swapEntry _ _ _ _ hj]
      simp [show ¬ 8 + j = 7 by omega, show ¬ 8 + j = 1 by omega, show ¬ 8 + j = 2 by omega]
    · rw [BitVec.getLsbD_of_ge _ _ (by omega)]
      exact (Nat.testBit_lt_two_pow (lt_of_lt_of_le hs (Nat.pow_le_pow_right (by norm_num) (by omega)))).symm
  rw [slotOf, hlow, Nat.mod_eq_of_lt (by omega)]

theorem swapEntry_masked {slot : ℕ} (w x : Bool) (hs : slot < 2 ^ 24) :
    swapEntry slot w x &&& ~~~(entrySlotMask ||| entryFlags) = 0 := by
  have hm : ∀ j < 64, (~~~(entrySlotMask ||| entryFlags)).getLsbD j =
      !decide (8 ≤ j ∧ j < 32 ∨ j = 7 ∨ j = 1 ∨ j = 2) := by decide +kernel
  rw [and_eq_zero_iff]
  intro j hj hc
  rw [hm j hj, Bool.not_eq_true', decide_eq_false_iff_not] at hc
  have hbit : (decide (8 ≤ j) && slot.testBit (j - 8)) = false := by
    by_cases h32 : j < 32
    · simp [show ¬ 8 ≤ j by omega]
    · rw [Nat.testBit_lt_two_pow (lt_of_lt_of_le hs (Nat.pow_le_pow_right (by norm_num) (by omega))), Bool.and_false]
  rw [getLsbD_swapEntry _ _ _ _ hj, hbit]
  simp [show j ≠ 7 by omega, show j ≠ 1 by omega, show j ≠ 2 by omega]

theorem allocatedSlot_swapEntry (v : State) {slot : ℕ} (w x : Bool) (hs : slot < 2 ^ 24) :
    allocatedSlot v (swapEntry slot w x) =
      if v.device && decide (0 < slot) && decide (slot < v.slotLimit) && v.occupied slot then slot else 0 := by
  have hp : (swapEntry slot w x &&& entryHasPermissions == 0) = false := by
    have := swapEntry_permissions slot w x
    rw [bne, Bool.not_eq_true'] at this
    exact this
  have hslot := slotOf_swapEntry w x hs
  rw [slotOf] at hslot
  unfold allocatedSlot
  rw [swapEntry_masked w x hs, hp, hslot]
  cases v.device
  · simp
  · simp

theorem testBit_slotOf (w : Word) (k : ℕ) : (slotOf w).testBit k = (decide (k < 32) && w.getLsbD (8 + k)) := by
  rw [slotOf, Nat.testBit_mod_two_pow, BitVec.testBit_toNat, BitVec.getLsbD_ushiftRight]

/-- A word with the permissions flag and no bit outside the fields is the entry of the slot and the rights in it. -/
theorem eq_swapEntry {w : Word} (hmask : w &&& ~~~(entrySlotMask ||| entryFlags) = 0)
    (hperm : (w &&& entryHasPermissions != 0) = true) :
    w = swapEntry (slotOf w) (w &&& entryWrite != 0) (w &&& entryExecute != 0) := by
  have hm : ∀ j < 64, (~~~(entrySlotMask ||| entryFlags)).getLsbD j =
      !decide (8 ≤ j ∧ j < 32 ∨ j = 7 ∨ j = 1 ∨ j = 2) := by decide +kernel
  rw [and_eq_zero_iff] at hmask
  have h7 : w.getLsbD 7 = true := (and_shl_ne_zero w 7 (by norm_num)).symm.trans hperm
  have h1 : (w &&& entryWrite != 0) = w.getLsbD 1 := and_shl_ne_zero w 1 (by norm_num)
  have h2 : (w &&& entryExecute != 0) = w.getLsbD 2 := and_shl_ne_zero w 2 (by norm_num)
  apply BitVec.eq_of_getLsbD_eq
  intro j hj
  rw [getLsbD_swapEntry _ _ _ _ hj, h1, h2, testBit_slotOf]
  by_cases hin : 8 ≤ j ∧ j < 32 ∨ j = 7 ∨ j = 1 ∨ j = 2
  · rcases hin with ⟨h8, h32⟩ | rfl | rfl | rfl
    · rw [show 8 + (j - 8) = j by omega]
      simp [h8, show j - 8 < 32 by omega, show j ≠ 7 by omega, show j ≠ 1 by omega, show j ≠ 2 by omega]
    · simp [h7]
    · simp
    · simp
  · have hz := hmask j hj (by rw [hm j hj, decide_eq_false hin]; rfl)
    by_cases h8 : 8 ≤ j
    · rw [show 8 + (j - 8) = j by omega, hz]
      simp [show j ≠ 7 by omega, show j ≠ 1 by omega, show j ≠ 2 by omega]
    · rw [hz]
      simp [h8, show j ≠ 7 by omega, show j ≠ 1 by omega, show j ≠ 2 by omega]

theorem allocatedSlot_ne_zero {v : State} {w : Word} (hs : allocatedSlot v w ≠ 0) :
    w = swapEntry (slotOf w) (w &&& entryWrite != 0) (w &&& entryExecute != 0) ∧
      (0 < slotOf w ∧ slotOf w < v.slotLimit) ∧ v.occupied (slotOf w) = true := by
  unfold allocatedSlot at hs
  split at hs
  · exact absurd rfl hs
  · rename_i hform
    simp only [Bool.or_eq_true, not_or, Bool.not_eq_true, bne_eq_false_iff_eq] at hform
    change (if (decide (0 < slotOf w) && decide (slotOf w < v.slotLimit) && v.occupied (slotOf w)) = true then slotOf w
      else 0) ≠ 0 at hs
    split at hs
    · rename_i hok
      simp only [Bool.and_eq_true, decide_eq_true_eq] at hok
      refine ⟨eq_swapEntry hform.1.2 ?_, hok.1, hok.2⟩
      rw [bne, hform.2]
      rfl
    · exact absurd rfl hs

end Zonix.Vm
