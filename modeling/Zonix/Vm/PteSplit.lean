import Mathlib
import Zonix.Vm.PteBits

/-!
# Splitting a large leaf

`split_page_entry` of the three architectures: each of the 512 pieces maps its part of the large leaf with the same
attributes, and is again an entry the architecture allows one level down.
-/

namespace Zonix.Vm

open Zonix.Lib.Bits

namespace X86

theorem getLsbD_split (e pa : Word) (l j : ℕ) (hj : j < 64) :
    (splitPageEntry e pa (levelShift l)).getLsbD j =
      (pa.getLsbD j || (e.getLsbD j && !decide (12 ≤ j ∧ j < 52) && !decide (j = 7)) ||
        (if 0 < l then decide (j = 7) || (decide (j = 12) && e.getLsbD 12) else decide (j = 7) && e.getLsbD 12)) := by
  have hPS : ∀ j < 64, ptePS.getLsbD j = decide (j = 7) := by decide +kernel
  have hPat : ∀ j < 64, ptePatLarge.getLsbD j = decide (j = 12) := by decide +kernel
  have hl : 12 < levelShift l ↔ 0 < l := by unfold levelShift; omega
  simp only [splitPageEntry, pat_bit, hl, BitVec.getLsbD_or, BitVec.getLsbD_and, BitVec.getLsbD_not, hj, decide_true,
    Bool.true_and, pteAddrMask_bits j hj, hPS j hj, Bool.not_or]
  by_cases h0 : 0 < l
  · cases e.getLsbD 12 <;> simp [h0, hPS j hj, hPat j hj, Bool.or_assoc, Bool.and_assoc]
  · cases e.getLsbD 12 <;> simp [h0, hPS j hj, ptePatPage, Bool.or_assoc, Bool.and_assoc]

theorem otherBits_bits : ∀ j < 64, Arch.x86.otherBits.getLsbD j =
    decide (j ∈ [3, 4, 5, 6, 8, 9, 10, 11] ∨ 52 ≤ j ∧ j < 63) := by decide +kernel

variable {l : ℕ} {pa e : Word}

theorem leafBase_split (h : Arch.x86.Fits pa (levelShift l)) :
    Arch.x86.leafBase (splitPageEntry e pa (levelShift l)) l = pa := by
  have hg := levelShift_ge l
  have hw : splitPageEntry e pa (levelShift l) = pa ||| splitPageEntry e 0 (levelShift l) := by
    simp [splitPageEntry]
  rw [hw]
  apply masked_or pteAddrMask_bits hg h
  intro j h1 h2
  have h7 : j ≠ 7 := by omega
  rw [getLsbD_split _ _ _ _ (by omega)]
  by_cases h0 : 0 < l
  · have h12 : j ≠ 12 := by unfold levelShift at h1; omega
    have : 12 ≤ j := by omega
    simp [h0, h7, h12, h2, this]
  · have : 12 ≤ j := by omega
    simp [h0, h7, h2, this]

theorem attrs_split (h : Arch.x86.Fits pa (levelShift l)) :
    Arch.x86.attrs (splitPageEntry e pa (levelShift l)) l = Arch.x86.attrs e (l + 1) := by
  have hg := levelShift_ge l
  have hpa : ∀ j, j < 12 ∨ 52 ≤ j → pa.getLsbD j = false := by
    intro j hj
    rcases hj with hj | hj
    · exact h.low (by omega)
    · exact h.high hj
  have hbit : ∀ j < 64, j ≠ 7 → (j < 12 ∨ 52 ≤ j) →
      (splitPageEntry e pa (levelShift l)).getLsbD j = e.getLsbD j := by
    intro j hj h7 hr
    have h12 : j ≠ 12 := by omega
    have hm : ¬ (12 ≤ j ∧ j < 52) := by omega
    rw [getLsbD_split _ _ _ _ hj, hpa j hr]
    simp [h7, h12, hm]
  have hpat : patBit (splitPageEntry e pa (levelShift l)) l = patBit e (l + 1) := by
    unfold patBit
    cases l with
    | zero =>
      rw [if_pos rfl, getLsbD_split _ _ _ _ (by norm_num), hpa 7 (by omega)]
      simp
    | succ l =>
      rw [if_neg (by omega), getLsbD_split _ _ _ _ (by norm_num), h.low (by unfold levelShift; omega)]
      simp
  have hmem : splitPageEntry e pa (levelShift l) &&& Arch.x86.otherBits = e &&& Arch.x86.otherBits := by
    apply BitVec.eq_of_getLsbD_eq
    intro j hj
    rw [BitVec.getLsbD_and, BitVec.getLsbD_and, otherBits_bits j hj]
    by_cases hin : j ∈ [3, 4, 5, 6, 8, 9, 10, 11] ∨ 52 ≤ j ∧ j < 63
    · rw [hbit j hj (by simp at hin; omega) (by simp at hin; omega)]
    · simp only [hin, decide_false, Bool.and_false]
  simp only [Arch.attrs, pteWritable_bit, pteUser_bit, pteExecutable_bit, hpat, hmem, hbit 1 (by norm_num) (by norm_num) (by norm_num), hbit 2 (by norm_num) (by norm_num) (by norm_num), hbit 63 (by norm_num) (by norm_num) (by norm_num)]

end X86

namespace AArch64

theorem getLsbD_split (e pa : Word) (l j : ℕ) (hj : j < 64) :
    (splitPageEntry e pa (levelShift l)).getLsbD j =
      (pa.getLsbD j || (e.getLsbD j && !decide (12 ≤ j ∧ j < 48) && !decide (j < 2)) ||
        decide (j = 0) || (decide (j = 1) && decide (l = 0))) := by
  have hV : ∀ j < 64, pteValid.getLsbD j = decide (j = 0) := by decide +kernel
  have hP : ∀ j < 64, ptePage.getLsbD j = decide (j = 1) := by decide +kernel
  have hl : levelShift l = 12 ↔ l = 0 := by unfold levelShift; omega
  simp only [splitPageEntry, hl, BitVec.getLsbD_or, BitVec.getLsbD_and, BitVec.getLsbD_not, hj, decide_true,
    Bool.true_and, pteAddrMask_bits j hj, pteTypeMask_bits j hj, hV j hj, Bool.not_or]
  by_cases h0 : l = 0
  · simp [h0, hP j hj, Bool.and_assoc]
  · simp [h0, pteBlock, Bool.and_assoc]

theorem otherBits_bits : ∀ j < 64, Arch.aarch64.otherBits.getLsbD j =
    decide (j ∈ [2, 3, 4, 5, 8, 9, 10, 11] ∨ 48 ≤ j ∧ j < 53 ∨ 55 ≤ j) := by decide +kernel

theorem leafBase_split (h : Arch.aarch64.Fits pa (levelShift l)) :
    Arch.aarch64.leafBase (splitPageEntry e pa (levelShift l)) l = pa := by
  have hg := levelShift_ge l
  have hw : splitPageEntry e pa (levelShift l) = pa ||| splitPageEntry e 0 (levelShift l) := by
    simp [splitPageEntry, BitVec.or_assoc]
  rw [hw]
  apply masked_or pteAddrMask_bits hg h
  intro j h1 h2
  have h0 : j ≠ 0 := by omega
  have h3 : j ≠ 1 := by omega
  have h4 : 12 ≤ j := by omega
  rw [getLsbD_split _ _ _ _ (by omega)]
  simp [h0, h2, h3, h4]

theorem attrs_split (h : Arch.aarch64.Fits pa (levelShift l)) :
    Arch.aarch64.attrs (splitPageEntry e pa (levelShift l)) l = Arch.aarch64.attrs e (l + 1) := by
  have hg := levelShift_ge l
  have hbit : ∀ j < 64, (2 ≤ j ∧ j < 12 ∨ 48 ≤ j) →
      (splitPageEntry e pa (levelShift l)).getLsbD j = e.getLsbD j := by
    intro j hj hr
    have hpa : pa.getLsbD j = false := by
      rcases hr with hr | hr
      · exact h.low (by omega)
      · exact h.high hr
    have h0 : j ≠ 0 := by omega
    have h1 : j ≠ 1 := by omega
    have h2 : ¬ j < 2 := by omega
    have hm : ¬ (12 ≤ j ∧ j < 48) := by omega
    rw [getLsbD_split _ _ _ _ hj, hpa]
    simp [h0, h1, h2, hm]
  have hmem : splitPageEntry e pa (levelShift l) &&& Arch.aarch64.otherBits = e &&& Arch.aarch64.otherBits := by
    apply BitVec.eq_of_getLsbD_eq
    intro j hj
    rw [BitVec.getLsbD_and, BitVec.getLsbD_and, otherBits_bits j hj]
    by_cases hin : j ∈ [2, 3, 4, 5, 8, 9, 10, 11] ∨ 48 ≤ j ∧ j < 53 ∨ 55 ≤ j
    · rw [hbit j hj (by simp at hin; omega)]
    · simp only [hin, decide_false, Bool.and_false]
  simp only [Arch.attrs, pteWritable_bit, pteUser_bit, pteExecutable_bit, ptePXN_bit, hmem,
    hbit 6 (by norm_num) (by norm_num), hbit 7 (by norm_num) (by norm_num), hbit 53 (by norm_num) (by norm_num),
    hbit 54 (by norm_num) (by norm_num)]

end AArch64

namespace Riscv

theorem getLsbD_split (e pa : Word) (s j : ℕ) (hj : j < 64) :
    (splitPageEntry e pa s).getLsbD j =
      ((decide (10 ≤ j) && pa.getLsbD (j + 2)) || (e.getLsbD j && decide (j < 10))) := by
  simp only [splitPageEntry, pteFlagsMask, BitVec.getLsbD_or, BitVec.getLsbD_and, BitVec.getLsbD_shiftLeft,
    BitVec.getLsbD_ushiftRight, getLsbD_lowMask, hj, decide_true, Bool.true_and]
  by_cases h : j < 10
  · have h1 : ¬ 10 ≤ j := by omega
    simp [h, h1]
  · have h1 : 10 ≤ j := by omega
    rw [show 12 + (j - 10) = j + 2 by omega]
    simp [h, h1]

theorem otherBits_bits : ∀ j < 64, Arch.riscv64.otherBits.getLsbD j =
    decide (5 ≤ j ∧ j < 10 ∨ 54 ≤ j) := by decide +kernel

theorem leafBase_split (h : Arch.riscv64.Fits pa (levelShift l)) :
    Arch.riscv64.leafBase (splitPageEntry e pa (levelShift l)) l = pa := by
  apply shifted_or (levelShift_ge l) (fun j hj => (h j hj).1)
  intro j hj
  have h1 : ¬ j < 10 := by omega
  simp [pteFlagsMask, getLsbD_lowMask, h1]

theorem attrs_split (h : Arch.riscv64.Fits pa (levelShift l)) (he : e.toNat < 2 ^ 54) :
    Arch.riscv64.attrs (splitPageEntry e pa (levelShift l)) l = Arch.riscv64.attrs e (l + 1) := by
  have hbit : ∀ j < 10, (splitPageEntry e pa (levelShift l)).getLsbD j = e.getLsbD j := by
    intro j hj
    have h1 : ¬ 10 ≤ j := by omega
    rw [getLsbD_split _ _ _ _ (by omega)]
    simp [hj, h1]
  have hmem : splitPageEntry e pa (levelShift l) &&& Arch.riscv64.otherBits = e &&& Arch.riscv64.otherBits := by
    apply BitVec.eq_of_getLsbD_eq
    intro j hj
    rw [BitVec.getLsbD_and, BitVec.getLsbD_and, otherBits_bits j hj]
    by_cases hlow : j < 10
    · rw [hbit j hlow]
    · by_cases hhigh : 54 ≤ j
      · rw [getLsbD_split _ _ _ _ hj, getLsbD_of_lt he hhigh, h.high (show 56 ≤ j + 2 by omega)]
        simp
      · have hno : ¬ (5 ≤ j ∧ j < 10 ∨ 54 ≤ j) := by omega
        simp only [hno, decide_false, Bool.and_false]
  simp only [Arch.attrs, pteReadable_bit, pteWritable_bit, pteUser_bit, pteExecutable_bit, hmem,
    hbit 1 (by norm_num), hbit 2 (by norm_num), hbit 3 (by norm_num), hbit 4 (by norm_num)]

end Riscv

namespace Arch

theorem WellFormed.fits {a : Arch} (h : a.WellFormed e l) (hp : a.ptePresent e)
    (hb : a.pteIsBlock e) (hl : 0 < l) : a.Fits (a.leafBase e l) (levelShift l) := by
  have hwf := (h hp hb hl).2
  intro j hj
  have hj64 : j < 64 := by
    by_contra hge
    rw [BitVec.getLsbD_of_ge _ _ (by omega)] at hj
    cases hj
  have hbits := hj
  rw [leafBase, BitVec.getLsbD_and, BitVec.getLsbD_not, getLsbD_lowMask] at hbits
  simp only [Bool.and_eq_true, hj64, decide_true, Bool.true_and, Bool.not_eq_true', decide_eq_false_iff_not] at hbits
  refine ⟨by omega, ?_⟩
  cases a with
  | x86 =>
    have hm := hbits.1
    rw [pteAddr, X86.pteAddr, BitVec.getLsbD_and, X86.pteAddrMask_bits j hj64, Bool.and_eq_true,
      decide_eq_true_eq] at hm
    exact hm.2.2
  | aarch64 =>
    have hm := hbits.1
    rw [pteAddr, AArch64.pteAddr, BitVec.getLsbD_and, AArch64.pteAddrMask_bits j hj64, Bool.and_eq_true,
      decide_eq_true_eq] at hm
    exact hm.2.2
  | riscv64 =>
    have hm := hbits.1
    rw [pteAddr, Riscv.pteAddr, BitVec.getLsbD_shiftLeft, BitVec.getLsbD_ushiftRight, Bool.and_eq_true] at hm
    by_contra hge
    have hge' : 56 ≤ j := by simpa [paBits] using hge
    have h0 := getLsbD_of_lt hwf.2 (show 54 ≤ 10 + (j - 12) by omega)
    rw [h0] at hm
    exact Bool.false_ne_true hm.2

/-- `large_pa + (i << child_shift)`, the base of piece `i` of a large leaf at level `l + 1`. -/
def pieceBase (a : Arch) (e : Word) (l : ℕ) (i : Fin 512) : Word :=
  a.leafBase e (l + 1) + BitVec.ofNat 64 i.val <<< levelShift l

theorem toNat_leafBase (a : Arch) (e : Word) (l : ℕ) :
    (a.leafBase e l).toNat = (a.pteAddr e).toNat / 2 ^ levelShift l * 2 ^ levelShift l :=
  toNat_and_not_lowMask _ _

theorem levelShift_succ (l : ℕ) : levelShift (l + 1) = levelShift l + 9 := by unfold levelShift; omega

theorem toNat_piece (l : ℕ) (hl : l ≤ 1) (i : Fin 512) :
    (BitVec.ofNat 64 i.val <<< levelShift l).toNat = i.val * 2 ^ levelShift l := by
  have hi : (BitVec.ofNat 64 i.val).toNat = i.val := by
    rw [BitVec.toNat_ofNat, Nat.mod_eq_of_lt (by omega)]
  rw [shiftLeft_toNat (k := 9) (by rw [hi]; exact i.isLt) (by unfold levelShift; omega), hi]

theorem toNat_pieceBase (a : Arch) (e : Word) (l : ℕ) (hl : l ≤ 1) (i : Fin 512) :
    (a.pieceBase e l i).toNat = (a.leafBase e (l + 1)).toNat + i.val * 2 ^ levelShift l := by
  rw [pieceBase, BitVec.toNat_add, toNat_piece l hl, toNat_leafBase, Nat.mod_eq_of_lt]
  have hx := (a.pteAddr e).isLt
  have hi := i.isLt
  obtain rfl | rfl : l = 0 ∨ l = 1 := by omega
  · simp only [levelShift, Nat.reduceAdd, Nat.reduceMul, Nat.reducePow] at hx ⊢
    omega
  · simp only [levelShift, Nat.reduceAdd, Nat.reduceMul, Nat.reducePow] at hx ⊢
    omega

theorem WellFormed.fits_piece {a : Arch} (h : a.WellFormed e (l + 1)) (hp : a.ptePresent e)
    (hb : a.pteIsBlock e) (i : Fin 512) : a.Fits (a.pieceBase e l i) (levelShift l) := by
  have hl : l ≤ 1 := by have := (h hp hb (by omega)).1; omega
  have hfit := h.fits hp hb (by omega)
  have hlt : (BitVec.ofNat 64 i.val <<< levelShift l).toNat < 2 ^ levelShift (l + 1) := by
    rw [toNat_piece l hl, levelShift_succ, pow_add]
    have := i.isLt
    have hpos : 0 < 2 ^ levelShift l := by positivity
    calc i.val * 2 ^ levelShift l < 512 * 2 ^ levelShift l := Nat.mul_lt_mul_of_pos_right this hpos
      _ = 2 ^ levelShift l * 2 ^ 9 := by ring
  have hdisj : a.leafBase e (l + 1) &&& (BitVec.ofNat 64 i.val <<< levelShift l) = 0 := by
    apply BitVec.eq_of_getLsbD_eq
    intro j hj
    rw [BitVec.getLsbD_and]
    by_cases hs : levelShift (l + 1) ≤ j
    · rw [getLsbD_of_lt hlt hs, Bool.and_false]
      simp
    · rw [hfit.low (Nat.lt_of_not_le hs), Bool.false_and]
      simp
  intro j hj
  rw [pieceBase, BitVec.add_eq_or_of_and_eq_zero _ _ hdisj, BitVec.getLsbD_or, Bool.or_eq_true] at hj
  rcases hj with hj | hj
  · have := hfit j hj
    rw [levelShift_succ] at this
    omega
  · have h48 : 48 ≤ a.paBits := by cases a <;> decide
    have hs : j < levelShift (l + 1) := by
      by_contra hge
      rw [getLsbD_of_lt hlt (by omega)] at hj
      cases hj
    have hlow : levelShift l ≤ j := by
      by_contra hlt'
      rw [BitVec.getLsbD_shiftLeft] at hj
      simp [show j < levelShift l by omega] at hj
    refine ⟨hlow, ?_⟩
    unfold levelShift at hs
    omega

structure IsPiece (a : Arch) (e w : Word) (l : ℕ) (i : Fin 512) : Prop where
  present : a.ptePresent w
  block : 0 < l → a.pteIsBlock w
  base : a.leafBase w l = a.pieceBase e l i
  attrs : a.attrs w l = a.attrs e (l + 1)
  wellFormed : a.WellFormed w l

theorem isPiece_x86 (i : Fin 512) (hwf : x86.WellFormed e (l + 1)) (hp : x86.ptePresent e)
    (hb : x86.pteIsBlock e) :
    x86.IsPiece e (X86.splitPageEntry e (x86.pieceBase e l i) (levelShift l)) l i := by
  have hfit := hwf.fits_piece hp hb i
  have hl : l + 1 ≤ 2 := (hwf hp hb (by omega)).1
  have hg := levelShift_ge l
  have hbase := X86.leafBase_split (e := e) hfit
  have hp0 : e.getLsbD 0 = true := by rw [← X86.ptePresent_bit]; exact hp
  refine ⟨?_, ?_, hbase, X86.attrs_split hfit, ?_⟩
  · rw [ptePresent, X86.ptePresent_bit, X86.getLsbD_split _ _ _ _ (by norm_num), hp0]
    simp
  · intro h0
    rw [pteIsBlock, X86.pteIsBlock_bit, X86.getLsbD_split _ _ _ _ (by norm_num)]
    simp [h0]
  · intro _ _ h0
    refine ⟨by omega, ?_⟩
    simp only [hbase]
    apply BitVec.eq_of_getLsbD_eq
    intro j hj
    have hPat : ∀ j < 64, X86.ptePatLarge.getLsbD j = decide (j = 12) := by decide +kernel
    rw [pteAddr, X86.pteAddr, BitVec.getLsbD_and, BitVec.getLsbD_and, BitVec.getLsbD_not, hPat j hj,
      X86.pteAddrMask_bits j hj, X86.getLsbD_split _ _ _ _ hj]
    by_cases hin : 12 ≤ j ∧ j < 52
    · by_cases h12 : j = 12
      · have hz := hfit.low (show 12 < levelShift l by unfold levelShift; omega)
        rw [h12, hz]
        simp
      · have h7 : j ≠ 7 := by omega
        simp [hin, h12, h7, h0, hj]
    · have hz : (x86.pieceBase e l i).getLsbD j = false := by
        by_cases h52 : 52 ≤ j
        · exact hfit.high h52
        · exact hfit.low (by omega)
      simp [hin, hz]

theorem isPiece_aarch64 (i : Fin 512) (hwf : aarch64.WellFormed e (l + 1))
    (hp : aarch64.ptePresent e) (hb : aarch64.pteIsBlock e) :
    aarch64.IsPiece e (AArch64.splitPageEntry e (aarch64.pieceBase e l i) (levelShift l)) l i := by
  have hfit := hwf.fits_piece hp hb i
  have hl : l + 1 ≤ 2 := (hwf hp hb (by omega)).1
  have hg := levelShift_ge l
  have hbase := AArch64.leafBase_split (e := e) hfit
  have hlow : ∀ j < 12, (aarch64.pieceBase e l i).getLsbD j = false := fun j hj => hfit.low (by omega)
  refine ⟨?_, ?_, hbase, AArch64.attrs_split hfit, ?_⟩
  · rw [ptePresent, AArch64.ptePresent_bit, AArch64.getLsbD_split _ _ _ _ (by norm_num)]
    simp
  · intro h0
    have h1 : l ≠ 0 := by omega
    rw [pteIsBlock, AArch64.pteIsBlock_bit, AArch64.getLsbD_split _ _ _ _ (by norm_num),
      AArch64.getLsbD_split _ _ _ _ (by norm_num), hlow 1 (by norm_num)]
    simp [h1]
  · intro _ _ h0
    refine ⟨by omega, ?_⟩
    simp only [hbase]
    rw [← leafBase_zero]
    have hw : AArch64.splitPageEntry e (aarch64.pieceBase e l i) (levelShift l) =
        aarch64.pieceBase e l i ||| AArch64.splitPageEntry e 0 (levelShift l) := by
      simp [AArch64.splitPageEntry, BitVec.or_assoc]
    rw [hw]
    apply masked_or AArch64.pteAddrMask_bits (le_refl 12) (hfit.mono hg)
    intro j h1 h2
    have h3 : j ≠ 0 := by omega
    have h4 : j ≠ 1 := by omega
    rw [AArch64.getLsbD_split _ _ _ _ (by omega)]
    simp [h1, h2, h3, h4]

theorem isPiece_riscv64 (i : Fin 512) (hwf : riscv64.WellFormed e (l + 1))
    (hp : riscv64.ptePresent e) (hb : riscv64.pteIsBlock e) :
    riscv64.IsPiece e (Riscv.splitPageEntry e (riscv64.pieceBase e l i) (levelShift l)) l i := by
  have hfit := hwf.fits_piece hp hb i
  have hres := (hwf hp hb (by omega)).2.2
  have hl : l + 1 ≤ 2 := (hwf hp hb (by omega)).1
  have hg := levelShift_ge l
  have hbase := Riscv.leafBase_split (e := e) hfit
  have hbit : ∀ j < 10, (Riscv.splitPageEntry e (riscv64.pieceBase e l i) (levelShift l)).getLsbD j = e.getLsbD j := by
    intro j hj
    have h1 : ¬ 10 ≤ j := by omega
    rw [Riscv.getLsbD_split _ _ _ _ (by omega)]
    simp [hj, h1]
  refine ⟨?_, ?_, hbase, Riscv.attrs_split hfit hres, ?_⟩
  · rw [ptePresent, Riscv.ptePresent_bit, hbit 0 (by norm_num), ← Riscv.ptePresent_bit]
    exact hp
  · intro _
    rw [pteIsBlock, Riscv.pteIsBlock_bit, hbit 1 (by norm_num), hbit 2 (by norm_num), hbit 3 (by norm_num),
      ← Riscv.pteIsBlock_bit]
    exact hb
  · intro _ _ h0
    refine ⟨by omega, ?_, ?_⟩
    · simp only [hbase]
      rw [← leafBase_zero]
      apply shifted_or (le_refl 12) (fun j hj => ((hfit.mono hg) j hj).1)
      intro j hj
      have h1 : ¬ j < 10 := by omega
      simp [Riscv.pteFlagsMask, getLsbD_lowMask, h1]
    · apply Nat.lt_pow_two_of_testBit
      intro j hj
      rw [BitVec.testBit_toNat]
      by_cases h64 : j < 64
      · have h1 : ¬ j < 10 := by omega
        rw [Riscv.getLsbD_split _ _ _ _ h64, hfit.high (show 56 ≤ j + 2 by omega)]
        simp [h1]
      · exact BitVec.getLsbD_of_ge _ _ (by omega)

theorem isPiece_splitPageEntry (a : Arch) (i : Fin 512) (hwf : a.WellFormed e (l + 1))
    (hp : a.ptePresent e) (hb : a.pteIsBlock e) :
    a.IsPiece e (a.splitPageEntry e (a.pieceBase e l i) (levelShift l)) l i := by
  cases a with
  | x86 => exact isPiece_x86 i hwf hp hb
  | aarch64 => exact isPiece_aarch64 i hwf hp hb
  | riscv64 => exact isPiece_riscv64 i hwf hp hb

end Arch

end Zonix.Vm
