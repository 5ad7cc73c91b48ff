import Mathlib
import Zonix.Base.Error

/-!
# The capacity of an SD card

`SdDevice::read_csd` and `SdDevice::transfer_blocks` of `kernel/drivers/sdhci.cpp`. The controller drops the lowest
eight bits of the card-specific data (CSD) and gives the rest in four response registers of 32 bits.
-/

namespace Zonix.Sd

inductive DeviceState where
  | offline
  | initializing
  | ready
  | quarantined
deriving DecidableEq, Repr

structure SdDevice where
  state : DeviceState
  mapped : Bool
  rca : BitVec 16
  sdhc : Bool
  blockCount : BitVec 32
deriving DecidableEq, Repr

/-- `read_response` after CMD9. -/
def readResponse (csd : BitVec 128) (index : ℕ) : BitVec 32 := (csd >>> (8 + 32 * index)).setWidth 32

/-- `read_csd`, with the outcome of CMD9. -/
def readCsd (cmd9 : Except Error (BitVec 128)) (d : SdDevice) : Error × SdDevice :=
  match cmd9 with
  | .error e => (e, d)
  | .ok csd =>
    let r3 := readResponse csd 3
    let r2 := readResponse csd 2
    let r1 := readResponse csd 1
    let csdStructure := (r3 >>> 22) &&& 0x3
    if csdStructure = 1 then
      let cSize := (r1 >>> 8) &&& 0x3FFFFF
      (.none, { d with blockCount := (cSize + 1) * 1024 })
    else if csdStructure = 0 then
      let readBlLen := (r2 >>> 8) &&& 0xF
      let cSize := ((r2 &&& 0x3) <<< 10) ||| (r1 >>> 22)
      let cSizeMult := (r1 >>> 7) &&& 0x7
      let blocknr := (cSize + 1) <<< (cSizeMult + 2)
      (.none, { d with blockCount := (blocknr * (1#32 <<< readBlLen)) / 512 })
    else (.none, { d with blockCount := 131072 })

def shutdownLocked (d : SdDevice) : SdDevice :=
  if d.mapped then ⟨.offline, false, 0, false, 0⟩ else { d with state := .offline }

/-- The loop of `transfer_blocks`: `n` blocks are left from block `i` on, and `single` is the outcome of
`read_single` or `write_single` for a block. -/
def transferLoop (single : BitVec 32 → Error) (startLba : BitVec 32) : ℕ → ℕ → SdDevice → Error × SdDevice
  | 0, _, d => (.none, d)
  | n + 1, i, d =>
    let error := single (startLba + BitVec.ofNat 32 i)
    if error ≠ .none then (error, shutdownLocked d) else transferLoop single startLba n (i + 1) d

def transferBlocks (single : BitVec 32 → Error) (startLba : BitVec 32) (buf : Bool) (count : ℕ) (d : SdDevice) :
    Error × SdDevice :=
  if d.state ≠ .ready then (.noDevice, d)
  else if ¬(startLba ≤ d.blockCount ∧ count ≤ (d.blockCount - startLba).toNat) then (.invalid, d)
  else if ¬(buf ∨ count = 0) then (.invalid, d)
  else if ¬(d.sdhc ∨ startLba ≤ 1#32 <<< 23 ∧ count ≤ (1#32 <<< 23 - startLba).toNat) then (.invalid, d)
  else transferLoop single startLba count 0 d

/-! ## What the CSD says -/

/-- Bits `[low + width - 1 : low]`. -/
def field (csd : BitVec 128) (low width : ℕ) : ℕ := csd.toNat / 2 ^ low % 2 ^ width

def csdVersion (csd : BitVec 128) : ℕ := field csd 126 2

def bytesV1 (csd : BitVec 128) : ℕ := (field csd 62 12 + 1) * 2 ^ (field csd 47 3 + 2) * 2 ^ field csd 80 4

/-- The sectors of 512 bytes on the card. -/
def capacity (csd : BitVec 128) : ℕ :=
  if csdVersion csd = 1 then (field csd 48 22 + 1) * 1024 else bytesV1 csd / 512

/-! ## The fields in the response registers -/

theorem toNat_readResponse (csd : BitVec 128) (index : ℕ) :
    (readResponse csd index).toNat = csd.toNat / 2 ^ (8 + 32 * index) % 2 ^ 32 := by
  rw [readResponse, BitVec.toNat_setWidth, BitVec.toNat_ushiftRight, Nat.shiftRight_eq_div_pow]

theorem toNat_and_mask (x : BitVec 32) {k : ℕ} (hk : k ≤ 32) :
    (x &&& BitVec.ofNat 32 (2 ^ k - 1)).toNat = x.toNat % 2 ^ k := by
  have hpos := Nat.two_pow_pos k
  have hle : 2 ^ k ≤ 2 ^ 32 := Nat.pow_le_pow_right (by decide) hk
  rw [BitVec.toNat_and, BitVec.toNat_ofNat, Nat.mod_eq_of_lt (by omega), Nat.and_two_pow_sub_one_eq_mod]

theorem version_field (csd : BitVec 128) : ((readResponse csd 3 >>> 22) &&& 0x3).toNat = csdVersion csd := by
  have hx := csd.isLt
  show ((readResponse csd 3 >>> 22) &&& BitVec.ofNat 32 (2 ^ 2 - 1)).toNat = _
  rw [toNat_and_mask _ (by decide), BitVec.toNat_ushiftRight, Nat.shiftRight_eq_div_pow, toNat_readResponse, csdVersion,
    field]
  omega

theorem cSizeV2_field (csd : BitVec 128) : ((readResponse csd 1 >>> 8) &&& 0x3FFFFF).toNat = field csd 48 22 := by
  show ((readResponse csd 1 >>> 8) &&& BitVec.ofNat 32 (2 ^ 22 - 1)).toNat = _
  rw [toNat_and_mask _ (by decide), BitVec.toNat_ushiftRight, Nat.shiftRight_eq_div_pow, toNat_readResponse, field]
  omega

theorem readBlLen_field (csd : BitVec 128) : ((readResponse csd 2 >>> 8) &&& 0xF).toNat = field csd 80 4 := by
  show ((readResponse csd 2 >>> 8) &&& BitVec.ofNat 32 (2 ^ 4 - 1)).toNat = _
  rw [toNat_and_mask _ (by decide), BitVec.toNat_ushiftRight, Nat.shiftRight_eq_div_pow, toNat_readResponse, field]
  omega

theorem cSizeMult_field (csd : BitVec 128) : ((readResponse csd 1 >>> 7) &&& 0x7).toNat = field csd 47 3 := by
  show ((readResponse csd 1 >>> 7) &&& BitVec.ofNat 32 (2 ^ 3 - 1)).toNat = _
  rw [toNat_and_mask _ (by decide), BitVec.toNat_ushiftRight, Nat.shiftRight_eq_div_pow, toNat_readResponse, field]
  omega

theorem cSizeV1_field (csd : BitVec 128) :
    (((readResponse csd 2 &&& 0x3) <<< 10) ||| (readResponse csd 1 >>> 22)).toNat = field csd 62 12 := by
  have hlow : (readResponse csd 1 >>> 22).toNat = csd.toNat / 2 ^ (8 + 32 * 1) % 2 ^ 32 / 2 ^ 22 := by
    rw [BitVec.toNat_ushiftRight, Nat.shiftRight_eq_div_pow, toNat_readResponse]
  have hmask : (readResponse csd 2 &&& 0x3).toNat = csd.toNat / 2 ^ (8 + 32 * 2) % 2 ^ 32 % 2 ^ 2 := by
    rw [← toNat_readResponse]
    exact toNat_and_mask (readResponse csd 2) (k := 2) (by decide)
  have hhigh : ((readResponse csd 2 &&& 0x3) <<< 10).toNat = (readResponse csd 2 &&& 0x3).toNat <<< 10 := by
    rw [BitVec.toNat_shiftLeft, Nat.mod_eq_of_lt]
    rw [Nat.shiftLeft_eq, hmask]
    omega
  have hlt : (readResponse csd 1 >>> 22).toNat < 2 ^ 10 := by
    rw [hlow]
    omega
  rw [BitVec.toNat_or, hhigh, ← Nat.shiftLeft_add_eq_or_of_lt hlt, Nat.shiftLeft_eq, hmask, hlow, field]
  omega

/-! ## The block count -/

theorem csdVersion_eq_one (csd : BitVec 128) :
    (readResponse csd 3 >>> 22) &&& 0x3 = 1 ↔ csdVersion csd = 1 := by
  rw [← version_field, ← BitVec.toNat_inj]
  rfl

theorem csdVersion_eq_zero (csd : BitVec 128) :
    (readResponse csd 3 >>> 22) &&& 0x3 = 0 ↔ csdVersion csd = 0 := by
  rw [← version_field, ← BitVec.toNat_inj]
  rfl

theorem readCsd_v2 {csd : BitVec 128} (hv : csdVersion csd = 1) (d : SdDevice) :
    ∃ n : BitVec 32, readCsd (.ok csd) d = (.none, { d with blockCount := n }) ∧
      n.toNat = (field csd 48 22 + 1) * 1024 % 2 ^ 32 := by
  refine ⟨(((readResponse csd 1 >>> 8) &&& 0x3FFFFF) + 1) * 1024, ?_, ?_⟩
  · simp only [readCsd]
    rw [if_pos ((csdVersion_eq_one csd).2 hv)]
  · rw [BitVec.toNat_mul, BitVec.toNat_add, cSizeV2_field]
    show (field csd 48 22 + 1) % 2 ^ 32 * 1024 % 2 ^ 32 = _
    rw [Nat.mod_mul_mod]

theorem readCsd_v1 {csd : BitVec 128} (hv : csdVersion csd = 0) (d : SdDevice) :
    ∃ n : BitVec 32, readCsd (.ok csd) d = (.none, { d with blockCount := n }) ∧
      n.toNat = bytesV1 csd % 2 ^ 32 / 512 := by
  have hone : ¬(readResponse csd 3 >>> 22) &&& 0x3 = 1 := by
    rw [csdVersion_eq_one, hv]
    decide
  have hmult : (((readResponse csd 1 >>> 7) &&& 0x7) + 2).toNat = field csd 47 3 + 2 := by
    have hlt : field csd 47 3 < 2 ^ 3 := Nat.mod_lt _ (by decide)
    rw [BitVec.toNat_add, cSizeMult_field]
    exact Nat.mod_eq_of_lt (show field csd 47 3 + 2 < 2 ^ 32 by omega)
  have hsize : ((((readResponse csd 2 &&& 0x3) <<< 10) ||| (readResponse csd 1 >>> 22)) + 1).toNat =
      field csd 62 12 + 1 := by
    have hlt : field csd 62 12 < 2 ^ 12 := Nat.mod_lt _ (by decide)
    rw [BitVec.toNat_add, cSizeV1_field]
    exact Nat.mod_eq_of_lt (show field csd 62 12 + 1 < 2 ^ 32 by omega)
  refine ⟨_, by simp only [readCsd]; rw [if_neg hone, if_pos ((csdVersion_eq_zero csd).2 hv)], ?_⟩
  rw [BitVec.toNat_udiv, BitVec.toNat_mul, BitVec.shiftLeft_eq', BitVec.shiftLeft_eq', BitVec.toNat_shiftLeft,
    BitVec.toNat_shiftLeft, Nat.shiftLeft_eq, Nat.shiftLeft_eq, hmult, hsize, readBlLen_field, ← Nat.mul_mod]
  show (field csd 62 12 + 1) * 2 ^ (field csd 47 3 + 2) * (1 * 2 ^ field csd 80 4) % 2 ^ 32 / 512 = _
  rw [Nat.one_mul, bytesV1]

/-- The product of the fields, as the code forms it, is below `2 ^ 32`. -/
def Unwrapped (csd : BitVec 128) : Prop :=
  if csdVersion csd = 1 then capacity csd < 2 ^ 32 else bytesV1 csd < 2 ^ 32

theorem readCsd_blockCount {csd : BitVec 128} (hv : csdVersion csd ≤ 1) (d : SdDevice) :
    ∃ n : BitVec 32, readCsd (.ok csd) d = (.none, { d with blockCount := n }) ∧
      (n.toNat = capacity csd ↔ Unwrapped csd) := by
  rcases Nat.le_one_iff_eq_zero_or_eq_one.1 hv with h | h
  · obtain ⟨n, hn, hcount⟩ := readCsd_v1 h d
    refine ⟨n, hn, ?_⟩
    have hone : ¬csdVersion csd = 1 := by omega
    rw [hcount, Unwrapped, if_neg hone, capacity, if_neg hone]
    omega
  · obtain ⟨n, hn, hcount⟩ := readCsd_v2 h d
    refine ⟨n, hn, ?_⟩
    rw [hcount, Unwrapped, if_pos h, capacity, if_pos h]
    omega

/-! ## The ranges that are accepted -/

/-- The device knows a card of `n` sectors: it starts a transfer exactly for the ranges that lie on it. -/
structure Sized (n : ℕ) (d : SdDevice) : Prop where
  blockCount : d.blockCount.toNat = n
  accepts : ∀ (single : BitVec 32 → Error) (startLba : BitVec 32) (count : ℕ),
    transferBlocks single startLba true count d =
      if startLba.toNat + count ≤ n then transferLoop single startLba count 0 d else (.invalid, d)

theorem range_le_iff (startLba n : BitVec 32) (count : ℕ) :
    startLba ≤ n ∧ count ≤ (n - startLba).toNat ↔ startLba.toNat + count ≤ n.toNat := by
  rw [BitVec.le_def]
  constructor
  · rintro ⟨hle, hcount⟩
    rw [BitVec.toNat_sub_of_le (BitVec.le_def.2 hle)] at hcount
    omega
  · intro h
    have hle : startLba.toNat ≤ n.toNat := by omega
    rw [BitVec.toNat_sub_of_le (BitVec.le_def.2 hle)]
    exact ⟨hle, by omega⟩

theorem transferBlocks_ready {d : SdDevice} (hd : d.state = .ready) (single : BitVec 32 → Error)
    (startLba : BitVec 32) (count : ℕ) :
    transferBlocks single startLba true count d =
      if startLba.toNat + count ≤ d.blockCount.toNat ∧ (d.sdhc ∨ startLba.toNat + count ≤ 2 ^ 23) then
        transferLoop single startLba count 0 d
      else (.invalid, d) := by
  have hlimit : (1#32 <<< 23).toNat = 2 ^ 23 := rfl
  simp only [transferBlocks, hd, range_le_iff, hlimit, ne_eq, not_true_eq_false, true_or, if_false]
  by_cases hcount : startLba.toNat + count ≤ d.blockCount.toNat
  · by_cases hreach : d.sdhc ∨ startLba.toNat + count ≤ 2 ^ 23
    · rw [if_neg (not_not.2 hcount), if_neg (not_not.2 hreach), if_pos ⟨hcount, hreach⟩]
    · rw [if_neg (not_not.2 hcount), if_pos hreach, if_neg fun h => hreach h.2]
  · rw [if_pos hcount, if_neg fun h => hcount h.1]

theorem sized_iff {d : SdDevice} (hd : d.state = .ready) (n : ℕ) :
    Sized n d ↔ d.blockCount.toNat = n ∧ (d.sdhc ∨ n ≤ 2 ^ 23) := by
  constructor
  · intro h
    refine ⟨h.blockCount, ?_⟩
    by_contra hnot
    rw [not_or, Bool.not_eq_true, Nat.not_le] at hnot
    -- the sector after the last one that a byte address of 32 bits reaches
    have hsector := h.accepts (fun _ => .none) (1#32 <<< 23) 1
    have hon : (1#32 <<< 23).toNat + 1 ≤ n := hnot.2
    rw [transferBlocks_ready hd, if_pos hon, if_neg] at hsector
    · cases congrArg Prod.fst hsector
    · rintro ⟨-, hsdhc | hle⟩
      · rw [hnot.1] at hsdhc
        cases hsdhc
      · exact absurd hle (by decide)
  · rintro ⟨rfl, hreach⟩
    refine ⟨rfl, fun single startLba count => ?_⟩
    rw [transferBlocks_ready hd]
    refine if_congr ⟨And.left, fun hle => ⟨hle, hreach.imp id fun h => hle.trans h⟩⟩ rfl rfl

theorem csd_capacity (csd : BitVec 128) (d : SdDevice) (hv : csdVersion csd ≤ 1) :
    (readCsd (.ok csd) d).1 = .none ∧
      (Sized (capacity csd) { (readCsd (.ok csd) d).2 with state := .ready } ↔
        Unwrapped csd ∧ (d.sdhc ∨ capacity csd ≤ 2 ^ 23)) := by
  obtain ⟨n, hread, hcount⟩ := readCsd_blockCount hv d
  rw [hread]
  refine ⟨rfl, ?_⟩
  rw [sized_iff rfl]
  exact and_congr hcount Iff.rfl

/-- A card of 4 GiB, with blocks of 2 KiB and byte addresses. -/
def fourGibCsd : BitVec 128 := 11#128 <<< 80 ||| 4095#128 <<< 62 ||| 7#128 <<< 47

/-- A card of 8 GB with block addresses. -/
def sdhcCsd : BitVec 128 := 1#128 <<< 126 ||| 9#128 <<< 80 ||| 15271#128 <<< 48

def identified (sdhc : Bool) : SdDevice := ⟨.initializing, true, 0x4567, sdhc, 0⟩

theorem csd_capacity_wraps :
    capacity fourGibCsd = 2 ^ 23 ∧ (readCsd (.ok fourGibCsd) (identified false)).2.blockCount = 0 ∧
      ¬Sized (capacity fourGibCsd) { (readCsd (.ok fourGibCsd) (identified false)).2 with state := .ready } := by
  have hcap : capacity fourGibCsd = 2 ^ 23 := by decide
  have hcount : (readCsd (.ok fourGibCsd) (identified false)).2.blockCount = 0 := by decide
  refine ⟨hcap, hcount, fun h => ?_⟩
  have hsize := h.blockCount
  rw [hcap, hcount] at hsize
  exact absurd hsize (by decide)

theorem csd_capacity_sdhc :
    csdVersion sdhcCsd ≤ 1 ∧
      Sized 15638528 { (readCsd (.ok sdhcCsd) (identified true)).2 with state := .ready } := by
  have hv : csdVersion sdhcCsd ≤ 1 := by decide
  have hcap : capacity sdhcCsd = 15638528 := by decide
  have hfit : Unwrapped sdhcCsd := by
    rw [Unwrapped, if_pos (by decide), hcap]
    decide
  rw [← hcap]
  exact ⟨hv, (csd_capacity sdhcCsd (identified true) hv).2.2 ⟨hfit, Or.inl rfl⟩⟩

end Zonix.Sd
