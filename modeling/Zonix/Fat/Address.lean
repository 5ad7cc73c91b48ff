import Mathlib.Data.Nat.Bitwise
import Zonix.Fat.Core
import Zonix.Fat.Volume

/-! # Addresses and contents

What `mount` has checked makes every address computation exact: the FAT copies and the data
clusters lie inside the partition, apart from each other.  `vol` reads the volume off the disk
through the first FAT copy. -/

namespace Zonix.Fat

namespace Geometry

variable (g : Geometry)

theorem validCluster_iff (c : ℕ) : g.validCluster c ↔ g.Valid c := by
  have h := clusterCount_le g
  unfold fat32ReservedMin at h
  unfold validCluster Valid
  rw [u32_eq (by omega)]

theorem layout : g.dataStart = g.fatStart + g.fatCount * g.fatSectors ∧ g.dataStart < g.totalSectors ∧
    g.partitionStart + g.totalSectors < 2 ^ 32 := ⟨rfl, g.data_lt, g.partition_lt⟩

variable {c sector i : ℕ}

theorem fat_rows (h : g.Valid c) : c / 128 < g.fatSectors := by
  have hfit := g.fat_fits
  have hc : c < g.clusterCount + 2 := h.2
  change (g.clusterCount + 2) * 4 ≤ g.fatSectors * bytesPerSector at hfit
  unfold bytesPerSector at hfit
  omega

def InFat (sector : ℕ) : Prop := g.fatStart ≤ sector ∧ sector < g.fatStart + g.fatSectors

theorem fatSector_eq (h : g.Valid c) : g.fatSector c = g.fatStart + c / 128 := by
  have hrow := g.fat_rows h
  have hlt := h.lt_eoc
  obtain ⟨hdata, hd, hp⟩ := g.layout
  have hcount := g.fatCount_pos
  have hsec : g.fatSectors ≤ g.fatCount * g.fatSectors := Nat.le_mul_of_pos_left _ hcount
  unfold fat32EocMin at hlt
  unfold fatSector bytesPerSector
  rw [Nat.shiftLeft_eq, u32_eq (show c * 2 ^ 2 < 2 ^ 32 by omega), u32_eq (by omega)]
  omega

theorem fatSector_inFat (h : g.Valid c) : g.InFat (g.fatSector c) := by
  have hrow := g.fat_rows h
  rw [g.fatSector_eq h]
  exact ⟨by omega, by omega⟩

theorem entOffset_eq (h : g.Valid c) : entOffset c = 4 * (c % 128) := by
  have hlt := h.lt_eoc
  unfold fat32EocMin at hlt
  unfold entOffset bytesPerSector
  rw [Nat.shiftLeft_eq, u32_eq (show c * 2 ^ 2 < 2 ^ 32 by omega)]
  omega

def OtherCopy (lba : ℕ) : Prop :=
  g.partitionStart + g.fatStart + g.fatSectors ≤ lba ∧ lba < g.partitionStart + g.dataStart

def Outside (lba : ℕ) : Prop := lba < g.partitionStart + g.fatStart ∨ g.partitionStart + g.dataStart ≤ lba

theorem copyLba_zero (h : g.InFat sector) : g.copyLba sector 0 = g.partitionStart + sector := by
  obtain ⟨hdata, hd, hp⟩ := g.layout
  have hsec : g.fatSectors ≤ g.fatCount * g.fatSectors := Nat.le_mul_of_pos_left _ g.fatCount_pos
  unfold InFat at h
  unfold copyLba
  rw [Nat.zero_mul, Nat.add_zero, u32_eq (by omega)]

theorem lba_inFat (h : g.InFat sector) : g.lba sector = g.partitionStart + sector := by
  rw [← g.copyLba_zero h]
  simp [lba, copyLba]

theorem copyLba_eq (h : g.InFat sector) (hi : i < g.fatCount) :
    g.copyLba sector i = g.partitionStart + sector + i * g.fatSectors ∧
      g.partitionStart + sector + i * g.fatSectors < g.partitionStart + g.dataStart := by
  obtain ⟨hdata, hd, hp⟩ := g.layout
  have hrows : i * g.fatSectors + g.fatSectors ≤ g.fatCount * g.fatSectors := by
    rw [← Nat.succ_mul]
    exact Nat.mul_le_mul_right _ hi
  unfold InFat at h
  unfold copyLba
  rw [u32_eq (by omega)]
  omega

theorem copyLba_other (h : g.InFat sector) (h0 : 0 < i) (hi : i < g.fatCount) :
    g.OtherCopy (g.copyLba sector i) := by
  obtain ⟨heq, hlt⟩ := g.copyLba_eq h hi
  have hmul : g.fatSectors ≤ i * g.fatSectors := Nat.le_mul_of_pos_left _ h0
  unfold InFat at h
  rw [heq]
  exact ⟨by omega, hlt⟩

theorem copyLba_inj {sector' j : ℕ} (h : g.InFat sector) (h' : g.InFat sector') (hi : i < g.fatCount)
    (hj : j < g.fatCount) (he : g.copyLba sector i = g.copyLba sector' j) : sector = sector' ∧ i = j := by
  rw [(g.copyLba_eq h hi).1, (g.copyLba_eq h' hj).1] at he
  unfold InFat at h h'
  rcases Nat.lt_trichotomy i j with hlt | heq | hgt
  · have hmul : (i + 1) * g.fatSectors ≤ j * g.fatSectors := Nat.mul_le_mul_right _ hlt
    rw [Nat.succ_mul] at hmul
    omega
  · rw [heq] at he
    omega
  · have hmul : (j + 1) * g.fatSectors ≤ i * g.fatSectors := Nat.mul_le_mul_right _ hgt
    rw [Nat.succ_mul] at hmul
    omega

def dataLba (c i : ℕ) : ℕ := g.partitionStart + g.dataStart + (c - 2) * g.sectorsPerCluster + i

theorem dataLba_lt (h : g.Valid c) (hi : i < g.sectorsPerCluster) :
    g.dataLba c i < g.partitionStart + g.totalSectors := by
  obtain ⟨hdata, hd, hp⟩ := g.layout
  have hc : c - 2 + 1 ≤ g.clusterCount := by
    unfold Valid at h
    omega
  have hmul : (c - 2 + 1) * g.sectorsPerCluster ≤ g.clusterCount * g.sectorsPerCluster :=
    Nat.mul_le_mul_right _ hc
  have hdiv : g.clusterCount * g.sectorsPerCluster ≤ g.totalSectors - g.dataStart := Nat.div_mul_le_self _ _
  rw [Nat.succ_mul] at hmul
  unfold dataLba
  omega

theorem clusterLba_eq (h : g.Valid c) (hi : i < g.sectorsPerCluster) :
    g.clusterLba c i = g.dataLba c i := by
  have hlt := g.dataLba_lt h hi
  obtain ⟨hdata, hd, hp⟩ := g.layout
  have h2 : ¬c < 2 := Nat.not_lt.mpr h.1
  unfold dataLba at hlt ⊢
  unfold clusterLba clusterToSector
  rw [if_neg h2, u32_eq (show (c - 2) * g.sectorsPerCluster < 2 ^ 32 by omega),
    u32_eq (show g.dataStart + (c - 2) * g.sectorsPerCluster < 2 ^ 32 by omega), u32_eq (by omega)]
  omega

theorem dataLba_outside (c i : ℕ) : g.Outside (g.dataLba c i) := by
  right
  unfold dataLba
  omega

theorem dataLba_inj {c' i' : ℕ} (h : g.Valid c) (h' : g.Valid c') (hi : i < g.sectorsPerCluster)
    (hi' : i' < g.sectorsPerCluster) (he : g.dataLba c i = g.dataLba c' i') : c = c' ∧ i = i' := by
  have hpos := g.sectorsPerCluster_pos
  have hrow : (c - 2) * g.sectorsPerCluster + i = (c' - 2) * g.sectorsPerCluster + i' := by
    unfold dataLba at he
    omega
  have hdiv : c - 2 = c' - 2 := by
    have h1 : ((c - 2) * g.sectorsPerCluster + i) / g.sectorsPerCluster = c - 2 := by
      rw [Nat.mul_comm, Nat.mul_add_div hpos, Nat.div_eq_of_lt hi, Nat.add_zero]
    have h2 : ((c' - 2) * g.sectorsPerCluster + i') / g.sectorsPerCluster = c' - 2 := by
      rw [Nat.mul_comm, Nat.mul_add_div hpos, Nat.div_eq_of_lt hi', Nat.add_zero]
    rw [← h1, ← h2, hrow]
  rw [hdiv] at hrow
  unfold Valid at h h'
  omega

end Geometry

/-! ## Contents -/

variable (g : Geometry)

def fatWord (disk : ℕ → Sector) (c : ℕ) : ℕ :=
  (disk (g.partitionStart + g.fatSector c)).word32 (entOffset c)

/-- The volume on a disk. -/
def vol (disk : ℕ → Sector) : Volume where
  fat c := if g.Valid c then fatWord g disk c % 2 ^ 28 else 0
  slot c k :=
    if g.Valid c ∧ k < g.slots then (disk (g.dataLba c (k / entriesPerSector))).entry (k % entriesPerSector)
    else Block.zero

theorem and_clusterMask (v : ℕ) : v &&& fat32ClusterMask = v % 2 ^ 28 :=
  Nat.and_two_pow_sub_one_eq_mod v 28

theorem mergeEntry_lt {old : ℕ} (h : old < 2 ^ 32) (v : ℕ) : mergeEntry old v < 2 ^ 32 := by
  unfold mergeEntry
  refine Nat.or_lt_two_pow (Nat.lt_of_le_of_lt Nat.and_le_left h) ?_
  rw [and_clusterMask]
  omega

theorem mergeEntry_mod (old v : ℕ) : mergeEntry old v % 2 ^ 28 = v % 2 ^ 28 := by
  unfold mergeEntry
  rw [and_clusterMask, Nat.or_mod_two_pow, Nat.and_mod_two_pow, Nat.mod_mod]
  have hmask : (0xF0000000 : ℕ) % 2 ^ 28 = 0 := by decide
  rw [hmask, Nat.and_zero, Nat.zero_or]

end Zonix.Fat
