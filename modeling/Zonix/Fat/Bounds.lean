import Mathlib
import Zonix.Fat.Runs

/-! # Bounds of an accepted volume

The checks of `FatInfo::mount` are made in 64 bits; the addresses that `read_entry`, `write_entry`,
`unmount` and `cluster_to_sector` compute later are `uint32_t`.  For an accepted boot sector none of
those computations wraps, and the areas of the volume lie apart from each other inside the device. -/

namespace Zonix.Fat

open Prog

variable (g : Geometry)

inductive Area where
  | reserved
  | fat (i : ℕ)
  | cluster (c : ℕ)
  deriving Repr, DecidableEq

/-- The volume has this area. -/
def Area.On : Area → Prop
  | .reserved => True
  | .fat i => i < g.fatCount
  | .cluster c => g.validCluster c

def Area.lbas : Area → Set ℕ
  | .reserved => Set.Ico g.partitionStart (g.partitionStart + g.reservedSectors)
  | .fat i => Set.Ico (g.partitionStart + g.fatStart + i * g.fatSectors)
      (g.partitionStart + g.fatStart + (i + 1) * g.fatSectors)
  | .cluster c => {lba | ∃ k < g.sectorsPerCluster, lba = g.clusterLba c k}

/-- No `uint32_t` computation of the driver wraps: in `do_init_state`, for the FAT entry of a
cluster in each copy (`unmount` adds in another order), and for the sectors of a cluster. -/
structure Unwrapped : Prop where
  init : bytesPerSector * g.sectorsPerCluster < 2 ^ 32 ∧ g.fatCount * g.fatSectors < 2 ^ 32 ∧
    g.fatStart + g.fatCount * g.fatSectors < 2 ^ 32 ∧ g.dataStart ≤ g.totalSectors ∧
    g.clusterCount + 2 < 2 ^ 32
  entry : ∀ c, g.validCluster c → c * 2 ^ 2 < 2 ^ 32 ∧ g.fatStart + c * 2 ^ 2 / bytesPerSector < 2 ^ 32 ∧
    g.partitionStart + g.fatSector c < 2 ^ 32
  copy : ∀ c i, g.validCluster c → i < g.fatCount → i * g.fatSectors < 2 ^ 32 ∧
    g.partitionStart + g.fatSector c + i * g.fatSectors < 2 ^ 32 ∧ g.fatStart ≤ g.fatSector c ∧
    g.fatStart + i * g.fatSectors + (g.fatSector c - g.fatStart) < 2 ^ 32
  data : ∀ c k, g.validCluster c → k < g.sectorsPerCluster → 2 ≤ c ∧
    (c - 2) * g.sectorsPerCluster < 2 ^ 32 ∧ g.dataStart + (c - 2) * g.sectorsPerCluster < 2 ^ 32 ∧
    g.partitionStart + g.clusterToSector c + k < 2 ^ 32

/-- What a mounted volume can rely on. -/
structure InBounds (dev : Device) : Prop where
  fat : ∀ c i, g.validCluster c → i < g.fatCount → g.copyLba (g.fatSector c) i ∈ (Area.fat i).lbas g
  read : ∀ c, g.validCluster c → g.lba (g.fatSector c) ∈ (Area.fat 0).lbas g
  data : ∀ c k, g.validCluster c → k < g.sectorsPerCluster →
    g.dataStart ≤ g.clusterToSector c + k ∧ g.clusterToSector c + k < g.totalSectors ∧
    g.clusterLba c k = g.partitionStart + (g.clusterToSector c + k)
  apart : ∀ a b : Area, a.On g → b.On g → a ≠ b → Disjoint (a.lbas g) (b.lbas g)
  inside : ∀ a : Area, a.On g → ∀ lba ∈ a.lbas g, g.partitionStart ≤ lba ∧
    lba < g.partitionStart + g.totalSectors ∧ lba < dev.blockCount
  unwrapped : Unwrapped g

variable {g} {dev : Device} {c i k : ℕ}

theorem fat_rows_le (hi : i < g.fatCount) : (i + 1) * g.fatSectors ≤ g.fatCount * g.fatSectors :=
  Nat.mul_le_mul_right _ hi

theorem copyLba_mem (hc : g.Valid c) (hi : i < g.fatCount) :
    g.copyLba (g.fatSector c) i ∈ (Area.fat i).lbas g := by
  have hin := g.fatSector_inFat hc
  obtain ⟨heq, -⟩ := g.copyLba_eq hin hi
  unfold Geometry.InFat at hin
  rw [heq]
  simp only [Area.lbas, Set.mem_Ico, Nat.succ_mul]
  omega

theorem clusterToSector_eq (hc : g.Valid c) (hk : k < g.sectorsPerCluster) :
    g.clusterToSector c = g.dataStart + (c - 2) * g.sectorsPerCluster ∧
      g.dataStart + (c - 2) * g.sectorsPerCluster + k < g.totalSectors := by
  have hlt := g.dataLba_lt hc hk
  obtain ⟨hdata, hd, hp⟩ := g.layout
  have h2 : ¬c < 2 := Nat.not_lt.mpr hc.1
  unfold Geometry.dataLba at hlt
  unfold Geometry.clusterToSector
  rw [if_neg h2, u32_eq (show (c - 2) * g.sectorsPerCluster < 2 ^ 32 by omega), u32_eq (by omega)]
  omega

variable {lba : ℕ}

theorem mem_cluster_lbas (hc : g.Valid c) (h : lba ∈ (Area.cluster c).lbas g) :
    ∃ k < g.sectorsPerCluster, lba = g.dataLba c k := by
  obtain ⟨k, hk, rfl⟩ := h
  exact ⟨k, hk, g.clusterLba_eq hc hk⟩

theorem data_le_of_cluster (hc : g.Valid c) (h : lba ∈ (Area.cluster c).lbas g) :
    g.partitionStart + g.dataStart ≤ lba := by
  obtain ⟨k, -, rfl⟩ := mem_cluster_lbas hc h
  unfold Geometry.dataLba
  omega

theorem between_of_fat (hi : i < g.fatCount) (h : lba ∈ (Area.fat i).lbas g) :
    g.partitionStart + g.reservedSectors ≤ lba ∧ lba < g.partitionStart + g.dataStart := by
  have hrows := fat_rows_le hi
  simp only [Area.lbas, Set.mem_Ico, Geometry.fatStart] at h
  unfold Geometry.dataStart Geometry.fatStart
  omega

theorem fat_apart {j : ℕ} (hij : i ≠ j) : Disjoint ((Area.fat i).lbas g) ((Area.fat j).lbas g) := by
  rw [Set.disjoint_left]
  intro lba hi hj
  simp only [Area.lbas, Set.mem_Ico] at hi hj
  rcases Nat.lt_or_gt_of_ne hij with hlt | hlt
  · have hmul : (i + 1) * g.fatSectors ≤ j * g.fatSectors := Nat.mul_le_mul_right _ hlt
    omega
  · have hmul : (j + 1) * g.fatSectors ≤ i * g.fatSectors := Nat.mul_le_mul_right _ hlt
    omega

theorem cluster_apart {c' : ℕ} (hc : g.Valid c) (hc' : g.Valid c') (hne : c ≠ c') :
    Disjoint ((Area.cluster c).lbas g) ((Area.cluster c').lbas g) := by
  rw [Set.disjoint_left]
  intro lba h h'
  obtain ⟨k, hk, rfl⟩ := mem_cluster_lbas hc h
  obtain ⟨k', hk', he⟩ := mem_cluster_lbas hc' h'
  exact hne (g.dataLba_inj hc hc' hk hk' he).1

theorem reserved_lt (h : lba ∈ Area.reserved.lbas g) : lba < g.partitionStart + g.reservedSectors := h.2

theorem reserved_apart_fat (hi : i < g.fatCount) : Disjoint (Area.reserved.lbas g) ((Area.fat i).lbas g) := by
  refine Set.disjoint_left.mpr fun lba h h' => ?_
  have hlt := reserved_lt h
  have hbt := between_of_fat hi h'
  omega

theorem reserved_apart_cluster (hc : g.Valid c) :
    Disjoint (Area.reserved.lbas g) ((Area.cluster c).lbas g) := by
  have hstart : g.reservedSectors ≤ g.dataStart := Nat.le_add_right _ _
  refine Set.disjoint_left.mpr fun lba h h' => ?_
  have hlt := reserved_lt h
  have hle := data_le_of_cluster hc h'
  omega

theorem fat_apart_cluster (hi : i < g.fatCount) (hc : g.Valid c) :
    Disjoint ((Area.fat i).lbas g) ((Area.cluster c).lbas g) := by
  refine Set.disjoint_left.mpr fun lba h h' => ?_
  have hbt := between_of_fat hi h
  have hle := data_le_of_cluster hc h'
  omega

theorem area_apart {a b : Area} (ha : a.On g) (hb : b.On g) (hne : a ≠ b) : Disjoint (a.lbas g) (b.lbas g) := by
  have hvalid : ∀ {c}, (Area.cluster c).On g → g.Valid c := fun h => (g.validCluster_iff _).mp h
  cases a with
  | reserved =>
    cases b with
    | reserved => exact absurd rfl hne
    | fat j => exact reserved_apart_fat hb
    | cluster c' => exact reserved_apart_cluster (hvalid hb)
  | fat i =>
    cases b with
    | reserved => exact (reserved_apart_fat ha).symm
    | fat j => exact fat_apart fun he => hne (he ▸ rfl)
    | cluster c' => exact fat_apart_cluster ha (hvalid hb)
  | cluster c =>
    cases b with
    | reserved => exact (reserved_apart_cluster (hvalid ha)).symm
    | fat j => exact (fat_apart_cluster hb (hvalid ha)).symm
    | cluster c' => exact cluster_apart (hvalid ha) (hvalid hb) fun he => hne (he ▸ rfl)

theorem area_inside (hf : g.Fits dev) {a : Area} (ha : a.On g) (h : lba ∈ a.lbas g) :
    g.partitionStart ≤ lba ∧ lba < g.partitionStart + g.totalSectors ∧ lba < dev.blockCount := by
  obtain ⟨hdata, hd, hp⟩ := g.layout
  have hstart : g.reservedSectors ≤ g.dataStart := Nat.le_add_right _ _
  unfold Geometry.Fits at hf
  cases a with
  | reserved =>
    simp only [Area.lbas, Set.mem_Ico] at h
    omega
  | fat i =>
    have hbt := between_of_fat ha h
    omega
  | cluster c =>
    have hc : g.Valid c := (g.validCluster_iff c).mp ha
    have hle := data_le_of_cluster hc h
    obtain ⟨k, hk, rfl⟩ := mem_cluster_lbas hc h
    have hlt := g.dataLba_lt hc hk
    omega

theorem unwrapped (g : Geometry) : Unwrapped g := by
  obtain ⟨hdata, hd, hp⟩ := g.layout
  have hspc := g.sectorsPerCluster_le
  have hcount := clusterCount_le g
  unfold fat32ReservedMin at hcount
  have hvalid : ∀ {c}, g.validCluster c → g.Valid c := fun h => (g.validCluster_iff _).mp h
  refine ⟨?_, fun c hc => ?_, fun c i hc hi => ?_, fun c k hc hk => ?_⟩
  · unfold bytesPerSector
    omega
  · have hin := g.fatSector_inFat (hvalid hc)
    have hsec : g.fatSectors ≤ g.fatCount * g.fatSectors := Nat.le_mul_of_pos_left _ g.fatCount_pos
    have hrow := g.fat_rows (hvalid hc)
    have hlt : c < g.clusterCount + 2 := (hvalid hc).2
    unfold Geometry.InFat at hin
    unfold bytesPerSector
    omega
  · have hin := g.fatSector_inFat (hvalid hc)
    have hrows := fat_rows_le hi
    rw [Nat.succ_mul] at hrows
    unfold Geometry.InFat at hin
    omega
  · obtain ⟨heq, hlt⟩ := clusterToSector_eq (hvalid hc) hk
    have hge : 2 ≤ c := hc.1
    rw [heq]
    omega

/-- Every volume that `mount` accepts. -/
theorem mount_inBounds (dev : Device) (g : Geometry) (s s' : FatState) (h : mount dev s = (.ok g, s')) :
    InBounds g dev := by
  obtain ⟨hf, -⟩ := wp_ok (mount_wp dev s) h
  have hvalid : ∀ {c}, g.validCluster c → g.Valid c := fun h => (g.validCluster_iff _).mp h
  refine ⟨fun c i hc hi => copyLba_mem (hvalid hc) hi, fun c hc => ?_, fun c k hc hk => ?_,
    fun a b => area_apart, fun a ha lba => area_inside hf ha, unwrapped g⟩
  · rw [g.lba_inFat (g.fatSector_inFat (hvalid hc)), ← g.copyLba_zero (g.fatSector_inFat (hvalid hc))]
    exact copyLba_mem (hvalid hc) g.fatCount_pos
  · obtain ⟨heq, hlt⟩ := clusterToSector_eq (hvalid hc) hk
    have hlba := g.clusterLba_eq (hvalid hc) hk
    unfold Geometry.dataLba at hlba
    rw [hlba, heq]
    omega

theorem mount_inBounds_sample : InBounds sampleGeometry (steadyDevice sampleGeometry) :=
  mount_inBounds (steadyDevice sampleGeometry) sampleGeometry sampleState _ sample_mount

end Zonix.Fat
