import Zonix.Fat.Dir
import Zonix.Fat.Clusters

/-! # Looking through a directory

The driver's loops over the clusters, sectors and slots of a directory meet the slots in the order
of `positions`; the first one that a predicate accepts decides what happens. -/

namespace Zonix.Fat

open Prog Pointer

variable {dev : Device} {g : Geometry} {s s' : FatState} {c x start : ℕ} {l : List ℕ} {β : Type}

theorem slot_lt {i j : ℕ} (hi : i < g.sectorsPerCluster) (hj : j < entriesPerSector) :
    entriesPerSector * i + j < g.slots := by
  have hmul : entriesPerSector * (i + 1) ≤ entriesPerSector * g.sectorsPerCluster := Nat.mul_le_mul_left _ hi
  unfold Geometry.slots
  rw [Nat.mul_add] at hmul
  omega

theorem vol_slot (disk : ℕ → Sector) {i j : ℕ} (hv : g.Valid c) (hi : i < g.sectorsPerCluster)
    (hj : j < entriesPerSector) :
    (vol g disk).slot c (entriesPerSector * i + j) = (disk (g.dataLba c i)).entry j := by
  have hk := slot_lt hi hj
  have hdiv : (entriesPerSector * i + j) / entriesPerSector = i := by
    unfold entriesPerSector at hj ⊢
    omega
  have hmod : (entriesPerSector * i + j) % entriesPerSector = j := by
    unfold entriesPerSector at hj ⊢
    omega
  simp [vol, hv, hk, hdiv, hmod]

theorem slot_split {k : ℕ} (hk : k < g.slots) : ∃ i j, i < g.sectorsPerCluster ∧ j < entriesPerSector ∧
    k = entriesPerSector * i + j :=
  ⟨k / entriesPerSector, k % entriesPerSector, Nat.div_lt_of_lt_mul hk, Nat.mod_lt _ (by decide),
    (Nat.div_add_mod _ _).symm⟩

theorem positions_split (l₁ l₂ : List ℕ) {k : ℕ} (hk : k < g.slots) :
    ∃ B, positions g (l₁ ++ x :: l₂) = (positions g l₁ ++ (List.range k).map fun i => (x, i)) ++ (x, k) :: B := by
  obtain ⟨n, hn⟩ : ∃ n, g.slots = k + 1 + n := ⟨g.slots - k - 1, by omega⟩
  refine ⟨((List.range n).map fun i => (x, k + 1 + i)) ++ positions g l₂, ?_⟩
  have hx : positions g (x :: l₂) = positions g [x] ++ positions g l₂ := positions_append [x] l₂
  have hrange : positions g [x] = ((List.range k).map fun i => (x, i)) ++ (x, k) ::
      (List.range n).map fun i => (x, k + 1 + i) := by
    simp [positions, hn, List.range_add]
  rw [positions_append, hx, hrange]
  simp

/-! ## The first hit -/

def Skips (search : ℕ → Sector → FatM (Option β)) (pred : FatDirEntry → Bool) : Prop :=
  ∀ lba sector, (∀ j, j < entriesPerSector → pred (sector.entry j) = false) → search lba sector = pure none

section

variable {search : ℕ → Sector → FatM (Option β)} {pred : FatDirEntry → Bool} {E : Error → FatState → Prop}

section

variable (hf : g.Fits dev) (hv : g.Valid c) (hc : Coherent g s) (hskip : Skips search pred) (hfault : ∀ e s', Quiet g s s' → Faulted dev.ReadFaulty s e s' → E e s')
include hf hv hc hskip hfault

theorem scanSectors_from {Q : Option β → FatState → Prop}
    (hmiss : (∀ k, k < g.slots → pred ((vol g s.disk).slot c k) = false) → ∀ s', Quiet g s s' →
      s'.faults = s.faults → Q none s')
    (hhit : ∀ i j, i < g.sectorsPerCluster → j < entriesPerSector →
      pred ((vol g s.disk).slot c (entriesPerSector * i + j)) = true →
      (∀ k, k < entriesPerSector * i + j → pred ((vol g s.disk).slot c k) = false) → ∀ s', Quiet g s s' →
      s'.faults = s.faults → wp (search (g.clusterLba c i) (s.disk (g.dataLba c i)))
        (fun r s'' => r.isSome = true ∧ Q r s'') E s')
    (n i : ℕ) (hi : i + n = g.sectorsPerCluster)
    (hold : ∀ k, k < entriesPerSector * i → pred ((vol g s.disk).slot c k) = false) (s₁ : FatState)
    (hq : Quiet g s s₁) (hfl : s₁.faults = s.faults) : wp (scanSectors dev g c search n i) Q E s₁ := by
  induction n generalizing i s₁ with
  | zero =>
    refine hmiss (fun k hk => hold k ?_) s₁ hq hfl
    rw [show i = g.sectorsPerCluster by omega]
    exact hk
  | succ n ih =>
    unfold scanSectors
    rw [wp_bind]
    refine (reads_sector hf hv (by omega)).wp_ok (hq.coherent hc) (fun s₂ hq₂ hf₂ => ?_)
      fun e s₂ hq₂ hfault₂ => hfault e s₂ (hq.trans hq₂) (hfault₂.after hfl)
    rw [hq.disk, wp_bind]
    by_cases hex : ∃ j, j < entriesPerSector ∧ pred ((s.disk (g.dataLba c i)).entry j) = true
    · -- the least such slot of the sector is the first hit
      obtain ⟨hj, hpred⟩ := Nat.find_spec hex
      refine wp_mono (hhit i (Nat.find hex) (by omega) hj (by rw [vol_slot _ hv (by omega) hj]; exact hpred) ?_ s₂
        (hq.trans hq₂) (hf₂.trans hfl)) (fun r s₃ h₃ => ?_) fun _ _ h => h
      · intro k hk
        by_cases hlt : k < entriesPerSector * i
        · exact hold k hlt
        · obtain ⟨j, rfl⟩ : ∃ j, k = entriesPerSector * i + j := ⟨k - entriesPerSector * i, by omega⟩
          have hmin := Nat.find_min hex (m := j) (by omega)
          have hj' : j < entriesPerSector := by omega
          rw [vol_slot _ hv (by omega) hj']
          simpa [hj'] using hmin
      · cases r with
        | none => simp at h₃
        | some b => exact h₃.2
    · have hnone : ∀ j, j < entriesPerSector → pred ((s.disk (g.dataLba c i)).entry j) = false := by
        intro j hj
        cases hp : pred ((s.disk (g.dataLba c i)).entry j) with
        | false => rfl
        | true => exact absurd ⟨j, hj, hp⟩ hex
      rw [hskip _ _ hnone, wp_pure]
      refine ih (i + 1) (by omega) (fun k hk => ?_) s₂ (hq.trans hq₂) (hf₂.trans hfl)
      by_cases hlt : k < entriesPerSector * i
      · exact hold k hlt
      · obtain ⟨j, rfl⟩ : ∃ j, k = entriesPerSector * i + j := ⟨k - entriesPerSector * i, by omega⟩
        have hj' : j < entriesPerSector := by
          rw [Nat.mul_add] at hk
          omega
        rw [vol_slot _ hv (by omega) hj']
        exact hnone j hj'

theorem scanSectors_wp {Q : Option β → FatState → Prop}
    (hmiss : (∀ k, k < g.slots → pred ((vol g s.disk).slot c k) = false) → ∀ s', Quiet g s s' →
      s'.faults = s.faults → Q none s')
    (hhit : ∀ i j, i < g.sectorsPerCluster → j < entriesPerSector →
      pred ((vol g s.disk).slot c (entriesPerSector * i + j)) = true →
      (∀ k, k < entriesPerSector * i + j → pred ((vol g s.disk).slot c k) = false) → ∀ s', Quiet g s s' →
      s'.faults = s.faults → wp (search (g.clusterLba c i) (s.disk (g.dataLba c i)))
        (fun r s'' => r.isSome = true ∧ Q r s'') E s') :
    wp (scanSectors dev g c search g.sectorsPerCluster 0) Q E s :=
  scanSectors_from hf hv hc hskip hfault hmiss hhit _ 0 (by omega) (by simp) s (Quiet.refl s) rfl

end

structure FirstHit (g : Geometry) (V : Volume) (l : List ℕ) (pred : FatDirEntry → Bool) (A : List Pos)
    (x i j : ℕ) (B : List Pos) : Prop where
  split : positions g l = A ++ (x, entriesPerSector * i + j) :: B
  sector : i < g.sectorsPerCluster
  slot : j < entriesPerSector
  before : ∀ q ∈ A, pred (V.at q) = false
  within : ∀ k, k < j → pred (V.slot x (entriesPerSector * i + k)) = false
  hit : pred (V.at (x, entriesPerSector * i + j)) = true

theorem FirstHit.mem {V : Volume} {A B : List Pos} {i j : ℕ} (h : FirstHit g V l pred A x i j B) : x ∈ l := by
  have hm : (x, entriesPerSector * i + j) ∈ positions g l := by simp [h.split]
  exact (mem_positions.mp hm).1

theorem firstHit_of_cluster {V : Volume} {done rest : List ℕ} {i j : ℕ} (hl : l = done ++ x :: rest)
    (hdone : ∀ q ∈ positions g done, pred (V.at q) = false) (hi : i < g.sectorsPerCluster)
    (hj : j < entriesPerSector) (hit : pred (V.slot x (entriesPerSector * i + j)) = true)
    (hmin : ∀ k, k < entriesPerSector * i + j → pred (V.slot x k) = false) :
    ∃ A B, FirstHit g V l pred A x i j B := by
  have hk := slot_lt hi hj
  obtain ⟨B, hB⟩ := positions_split (x := x) done rest hk
  refine ⟨_, B, hl ▸ hB, hi, hj, fun q hq => ?_, fun k hk => hmin _ (by omega), hit⟩
  rcases List.mem_append.mp hq with hq | hq
  · exact hdone q hq
  · obtain ⟨k, hk, rfl⟩ := List.mem_map.mp hq
    exact hmin k (List.mem_range.mp hk)

theorem scanDir_wp {Q : Flow Unit β → FatState → Prop} (hf : g.Fits dev)
    (hl : Chain g (vol g s.disk) start l) (hc : Coherent g s) (hskip : Skips search pred)
    (hfault : ∀ e s', Quiet g s s' → Faulted dev.ReadFaulty s e s' → E e s')
    (hmiss : (∀ p ∈ positions g l, pred ((vol g s.disk).at p) = false) → ∀ s', Quiet g s s' →
      s'.faults = s.faults → Q (.next ()) s')
    (hhit : ∀ A x i j B, FirstHit g (vol g s.disk) l pred A x i j B → ∀ s', Quiet g s s' →
      s'.faults = s.faults → wp (search (g.clusterLba x i) (s.disk (g.dataLba x i)))
        (fun r s'' => ∃ b, r = some b ∧ Q (.stop b) s'') E s') :
    wp (scanDir dev g start search) Q E s := by
  unfold scanDir
  refine walkChain_wp hf (l := l) (I := fun done _ s₁ => Quiet g s s₁ ∧ s₁.faults = s.faults ∧
    ∀ p ∈ positions g done, pred ((vol g s.disk).at p) = false) ?_ () ⟨Quiet.refl s, rfl, by simp [positions]⟩
  constructor
  · intro done acc s₁ h₁
    exact ⟨h₁.1.coherent hc, h₁.1.disk ▸ hl⟩
  · intro done acc s₁ s₂ h₁ hq hfl
    exact ⟨h₁.1.trans hq, hfl.trans h₁.2.1, h₁.2.2⟩
  · intro done acc s₁ e s₂ h₁ hq hfault₁
    exact hfault e s₂ (h₁.1.trans hq) (hfault₁.after h₁.2.1)
  · intro done x rest acc s₁ hsplit _ h₁
    obtain ⟨hq₁, hf₁, hdone⟩ := h₁
    have hx : g.Valid x := hl.valid x (by simp [hsplit])
    rw [wp_bind]
    refine scanSectors_wp hf hx (hq₁.coherent hc) hskip
      (fun e s₂ hq hfault₂ => hfault e s₂ (hq₁.trans hq) (hfault₂.after hf₁)) ?_ ?_
    · intro hnone s₂ hq hfl
      rw [hq₁.disk] at hnone
      rw [wp_pure]
      refine ⟨hq₁.trans hq, hfl.trans hf₁, fun p hp => ?_⟩
      rw [positions_append, List.mem_append] at hp
      rcases hp with hp | hp
      · exact hdone p hp
      · obtain ⟨hpx, hk⟩ := mem_positions.mp hp
        rw [List.mem_singleton] at hpx
        rw [Volume.at, hpx]
        exact hnone p.2 hk
    · intro i j hi hj hit hmin s₂ hq hfl
      rw [hq₁.disk] at hit hmin ⊢
      obtain ⟨A, B, hfirst⟩ := firstHit_of_cluster hsplit hdone hi hj hit hmin
      refine wp_mono (hhit A x i j B hfirst s₂ (hq₁.trans hq) (hfl.trans hf₁)) (fun r s₃ h₃ => ?_) fun _ _ h => h
      obtain ⟨b, rfl, h₃⟩ := h₃
      exact ⟨rfl, h₃⟩
  · intro done rest acc s₁ hsplit hend h₁
    obtain rfl : rest = [] := by simpa using hend
    rw [List.append_nil] at hsplit
    exact hmiss (hsplit ▸ h₁.2.2) s₁ h₁.1 h₁.2.1

end

end Zonix.Fat
