import Zonix.Fat.AddEntry
import Zonix.Fat.Effects
import Zonix.Fat.ReadDir

/-! # The listing after `add_dir_entry`

`add_dir_entry` and `read_dir` of `kernel/fs/fat/fat_dir.cpp` on a directory with any bytes behind
its end mark.  An entry that replaces the end mark moves the mark to the next slot of the same
sector; the last slot of a sector has none, and what follows it comes into view. -/

namespace Zonix.Fat

open Prog Pointer

variable {dev : Device} {g : Geometry} {s s' : FatState} {V V' : Volume} {d n x tail : ℕ} {l : List ℕ}
  {e : FatDirEntry} {report : Bool}

/-- The slot `p` ends the directory, is the last of its sector, and the slots behind it would be
listed. -/
def ExposedAt (V : Volume) : List Pos → Prop
  | p :: B => (V.at p).isEnd = true ∧ p.2 % entriesPerSector = entriesPerSector - 1 ∧ shown (B.map V.at) ≠ []
  | [] => False

/-- The first free slot is such a slot. -/
def Exposed (g : Geometry) (V : Volume) (l : List ℕ) : Prop :=
  ExposedAt V ((positions g l).dropWhile fun p => !(V.at p).isFree)

instance (V : Volume) : (ps : List Pos) → Decidable (ExposedAt V ps)
  | p :: B => inferInstanceAs (Decidable ((V.at p).isEnd = true ∧ p.2 % entriesPerSector = entriesPerSector - 1 ∧
      shown (B.map V.at) ≠ []))
  | [] => inferInstanceAs (Decidable False)

instance (g : Geometry) (V : Volume) (l : List ℕ) : Decidable (Exposed g V l) :=
  inferInstanceAs (Decidable (ExposedAt V _))

def Gained (g : Geometry) (V V' : Volume) (d : ℕ) (l : List ℕ) (e : FatDirEntry) : Prop :=
  ∃ l', Chain g V' d l' ∧ ((listed g V' l').Perm (e :: listed g V l) ↔ ¬Exposed g V l)

theorem shown_ends {es : List FatDirEntry} (h : ∀ e ∈ es, e.isEnd = true) : shown es = [] := by
  cases es with
  | nil => rfl
  | cons e es => exact shown_end (h e List.mem_cons_self) es

theorem FatDirEntry.deleted_of_free (h : e.isFree = true) (hend : e.isEnd = false) : e.isValid = false := by
  unfold FatDirEntry.isFree at h
  unfold FatDirEntry.isValid
  simp_all

section InPlace

variable {A B : List Pos} {i j : ℕ}

theorem FirstHit.exposed_iff (h : FirstHit g V l FatDirEntry.isFree A x i j B) :
    Exposed g V l ↔ (V.at (x, entriesPerSector * i + j)).isEnd = true ∧ j = entriesPerSector - 1 ∧
      shown (B.map V.at) ≠ [] := by
  have hdrop : (positions g l).dropWhile (fun p => !(V.at p).isFree) = (x, entriesPerSector * i + j) :: B := by
    rw [h.split, List.dropWhile_append_of_pos (fun q hq => by simp [h.before q hq]),
      List.dropWhile_cons_of_neg (by simp [h.hit])]
  have hmod : (entriesPerSector * i + j) % entriesPerSector = j := by
    rw [Nat.mul_add_mod, Nat.mod_eq_of_lt h.slot]
  unfold Exposed
  rw [hdrop, ExposedAt, hmod]

theorem FirstHit.next (hnd : l.Nodup) (h : FirstHit g V l FatDirEntry.isFree A x i j B) (hj : j + 1 < entriesPerSector) :
    ∃ B', B = (x, entriesPerSector * i + (j + 1)) :: B' := by
  obtain ⟨l₁, l₂, rfl⟩ := List.append_of_mem h.mem
  have hk : entriesPerSector * i + (j + 1) < g.slots := slot_lt h.sector hj
  obtain ⟨B', hB'⟩ := positions_split (x := x) l₁ l₂ hk
  have hrange : List.range (entriesPerSector * i + (j + 1)) =
      List.range (entriesPerSector * i + j) ++ [entriesPerSector * i + j] := by
    rw [← Nat.add_assoc, List.range_succ]
  rw [hrange, List.map_append, List.map_singleton, ← List.append_assoc, List.append_assoc _ [_],
    List.singleton_append] at hB'
  have hnodup := positions_nodup (g := g) hnd
  have hsplit := h.split
  rw [hsplit] at hB' hnodup
  refine ⟨B', ?_⟩
  have hA : (x, entriesPerSector * i + j) ∉ A := fun hm => (List.nodup_append.mp hnodup).2.2 _ hm _ (by simp) rfl
  have hB : (x, entriesPerSector * i + j) ∉ B := (List.nodup_cons.mp (List.nodup_append.mp hnodup).2.1).1
  exact ((List.append_cons_inj_of_notMem hA hB).mp hB').2.2

theorem FirstHit.listed_perm (h : FirstHit g V l FatDirEntry.isFree A x i j B) (he : e.isValid = true)
    (hA : ∀ q ∈ A, V'.at q = V.at q) (hp : V'.at (x, entriesPerSector * i + j) = e) :
    (listed g V' l).Perm (e :: listed g V l) ↔
      (shown (B.map V'.at)).Perm (shown (V.at (x, entriesPerSector * i + j) :: B.map V.at)) := by
  have hends : ∀ a ∈ A.map V.at, a.isEnd = false := by
    intro a ha
    obtain ⟨q, hq, rfl⟩ := List.mem_map.mp ha
    exact isEnd_of_not_free (h.before q hq)
  have hsame : A.map V'.at = A.map V.at := List.map_congr_left hA
  have hnew : listed g V' l = (A.map V.at).filter FatDirEntry.isValid ++ e :: shown (B.map V'.at) := by
    unfold listed slotsOf
    rw [h.split, List.map_append, List.map_cons, hsame, shown_append hends, hp,
      shown_cons (FatDirEntry.isEnd_of_valid he), if_pos he]
  have hold : listed g V l = (A.map V.at).filter FatDirEntry.isValid ++
      shown (V.at (x, entriesPerSector * i + j) :: B.map V.at) := by
    unfold listed slotsOf
    rw [h.split, List.map_append, List.map_cons, shown_append hends]
  rw [hnew, hold]
  constructor
  · intro hperm
    exact (List.perm_append_left_iff _).mp ((List.perm_cons e).mp (List.perm_middle.symm.trans hperm))
  · intro hperm
    exact List.perm_middle.trans ((hperm.append_left _).cons e)

theorem gained_in_place (hl : Chain g (vol g s.disk) d l)
    (h : FirstHit g (vol g s.disk) l FatDirEntry.isFree A x i j B) (he : e.isValid = true)
    (hw : s'.disk = putSector s.disk (g.dataLba x i) (placeEntry (s.disk (g.dataLba x i)) j e) true) :
    Gained g (vol g s.disk) (vol g s'.disk) d l e := by
  obtain ⟨hentry, hother⟩ := place_at (hl.valid x h.mem) h hw
  have hnodup := positions_nodup (g := g) hl.nodup
  rw [h.split] at hnodup
  have hA : ∀ q ∈ A, (vol g s'.disk).at q = (vol g s.disk).at q := by
    intro q hq
    have hne : q ≠ (x, entriesPerSector * i + j) := (List.nodup_append.mp hnodup).2.2 q hq _ (by simp)
    rw [hother q hne, if_neg]
    rintro ⟨-, rfl, hj⟩
    obtain ⟨B', rfl⟩ := h.next hl.nodup hj
    exact (List.nodup_append.mp hnodup).2.2 _ hq _ (by simp) rfl
  have hneB : ∀ q ∈ B, q ≠ (x, entriesPerSector * i + j) := by
    rintro q hq rfl
    exact (List.nodup_cons.mp (List.nodup_append.mp hnodup).2.1).1 hq
  refine ⟨l, hl.congr fun y _ => by rw [hw, vol_putSector_fat], ?_⟩
  rw [h.listed_perm he hA hentry, h.exposed_iff]
  cases hend : ((vol g s.disk).at (x, entriesPerSector * i + j)).isEnd with
  | false =>
    have hB : B.map (vol g s'.disk).at = B.map (vol g s.disk).at :=
      List.map_congr_left fun q hq => by rw [hother q (hneB q hq), if_neg (by simp [hend])]
    rw [hB, shown_cons hend, FatDirEntry.deleted_of_free h.hit hend]
    simp
  | true =>
    rw [shown_end hend, List.perm_nil]
    by_cases hj : j + 1 < entriesPerSector
    · obtain ⟨B', rfl⟩ := h.next hl.nodup hj
      have hzero : (vol g s'.disk).at (x, entriesPerSector * i + (j + 1)) = Block.zero := by
        rw [hother _ (hneB _ List.mem_cons_self), if_pos ⟨hend, rfl, hj⟩]
      rw [List.map_cons, hzero, shown_end zero_isEnd]
      simp only [true_iff]
      rintro ⟨-, rfl, -⟩
      exact absurd hj (by decide)
    · have hlast : j = entriesPerSector - 1 := by
        have hlt := h.slot
        omega
      have hB : B.map (vol g s'.disk).at = B.map (vol g s.disk).at :=
        List.map_congr_left fun q hq => by rw [hother q (hneB q hq), if_neg (fun hc => hj hc.2.2)]
      rw [hB]
      simp [hlast]

end InPlace

/-! ## Behind a full directory -/

theorem Linked.chain (h : Linked g s s' tail n e) (hl : Chain g (vol g s.disk) d (l ++ [tail])) :
    Chain g (vol g s'.disk) d ((l ++ [tail]) ++ [n]) := by
  obtain ⟨m, -, hp⟩ := hl.path
  have hmem : n ∉ l ++ [tail] := fun hn => (hl.fat_ne hn).1 h.free
  have htail : tail ∉ l := fun ht => (List.nodup_append.mp hl.nodup).2.2 tail ht tail (by simp) rfl
  have hbefore : Path (vol g s'.disk).fat d l tail := by
    refine (path_snoc.mp hp).1.congr fun y hy => h.fat y ?_ ?_
    · rintro rfl
      exact htail hy
    · rintro rfl
      exact hmem (List.mem_append_left _ hy)
  refine ⟨by simp, fun y hy => ?_, _, h.eoc, path_snoc.mpr ⟨path_snoc.mpr ⟨hbefore, h.link⟩, rfl⟩⟩
  rcases List.mem_append.mp hy with hy | hy
  · exact hl.valid y hy
  · rw [List.mem_singleton.mp hy]
    exact h.valid

theorem Linked.new_slots (h : Linked g s s' tail n e) (he : e.isValid = true) :
    shown (slotsOf g (vol g s'.disk) [n]) = [e] := by
  obtain ⟨m, hm⟩ : ∃ m, g.slots = m + 1 := Nat.exists_eq_add_one.mpr (slots_pos g)
  have hslots : slotsOf g (vol g s'.disk) [n] = e :: (List.range m).map fun k => (vol g s'.disk).slot n (k + 1) := by
    unfold slotsOf positions
    rw [List.flatMap_singleton, List.map_map, hm, List.range_succ_eq_map, List.map_cons, List.map_map]
    refine congrArg₂ _ ?_ rfl
    show (vol g s'.disk).slot n 0 = e
    rw [h.slot (slots_pos g), if_pos rfl]
  rw [hslots, shown_cons (FatDirEntry.isEnd_of_valid he), if_pos he, shown_ends]
  intro a ha
  obtain ⟨k, hk, rfl⟩ := List.mem_map.mp ha
  have hk := List.mem_range.mp hk
  rw [h.slot (by omega), if_neg (by omega)]
  exact zero_isEnd

theorem not_exposed_of_full (hfull : ∀ p ∈ positions g l, (V.at p).isFree = false) : ¬Exposed g V l := by
  unfold Exposed
  rw [List.dropWhile_eq_nil_iff.mpr fun p hp => by simp [hfull p hp]]
  exact id

theorem gained_behind (hl : Chain g (vol g s.disk) d (l ++ [tail])) (h : Linked g s s' tail n e)
    (hfull : ∀ p ∈ positions g (l ++ [tail]), ((vol g s.disk).at p).isFree = false) (he : e.isValid = true) :
    Gained g (vol g s.disk) (vol g s'.disk) d (l ++ [tail]) e := by
  have hsame : slotsOf g (vol g s'.disk) (l ++ [tail]) = slotsOf g (vol g s.disk) (l ++ [tail]) := by
    refine List.map_congr_left fun p hp => h.data p.1 p.2 ?_
    intro hn
    exact (hl.fat_ne (mem_positions.mp hp).1).1 (hn ▸ h.free)
  have hends : ∀ a ∈ slotsOf g (vol g s.disk) (l ++ [tail]), a.isEnd = false := by
    intro a ha
    obtain ⟨p, hp, rfl⟩ := List.mem_map.mp ha
    exact isEnd_of_not_free (hfull p hp)
  refine ⟨_, h.chain hl, iff_of_true ?_ (not_exposed_of_full hfull)⟩
  have hnew : listed g (vol g s'.disk) ((l ++ [tail]) ++ [n]) = listed g (vol g s.disk) (l ++ [tail]) ++ [e] := by
    unfold listed
    rw [slotsOf_append, hsame, shown_append hends, h.new_slots he]
    congr 1
    rw [← List.append_nil (slotsOf g (vol g s.disk) (l ++ [tail])), shown_append hends]
    simp [shown]
  rw [hnew]
  exact List.perm_append_singleton e _

theorem extendDir_steady (report : Bool) (next : ℕ) (e : FatDirEntry) (hf : g.Fits dev) (hnot : ¬dev.Faulty)
    (hc : Coherent g s) (ht : g.Valid tail) (hused : (vol g s.disk).fat tail ≠ fat32Free) :
    wp (extendDir dev g report tail next e) (fun _ s' => Coherent g s' ∧ ∃ n, Linked g s s' tail n e)
      (fun _ s' => Quiet g s s') s := by
  unfold extendDir
  rw [wp_bind]
  refine wp_mono (allocCluster_wp hf hc) (fun n s₁ h₁ => ?_) fun err s₁ h₁ => ?_
  · have hne : n ≠ tail := fun hn => hused (hn ▸ h₁.free)
    unfold writeExtension
    rw [wp_bind, wp_onError]
    refine wp_mono (writeSectors_wp hf h₁.valid _ _ 0 (by omega) s₁) (fun _ s₂ h₂ => ?_)
      fun err s₂ h₂ => absurd h₂.2.1 hnot
    obtain ⟨hp, -, hnew, -⟩ := h₂
    rw [wp_onError]
    refine wp_mono (writeEntry_wp hf ht n (hp.sync h₁.coherent)) (fun _ s₃ h₃ => ?_)
      fun err s₃ h₃ => absurd h₃.2.1.1 hnot
    obtain ⟨hk, -, hsync, hw⟩ := h₃
    refine ⟨hsync.mono fun x _ => Or.inl trivial, n, linked_of_steps h₁ hne hp (fun i hi => hnew i (by omega) hi)
      (hk.touched fun x hx => ⟨trivial, hx⟩) ?_⟩
    rw [vol_fat _ ht, hw, h₁.valid.mod_eq]
  · obtain ⟨-, hfault | ⟨-, -, hq, -⟩⟩ := h₁
    · exact absurd hfault.1 hnot
    · exact hq

theorem addDirEntry_gained (report : Bool) (hf : g.Fits dev) (hnot : ¬dev.Faulty) (hc : Coherent g s)
    (hl : Chain g (vol g s.disk) d l) (he : e.isValid = true) :
    wp (addDirEntry dev g report d e)
      (fun _ s' => Coherent g s' ∧ Gained g (vol g s.disk) (vol g s'.disk) d l e)
      (fun _ s' => Coherent g s' ∧ s'.disk = s.disk ∧ ¬Exposed g (vol g s.disk) l) s := by
  obtain ⟨hd₀, -⟩ := report_same s report false
  have hc₀ : Coherent g (s.withReport report false) := report_sync false hc
  refine addDirEntry_rule report hf hc hl (fun err s' _ hfault => absurd (Or.inl hfault.1) hnot) ?_ ?_
  · intro A x i j B s₁ hfirst hq _
    have hd₁ := hq.disk.trans hd₀
    have hl₁ : Chain g (vol g s₁.disk) d l := by
      rw [hd₁]
      exact hl
    refine wp_mono (placeInSector_writes report e hf (hq.coherent hc₀) (hl.valid x hfirst.mem) hfirst)
      (fun r s₂ h₂ => ?_) fun err s₂ h₂ => absurd h₂.2.1.1 hnot
    obtain ⟨hr, hc₂, -, hw⟩ := h₂
    have hgain := gained_in_place hl₁ hfirst he hw
    rw [hd₁] at hgain
    exact ⟨hr, hc₂, hgain⟩
  · intro done tail s₁ hend hfull hq _
    have hd₁ := hq.disk.trans hd₀
    have hl₁ : Chain g (vol g s₁.disk) d (done ++ [tail]) := by
      rw [hd₁, ← hend]
      exact hl
    refine wp_mono (extendDir_steady report _ e hf hnot (hq.coherent hc₀) (hl₁.valid tail (by simp))
      (hl₁.fat_ne (by simp)).1) (fun _ s₂ h₂ => ?_) fun err s₂ h₂ => ?_
    · obtain ⟨hc₂, n, hlink⟩ := h₂
      have hgain := gained_behind hl₁ hlink hfull he
      rw [hd₁, ← hend] at hgain
      exact ⟨hc₂, hgain⟩
    · rw [hd₁, ← hend] at hfull
      exact ⟨h₂.coherent (hq.coherent hc₀), h₂.disk.trans hd₁, not_exposed_of_full hfull⟩

/-! ## The two functions together -/

/-- What `read_dir` lists. -/
def Lists (dev : Device) (g : Geometry) (d : ℕ) (s : FatState) (es : List FatDirEntry) : Prop :=
  (readDir dev g d collect [] s).1 = .ok (es, es.length)

/-- The listing after the call has one entry more, or is the same when the call failed. -/
def AddsOne (dev : Device) (g : Geometry) (report : Bool) (d : ℕ) (e : FatDirEntry) (s : FatState) : Prop :=
  ∃ es es', Lists dev g d s es ∧ Lists dev g d (addDirEntry dev g report d e s).2 es' ∧
    match (addDirEntry dev g report d e s).1 with
    | .ok _ => es'.Perm (e :: es)
    | .error _ => es' = es

theorem lists_listed (hf : g.Fits dev) (hnot : ¬dev.Faulty) (hc : Coherent g s) (hl : Chain g (vol g s.disk) d l) :
    Lists dev g d s (listed g (vol g s.disk) l) := by
  obtain ⟨s', hrun, -⟩ := (readDir_listed hf hl).outcome (fun h => hnot (Or.inl h)) hc
  unfold Lists
  rw [hrun]

theorem Lists.unique {es es' : List FatDirEntry} (h : Lists dev g d s es) (h' : Lists dev g d s es') : es = es' := by
  unfold Lists at h h'
  rw [h] at h'
  exact (Prod.mk.inj (Except.ok.inj h')).1

theorem add_dir_entry_lists_iff (dev : Device) (g : Geometry) (report : Bool) (d : ℕ) (l : List ℕ) (e : FatDirEntry)
    (s : FatState) (hf : g.Fits dev) (hnot : ¬dev.Faulty) (hc : Coherent g s) (hl : Chain g (vol g s.disk) d l)
    (he : e.isValid = true) : AddsOne dev g report d e s ↔ ¬Exposed g (vol g s.disk) l := by
  have hbefore := lists_listed hf hnot hc hl
  have hadd := addDirEntry_gained report hf hnot hc hl he
  unfold AddsOne
  unfold wp at hadd
  split at hadd
  · rename_i r s' hrun
    obtain ⟨hc', l', hl', hperm⟩ := hadd
    have hafter := lists_listed hf hnot hc' hl'
    rw [hrun, ← hperm]
    constructor
    · rintro ⟨es, es', h, h', hp⟩
      rw [hbefore.unique h, hafter.unique h']
      exact hp
    · intro hp
      exact ⟨_, _, hbefore, hafter, hp⟩
  · rename_i err s' hrun
    obtain ⟨hc', hd', hexp⟩ := hadd
    have hafter := lists_listed hf hnot hc' (hd'.symm ▸ hl)
    rw [hd'] at hafter
    rw [hrun]
    exact iff_of_true ⟨_, _, hbefore, hafter, rfl⟩ hexp

theorem add_dir_entry_lists_sample : AddsOne (steadyDevice sampleGeometry) sampleGeometry false 2
    (makeEntry ([0x42], []) attrArchive 0) sampleState :=
  (add_dir_entry_lists_iff (steadyDevice sampleGeometry) sampleGeometry false 2 [2] (makeEntry ([0x42], []) attrArchive 0)
    sampleState (steadyDevice_fits _) (steadyDevice_steady _) (coherent_of_invalid rfl) (chain_single (by decide) (by decide))
    (by decide)).mpr (by decide)

/-- A directory of two clusters: fifteen entries, an end mark in the last slot of the first cluster,
and an old entry in the second. -/
def crowdedDisk : ℕ → Sector
  | 0 => sampleBoot
  | 1 => (Block.zero.setWord32 8 3).setWord32 12 fat32EocMax
  | 2 => Block.ofBytes fun i => if i < 480 ∧ i % 32 < 11 then 0x41 else 0
  | 3 => Block.zero.setEntry 0 (makeEntry ([0x43], []) attrArchive 0)
  | _ => Block.zero

def crowdedState : FatState := ⟨crowdedDisk, Block.zero, fatInvalidSector, false, false, 0, []⟩

/-- The entry replaces the end mark, and the old one is listed again. -/
theorem add_dir_entry_exposes : Chain sampleGeometry (vol sampleGeometry crowdedState.disk) 2 [2, 3] ∧
    (makeEntry ([0x42], []) attrArchive 0).isValid = true ∧
    (addDirEntry (steadyDevice sampleGeometry) sampleGeometry false 2 (makeEntry ([0x42], []) attrArchive 0)
      crowdedState).1 = .ok () ∧
    ¬AddsOne (steadyDevice sampleGeometry) sampleGeometry false 2 (makeEntry ([0x42], []) attrArchive 0) crowdedState := by
  have hbefore : (readDir (steadyDevice sampleGeometry) sampleGeometry 2 collect [] crowdedState).1.map Prod.snd =
      .ok 15 := by decide +kernel
  have hafter : (readDir (steadyDevice sampleGeometry) sampleGeometry 2 collect []
      (addDirEntry (steadyDevice sampleGeometry) sampleGeometry false 2 (makeEntry ([0x42], []) attrArchive 0)
        crowdedState).2).1.map Prod.snd = .ok 17 := by decide +kernel
  have hok : (addDirEntry (steadyDevice sampleGeometry) sampleGeometry false 2 (makeEntry ([0x42], []) attrArchive 0)
      crowdedState).1 = .ok () := by decide +kernel
  refine ⟨⟨by simp, ?_, _, ?_, rfl, rfl, rfl⟩, by decide, hok, ?_⟩
  · decide
  · decide
  · rintro ⟨es, es', h, h', hp⟩
    rw [hok] at hp
    rw [Lists] at h h'
    rw [h] at hbefore
    rw [h'] at hafter
    have hcount : es.length = 15 := Except.ok.inj hbefore
    have hcount' : es'.length = 17 := Except.ok.inj hafter
    have hlen := hp.length_eq
    rw [hcount', List.length_cons, hcount] at hlen
    exact absurd hlen (by decide)

end Zonix.Fat
