import Zonix.Fat.Lookup

/-! # Adding and removing entries

What `add_dir_entry` and `remove_dir_entry` do to the volume, whatever requests fail.  On an error
`add_dir_entry` has touched free clusters only, unless it reports that the entry may exist. -/

namespace Zonix.Fat

open Prog Pointer

variable {dev : Device} {g : Geometry} {s s' : FatState} {V V' : Volume} {c d n x tail : ℕ} {l : List ℕ}
  {p q : Pos} {name : List Byte} {e : FatDirEntry}

/-! ## One sector -/

theorem vol_putSector_fat {disk : ℕ → Sector} {i : ℕ} {data : Sector} {reached : Bool} :
    (vol g (putSector disk (g.dataLba x i) data reached)).fat c = (vol g disk).fat c := by
  by_cases hc : g.Valid c
  · rw [vol_fat _ hc, vol_fat _ hc, fatWord, fatWord, putSector, if_neg]
    rintro ⟨-, he⟩
    have hsec : g.fatSectors ≤ g.fatCount * g.fatSectors := Nat.le_mul_of_pos_left _ g.fatCount_pos
    have hdata := g.layout.1
    have hfat := g.fatSector_inFat hc
    unfold Geometry.InFat at hfat
    unfold Geometry.dataLba at he
    omega
  · simp [vol, hc]

theorem vol_putSector_slot (disk : ℕ → Sector) (data : Sector) {i j k : ℕ} (hx : g.Valid x)
    (hi : i < g.sectorsPerCluster) (hc : g.Valid c) (hj : j < g.sectorsPerCluster) (hk : k < entriesPerSector) :
    (vol g (putSector disk (g.dataLba x i) data true)).slot c (entriesPerSector * j + k) =
      if c = x ∧ j = i then data.entry k else (vol g disk).slot c (entriesPerSector * j + k) := by
  rw [vol_slot _ hc hj hk, vol_slot _ hc hj hk, putSector]
  by_cases h : c = x ∧ j = i
  · rw [if_pos h, if_pos ⟨rfl, by rw [h.1, h.2]⟩]
  · rw [if_neg h, if_neg]
    rintro ⟨-, he⟩
    exact h (g.dataLba_inj hc hx hj hi he)

theorem vol_at_invalid {disk : ℕ → Sector} (h : ¬(g.Valid q.1 ∧ q.2 < g.slots)) :
    (vol g disk).at q = Block.zero := by
  unfold Volume.at vol
  dsimp only
  rw [if_neg h]

theorem putSector_false (disk : ℕ → Sector) (lba : ℕ) (data : Sector) : putSector disk lba data false = disk := by
  funext a
  simp [putSector]

theorem vol_putSector_at (disk : ℕ → Sector) (data : Sector) {i : ℕ} (hx : g.Valid x)
    (hi : i < g.sectorsPerCluster) (q : Pos) :
    (∃ k, k < entriesPerSector ∧ q = (x, entriesPerSector * i + k) ∧
      (vol g (putSector disk (g.dataLba x i) data true)).at q = data.entry k) ∨
    ((∀ k, k < entriesPerSector → q ≠ (x, entriesPerSector * i + k)) ∧
      (vol g (putSector disk (g.dataLba x i) data true)).at q = (vol g disk).at q) := by
  by_cases hv : g.Valid q.1 ∧ q.2 < g.slots
  · obtain ⟨j, k, hj, hk, hq⟩ := slot_split hv.2
    have hslot := vol_putSector_slot disk data hx hi hv.1 hj hk
    by_cases h : q.1 = x ∧ j = i
    · left
      refine ⟨k, hk, Prod.ext h.1 (by rw [hq, h.2]), ?_⟩
      rw [Volume.at, hq, hslot, if_pos h]
    · right
      refine ⟨fun m hm he => h ⟨by rw [he], ?_⟩, by rw [Volume.at, hq, hslot, if_neg h, Volume.at, hq]⟩
      have h2 : q.2 = entriesPerSector * i + m := by rw [he]
      unfold entriesPerSector at *
      omega
  · right
    refine ⟨fun m hm he => hv ?_, by rw [vol_at_invalid hv, vol_at_invalid hv]⟩
    rw [he]
    exact ⟨hx, slot_lt hi hm⟩

/-! ## Removing -/

structure Marked (V V' : Volume) (p : Pos) : Prop where
  fat : ∀ x, V'.fat x = V.fat x
  other : ∀ q, q ≠ p → V'.at q = V.at q
  entry : V'.at p = (V.at p).markDeleted

theorem markDeleted_hidden (e : FatDirEntry) : e.markDeleted.isEnd = false ∧ e.markDeleted.isValid = false := by
  have hname : FatDirEntry.name e.markDeleted 0 = 0xE5 := by
    unfold FatDirEntry.name FatDirEntry.markDeleted
    rw [byte_ofBytes _ (by omega), if_pos rfl]
  unfold FatDirEntry.isValid FatDirEntry.isEnd FatDirEntry.isDeleted
  simp [hname]

theorem marked_of_write {i j : ℕ} (hx : g.Valid x) (hi : i < g.sectorsPerCluster) (hj : j < entriesPerSector)
    (hd : s'.disk = putSector s.disk (g.dataLba x i)
      ((s.disk (g.dataLba x i)).setEntry j ((s.disk (g.dataLba x i)).entry j).markDeleted) true) :
    Marked (vol g s.disk) (vol g s'.disk) (x, entriesPerSector * i + j) := by
  rw [hd]
  refine ⟨fun y => vol_putSector_fat, fun q hq => ?_, ?_⟩
  · rcases vol_putSector_at s.disk ((s.disk (g.dataLba x i)).setEntry j
      ((s.disk (g.dataLba x i)).entry j).markDeleted) hx hi q with ⟨k, hk, rfl, hat⟩ | ⟨-, hat⟩
    · have hkj : k ≠ j := by
        rintro rfl
        exact hq rfl
      rw [hat, entry_setEntry_ne _ _ _ _ hkj hk, Volume.at, vol_slot _ hx hi hk]
    · exact hat
  · rw [Volume.at, vol_putSector_slot _ _ hx hi hx hi hj, if_pos ⟨rfl, rfl⟩, entry_setEntry _ _ _ hj, Volume.at,
      vol_slot _ hx hi hj]

theorem removeInSector_skips (dev : Device) (name : List Byte) :
    Skips (removeInSector dev name) fun e => (searchSlot name e).isSome := by
  intro lba sector h
  unfold removeInSector
  rw [searchSector_none h]

theorem removeDirEntry_wp (hf : g.Fits dev) (hl : Chain g (vol g s.disk) d l) (hc : Coherent g s)
    (hlook : lookup g (vol g s.disk) l name = some p) :
    wp (removeDirEntry dev g d name)
      (fun _ s' => Marked (vol g s.disk) (vol g s'.disk) p ∧ Coherent g s' ∧ s'.faults = s.faults)
      (fun e s' => (s'.disk = s.disk ∨ Marked (vol g s.disk) (vol g s'.disk) p) ∧ Faulted dev.Faulty s e s') s := by
  unfold removeDirEntry
  rw [wp_bind]
  refine scanDir_wp hf hl hc (removeInSector_skips dev name)
    (fun e s₁ hq hfault => ⟨Or.inl hq.disk, hfault.imp Or.inl⟩) ?_ ?_
  · intro hmiss
    rw [lookup_miss hmiss] at hlook
    simp at hlook
  · intro A x i j B hfirst s₁ hq hfl
    have hv := hl.valid x hfirst.mem
    obtain ⟨here, hhere⟩ := Option.isSome_iff_exists.mp hfirst.hit
    have hlookup := hfirst.lookup hhere
    rw [hlook] at hlookup
    obtain rfl : here = true := by
      cases here with
      | false => simp at hlookup
      | true => rfl
    obtain rfl := Option.some.inj hlookup
    unfold removeInSector
    rw [hfirst.searchSector hv hhere, if_pos rfl]
    dsimp only
    rw [wp_bind]
    refine wp_mono (writeData_wp hf hv hfirst.sector _) (fun _ s₂ h₂ => ?_) fun e s₂ h₂ => ?_
    · obtain ⟨hp, hd, hf₂⟩ := h₂
      rw [hq.disk] at hd
      exact ⟨_, rfl, marked_of_write hv hfirst.sector hfirst.slot hd, hp.sync (hq.coherent hc), hf₂.trans hfl⟩
    · obtain ⟨-, ⟨reached, hd⟩, hfault⟩ := h₂
      rw [hq.disk] at hd
      refine ⟨?_, hfault.after hfl⟩
      cases reached with
      | false => exact Or.inl (hd.trans (putSector_false _ _ _))
      | true => exact Or.inr (marked_of_write hv hfirst.sector hfirst.slot hd)

/-! ## Adding in place -/

def FatDirEntry.isFree (e : FatDirEntry) : Bool := e.isEnd || e.isDeleted

theorem freeSlot_none {sector : Sector} (h : ∀ j, j < entriesPerSector → (sector.entry j).isFree = false) :
    freeSlot sector = none := by
  unfold freeSlot
  rw [List.find?_eq_none]
  intro j hj
  have hfree := h j (List.mem_range.mp hj)
  unfold FatDirEntry.isFree at hfree
  simp [hfree]

theorem freeSlot_some {sector : Sector} {j : ℕ} (hj : j < entriesPerSector)
    (hmin : ∀ k, k < j → (sector.entry k).isFree = false) (h : (sector.entry j).isFree = true) :
    freeSlot sector = some j := by
  obtain ⟨n, hn⟩ : ∃ n, entriesPerSector = j + (1 + n) := ⟨entriesPerSector - j - 1, by omega⟩
  have hfirst : (List.range j).find? (fun k => (sector.entry k).isEnd || (sector.entry k).isDeleted) = none := by
    rw [List.find?_eq_none]
    intro k hk
    have hfree := hmin k (List.mem_range.mp hk)
    unfold FatDirEntry.isFree at hfree
    simp [hfree]
  unfold FatDirEntry.isFree at h
  unfold freeSlot
  rw [hn, List.range_add, List.find?_append, hfirst, List.range_add]
  simp [h]

theorem entry_placeEntry (sector : Sector) (e : FatDirEntry) {j k : ℕ} (hj : j < entriesPerSector)
    (hk : k < entriesPerSector) : (placeEntry sector j e).entry k =
      if k = j then e else if (sector.entry j).isEnd = true ∧ k = j + 1 then Block.zero else sector.entry k := by
  unfold placeEntry
  split
  · rename_i hcase
    by_cases hkj : k = j + 1
    · rw [hkj, entry_setEntry _ _ _ hcase.2, if_neg (by omega), if_pos ⟨hcase.1, rfl⟩]
    · rw [entry_setEntry_ne _ _ _ _ hkj hk]
      by_cases hkj' : k = j
      · rw [if_pos hkj', hkj', entry_setEntry _ _ _ hj]
      · rw [if_neg hkj', if_neg (fun h => hkj h.2), entry_setEntry_ne _ _ _ _ hkj' hk]
  · rename_i hcase
    by_cases hkj : k = j
    · rw [if_pos hkj, hkj, entry_setEntry _ _ _ hj]
    · rw [if_neg hkj, entry_setEntry_ne _ _ _ _ hkj hk, if_neg]
      rintro ⟨hend, rfl⟩
      exact hcase ⟨hend, hk⟩

theorem FatDirEntry.isFree_hidden (h : e.isFree = true) : e.isVisible = false := by
  unfold FatDirEntry.isFree at h
  simp [FatDirEntry.isVisible, FatDirEntry.isValid, h]

section

variable {A B : List Pos} {i j : ℕ}

theorem Tidy.ends_after (ht : Tidy g V) (hd : IsDir g V d) (hl : Chain g V d l) (hsplit : positions g l = A ++ p :: B)
    (hA : ∀ q ∈ A, (V.at q).isEnd = false) (hp : (V.at p).isEnd = true) : ∀ q ∈ B, (V.at q).isEnd = true := by
  intro q hq
  refine ht.ends d l hd hl q ?_
  rw [hsplit, List.dropWhile_append_of_pos (fun q hq => by simp [hA q hq]),
    List.dropWhile_cons_of_neg (by simp [hp])]
  exact List.mem_cons_of_mem _ hq

/-- The slots after the entry was placed: the hit holds it; any other slot is as it was, or is the
one behind the hit and ends the directory in its place. -/
theorem place_at {disk : ℕ → Sector} (hx : g.Valid x) (h : FirstHit g (vol g disk) l FatDirEntry.isFree A x i j B)
    (hw : s'.disk = putSector disk (g.dataLba x i) (placeEntry (disk (g.dataLba x i)) j e) true) :
    (vol g s'.disk).at (x, entriesPerSector * i + j) = e ∧
    ∀ q, q ≠ (x, entriesPerSector * i + j) → (vol g s'.disk).at q =
      if ((vol g disk).at (x, entriesPerSector * i + j)).isEnd = true ∧ q = (x, entriesPerSector * i + (j + 1)) ∧
        j + 1 < entriesPerSector then Block.zero else (vol g disk).at q := by
  have hold : ∀ k, k < entriesPerSector →
      (disk (g.dataLba x i)).entry k = (vol g disk).at (x, entriesPerSector * i + k) := by
    intro k hk
    rw [Volume.at, vol_slot _ hx h.sector hk]
  constructor
  · rw [hw, Volume.at, vol_putSector_slot _ _ hx h.sector hx h.sector h.slot, if_pos ⟨rfl, rfl⟩,
      entry_placeEntry _ _ h.slot h.slot, if_pos rfl]
  · intro q hq
    rw [hw]
    rcases vol_putSector_at disk (placeEntry (disk (g.dataLba x i)) j e) hx h.sector q with
      ⟨k, hk, rfl, hnew⟩ | ⟨hne, hsame⟩
    · have hkj : k ≠ j := by
        rintro rfl
        exact hq rfl
      have hpos : ((x, entriesPerSector * i + k) = (x, entriesPerSector * i + (j + 1)) ∧ j + 1 < entriesPerSector) ↔
          k = j + 1 := by
        rw [Prod.mk.injEq]
        omega
      rw [hnew, entry_placeEntry _ _ h.slot hk, if_neg hkj, hold j h.slot, hold k hk]
      simp only [hpos]
    · rw [hsame, if_neg]
      rintro ⟨-, rfl, hj⟩
      exact hne (j + 1) hj rfl

theorem placed_of_write (ht : Tidy g (vol g s.disk)) (hd : IsDir g (vol g s.disk) d)
    (hl : Chain g (vol g s.disk) d l) (h : FirstHit g (vol g s.disk) l FatDirEntry.isFree A x i j B)
    (hend : e.isEnd = false)
    (hw : s'.disk = putSector s.disk (g.dataLba x i) (placeEntry (s.disk (g.dataLba x i)) j e) true) :
    Placed g (vol g s.disk) (vol g s'.disk) d l A (x, entriesPerSector * i + j) B ∧
      (vol g s'.disk).at (x, entriesPerSector * i + j) = e := by
  have hA : ∀ q ∈ A, ((vol g s.disk).at q).isEnd = false := by
    intro q hq
    have hfree := h.before q hq
    unfold FatDirEntry.isFree at hfree
    exact (Bool.or_eq_false_iff.mp hfree).1
  have hnd := positions_nodup (g := g) hl.nodup
  rw [h.split] at hnd
  have hpA : (x, entriesPerSector * i + j) ∉ A := fun hm => (List.nodup_append.mp hnd).2.2 _ hm _ (by simp) rfl
  have hpB : (x, entriesPerSector * i + j) ∉ B := (List.nodup_cons.mp (List.nodup_append.mp hnd).2.1).1
  obtain ⟨hentry, hother⟩ := place_at (hl.valid x h.mem) h hw
  have hat : ∀ q, q ≠ (x, entriesPerSector * i + j) → (vol g s'.disk).at q = (vol g s.disk).at q ∨
      (((vol g s.disk).at (x, entriesPerSector * i + j)).isEnd = true ∧ (vol g s'.disk).at q = Block.zero ∧
        q = (x, entriesPerSector * i + (j + 1)) ∧ j + 1 < entriesPerSector) := by
    intro q hq
    rw [hother q hq]
    split
    · rename_i hcase
      exact Or.inr ⟨hcase.1, rfl, hcase.2⟩
    · exact Or.inl rfl
  refine ⟨⟨hd, hl, h.split, hA, FatDirEntry.isFree_hidden h.hit, fun y => by rw [hw]; exact vol_putSector_fat,
    fun q hq => ?_, fun q hq => ?_, ?_, by rw [hentry, hend]⟩, hentry⟩
  · rcases hat q (fun he => hq (by simp [h.split, he])) with hsame | ⟨-, -, rfl, hk⟩
    · exact hsame
    · exact absurd (mem_positions.mpr ⟨h.mem, slot_lt h.sector hk⟩) hq
  · rcases hat q (fun he => hpA (he ▸ hq)) with hsame | ⟨hbad, -, rfl, hk⟩
    · exact hsame
    · have hbefore := ht.slot_before hd hl h.mem (slot_lt h.sector hk) (hA _ hq)
        (show entriesPerSector * i + j < entriesPerSector * i + (j + 1) by omega)
      rw [Volume.at, hbefore] at hbad
      simp at hbad
  · cases hcase : ((vol g s.disk).at (x, entriesPerSector * i + j)).isEnd with
    | true =>
      refine Or.inl ⟨rfl, fun q hq => ?_⟩
      rcases hat q (fun he => hpB (he ▸ hq)) with hsame | ⟨-, hzero, -⟩
      · rw [hsame]
        exact ht.ends_after hd hl h.split hA hcase q hq
      · rw [hzero]
        exact zero_isEnd
    | false =>
      refine Or.inr ⟨rfl, fun q hq => ?_⟩
      rcases hat q (fun he => hpB (he ▸ hq)) with hsame | ⟨hbad, -⟩
      · exact hsame
      · simp [hcase] at hbad

end

end Zonix.Fat
