import Zonix.Fat.Address

/-! # The FAT cache

What `read_entry` and `write_entry` do when device requests may fail.  `Sync g P s` says that the
cache holds nothing new about the clusters in `P`: then a write-back of the buffer, wanted or not,
does not change their entries on the disk. -/

namespace Zonix.Fat

open Prog

variable {dev : Device} {g : Geometry} {s s' : FatState} {P : ℕ → Prop} {c : ℕ}

def view (g : Geometry) (s : FatState) (c : ℕ) : ℕ :=
  if s.bufferSector = g.fatSector c then s.buffer.word32 (entOffset c) else fatWord g s.disk c

structure Sync (g : Geometry) (P : ℕ → Prop) (s : FatState) : Prop where
  sector : s.bufferSector = fatInvalidSector ∨ g.InFat s.bufferSector
  words : ∀ c, g.Valid c → P c → view g s c = fatWord g s.disk c

/-- The cache agrees with the disk. -/
def Coherent (g : Geometry) (s : FatState) : Prop := Sync g (fun _ => True) s

theorem Sync.mono {P' : ℕ → Prop} (h : Sync g P s) (hp : ∀ c, P' c → P c) : Sync g P' s :=
  ⟨h.sector, fun c hc hp' => h.words c hc (hp c hp')⟩

/-- A request failed for the reason `why`, and the code of the first that did is the result. -/
def Faulted (why : Prop) (s : FatState) (e : Error) (s' : FatState) : Prop :=
  why ∧ ∃ d rest, e = d.error ∧ s'.faults = s.faults ++ d :: rest

structure Quiet (g : Geometry) (s s' : FatState) : Prop where
  disk : s'.disk = s.disk
  dirty : s'.bufferDirty = s.bufferDirty
  mayExist : s'.entryMayExist = s.entryMayExist
  sync : ∀ P, Sync g P s → Sync g P s'

theorem Quiet.refl (s : FatState) : Quiet g s s := ⟨rfl, rfl, rfl, fun _ h => h⟩

variable {s₂ : FatState} {count start lba : ℕ} {E : Error → FatState → Prop} {data : Sector} {e : Error}
  {reached : Bool}

theorem Quiet.trans {s₁ s₃ : FatState} (h : Quiet g s₁ s₂) (h' : Quiet g s₂ s₃) : Quiet g s₁ s₃ :=
  ⟨h'.disk.trans h.disk, h'.dirty.trans h.dirty, h'.mayExist.trans h.mayExist, fun P hp => h'.sync P (h.sync P hp)⟩

theorem Quiet.coherent (h : Quiet g s s') (hc : Coherent g s) : Coherent g s' := h.sync _ hc

/-! ## Requests -/

theorem Geometry.Fits.inRange (h : g.Fits dev)
    (hl : start + count ≤ g.partitionStart + g.totalSectors) : dev.inRange start count := by
  unfold Geometry.Fits at h
  exact ⟨by omega, by omega⟩

theorem read_wp (hr : dev.inRange start count) {Q : (ℕ → Sector) → FatState → Prop} (hq : Q (fun i => s.disk (start + i)) s.serve)
    (he : ∀ d, dev.ReadFaulty → E d.error (s.serve.fault d)) : wp (dev.read start count) Q E s := by
  unfold wp Device.read
  rw [if_pos hr]
  cases hf : dev.readFault s.served with
  | none => exact hq
  | some d => exact he d ⟨s.served, by simp [hf]⟩

theorem readSector_wp (hr : dev.inRange lba 1) {Q : Sector → FatState → Prop} (hq : Q (s.disk lba) s.serve)
    (he : ∀ d, dev.ReadFaulty → E d.error (s.serve.fault d)) : wp (dev.readSector lba) Q E s := by
  unfold Device.readSector
  rw [wp_bind]
  exact read_wp hr hq he

theorem writeAt_apply (disk data : ℕ → Sector) (start : ℕ) (mask : ℕ → Bool) (count lba : ℕ) :
    writeAt disk start data mask count lba =
      if start ≤ lba ∧ lba < start + count ∧ mask (lba - start) then data (lba - start) else disk lba := rfl

theorem write_wp {data : ℕ → Sector} (hr : dev.inRange start count)
    {Q : Unit → FatState → Prop}
    (hq : Q () { s.serve with disk := writeAt s.disk start data (fun _ => true) count })
    (he : ∀ d mask, dev.Faulty → E d.error { s.serve.fault d with disk := writeAt s.disk start data mask count }) :
    wp (dev.write start data count) Q E s := by
  unfold wp Device.write
  rw [if_pos hr]
  cases hf : dev.writeFault s.served with
  | none => exact hq
  | some f => exact he f.1 f.2 (Or.inr ⟨s.served, by simp [hf]⟩)

def putSector (disk : ℕ → Sector) (lba : ℕ) (data : Sector) (reached : Bool) : ℕ → Sector :=
  fun a => if reached = true ∧ a = lba then data else disk a

theorem writeSector_wp (hr : dev.inRange lba 1) {Q : Unit → FatState → Prop} (hq : Q () { s.serve with disk := putSector s.disk lba data true })
    (he : ∀ d reached, dev.Faulty → E d.error { s.serve.fault d with disk := putSector s.disk lba data reached }) :
    wp (dev.writeSector lba data) Q E s := by
  have hput : ∀ mask : ℕ → Bool, writeAt s.disk lba (fun _ => data) mask 1 = putSector s.disk lba data (mask 0) := by
    intro mask
    funext a
    rw [writeAt_apply, putSector]
    by_cases ha : a = lba
    · simp [ha]
    · rw [if_neg (by omega), if_neg (by simp [ha])]
  unfold Device.writeSector
  refine write_wp hr ?_ fun d mask hd => ?_
  · rw [hput]
    exact hq
  · rw [hput]
    exact he d (mask 0) hd

/-! ## Reading entries -/

variable {sector : ℕ} {why : Prop}

theorem Geometry.InFat.inRange (hf : g.Fits dev) (h : g.InFat sector) :
    dev.inRange (g.partitionStart + sector) 1 := by
  obtain ⟨hdata, hd, hp⟩ := g.layout
  have hsec : g.fatSectors ≤ g.fatCount * g.fatSectors := Nat.le_mul_of_pos_left _ g.fatCount_pos
  unfold Geometry.InFat at h
  exact hf.inRange (by omega)

theorem Geometry.InFat.ne_invalid (h : g.InFat sector) : sector ≠ fatInvalidSector := by
  obtain ⟨hdata, hd, hp⟩ := g.layout
  have hsec : g.fatSectors ≤ g.fatCount * g.fatSectors := Nat.le_mul_of_pos_left _ g.fatCount_pos
  unfold Geometry.InFat at h
  unfold fatInvalidSector
  omega

theorem sync_loaded (hsec : g.InFat sector) (hs : s.bufferSector = sector)
    (hb : s.buffer = s.disk (g.partitionStart + sector)) : Sync g P s := by
  refine ⟨Or.inr (hs ▸ hsec), fun c _ _ => ?_⟩
  unfold view
  split
  · rename_i he
    rw [hb, ← hs, he, fatWord]
  · rfl

theorem coherent_of_invalid (h : s.bufferSector = fatInvalidSector) : Coherent g s := by
  refine ⟨Or.inl h, fun c hc _ => ?_⟩
  unfold view
  rw [if_neg]
  intro he
  exact (g.fatSector_inFat hc).ne_invalid (he.symm.trans h)

/-- The outcome of `loadSector`. -/
structure Loaded (g : Geometry) (sector : ℕ) (s s' : FatState) : Prop where
  disk : s'.disk = s.disk
  bufferSector : s'.bufferSector = sector
  buffer : s'.buffer = s.disk (g.partitionStart + sector)
  dirty : s'.bufferDirty = s.bufferDirty
  mayExist : s'.entryMayExist = s.entryMayExist
  faults : s'.faults = s.faults

theorem faulted_serve (d : DevError) (h : why) : Faulted why s d.error (s.serve.fault d) :=
  ⟨h, d, [], rfl, rfl⟩

theorem quiet_serve (d : DevError) : Quiet g s (s.serve.fault d) :=
  ⟨rfl, rfl, rfl, fun _ h => ⟨h.sector, h.words⟩⟩

theorem loadSector_wp (hf : g.Fits dev) (hs : g.InFat sector) :
    wp (loadSector dev g sector) (fun _ s' => Loaded g sector s s')
      (fun e s' => Quiet g s s' ∧ Faulted dev.ReadFaulty s e s') s := by
  unfold loadSector
  rw [wp_bind, g.lba_inFat hs]
  refine readSector_wp (hs.inRange hf) ?_ fun d hd => ⟨quiet_serve d, faulted_serve d hd⟩
  rw [wp_update]
  exact ⟨rfl, rfl, rfl, rfl, rfl, rfl⟩

theorem Loaded.quiet (hs : g.InFat sector) (h : Loaded g sector s s') : Quiet g s s' :=
  ⟨h.disk, h.dirty, h.mayExist, fun _ _ => sync_loaded hs h.bufferSector (h.disk ▸ h.buffer)⟩

theorem fetchSector_wp (hf : g.Fits dev) (hs : g.InFat sector) :
    wp (fetchSector dev g sector)
      (fun _ s' => (s.bufferSector = sector ∧ s' = s) ∨ (s.bufferSector ≠ sector ∧ Loaded g sector s s'))
      (fun e s' => Quiet g s s' ∧ Faulted dev.ReadFaulty s e s') s := by
  unfold fetchSector
  rw [wp_bind, wp_state]
  split
  · rename_i hne
    exact wp_mono (loadSector_wp hf hs) (fun _ s' h => Or.inr ⟨Ne.symm hne, h⟩) fun _ _ h => h
  · rename_i he
    exact Or.inl ⟨(not_not.mp he).symm, rfl⟩

theorem readEntry_view (hf : g.Fits dev) (hc : g.Valid c) :
    wp (readEntry dev g c)
      (fun v s' => v = view g s c % 2 ^ 28 ∧ Quiet g s s' ∧ s'.faults = s.faults ∧
        s'.bufferSector = g.fatSector c ∧ view g s' c = view g s c)
      (fun e s' => Quiet g s s' ∧ Faulted dev.ReadFaulty s e s') s := by
  have hin := g.fatSector_inFat hc
  have hread : ∀ s' : FatState, s'.bufferSector = g.fatSector c →
      s'.buffer.word32 (entOffset c) &&& fat32ClusterMask = view g s' c % 2 ^ 28 := by
    intro s' hs
    rw [and_clusterMask, view, if_pos hs]
  unfold readEntry
  rw [wp_bind, wp_ensure, if_pos ((g.validCluster_iff c).mpr hc), wp_bind]
  refine wp_mono (fetchSector_wp hf hin) (fun _ s' h => ?_) fun _ _ h => h
  rw [wp_bind, wp_state, wp_pure]
  rcases h with ⟨hs, rfl⟩ | ⟨hs, h⟩
  · exact ⟨hread s' hs, Quiet.refl s', rfl, hs, rfl⟩
  · have hview : view g s' c = view g s c := by
      rw [view, if_pos h.bufferSector, h.buffer, view, if_neg hs, fatWord]
    exact ⟨by rw [hread s' h.bufferSector, hview], h.quiet hin, h.faults, h.bufferSector, hview⟩

/-! ## Writing entries -/

structure Kept (g : Geometry) (P : ℕ → Prop) (s s' : FatState) : Prop where
  words : ∀ c, g.Valid c → P c → fatWord g s'.disk c = fatWord g s.disk c
  outside : ∀ lba, g.Outside lba → s'.disk lba = s.disk lba
  sync : Sync g P s'
  mayExist : s'.entryMayExist = s.entryMayExist
  faults : ∃ rest, s'.faults = s.faults ++ rest

theorem Kept.trans {s₁ s₃ : FatState} (h : Kept g P s₁ s₂) (h' : Kept g P s₂ s₃) : Kept g P s₁ s₃ := by
  obtain ⟨r, hr⟩ := h.faults
  obtain ⟨r', hr'⟩ := h'.faults
  exact ⟨fun c hc hp => (h'.words c hc hp).trans (h.words c hc hp),
    fun lba hl => (h'.outside lba hl).trans (h.outside lba hl), h'.sync, h'.mayExist.trans h.mayExist,
    r ++ r', by rw [hr', hr, List.append_assoc]⟩

theorem Kept.mono {P' : ℕ → Prop} (h : Kept g P s s') (hp : ∀ c, P' c → P c) : Kept g P' s s' :=
  ⟨fun c hc hp' => h.words c hc (hp c hp'), h.outside, h.sync.mono hp, h.mayExist, h.faults⟩

theorem Quiet.kept (h : Quiet g s s') (hs : Sync g P s) (hf : ∃ rest, s'.faults = s.faults ++ rest) :
    Kept g P s s' :=
  ⟨fun _ _ _ => by rw [h.disk], fun _ _ => by rw [h.disk], h.sync P hs, h.mayExist, hf⟩

theorem Faulted.grow (h : Faulted why s e s') : ∃ rest, s'.faults = s.faults ++ rest := by
  obtain ⟨-, d, rest, -, hr⟩ := h
  exact ⟨d :: rest, hr⟩

theorem Faulted.after {s₀ : FatState} (h : Faulted why s e s')
    (hs : s.faults = s₀.faults) : Faulted why s₀ e s' := by
  obtain ⟨hd, d, rest, he, hr⟩ := h
  exact ⟨hd, d, rest, he, hs ▸ hr⟩

theorem Faulted.grow_right (h : Faulted why s e s')
    (hs : ∃ rest, s₂.faults = s'.faults ++ rest) : Faulted why s e s₂ := by
  obtain ⟨hd, d, rest, he, hr⟩ := h
  obtain ⟨more, hm⟩ := hs
  exact ⟨hd, d, rest ++ more, he, by rw [hm, hr]; simp⟩

theorem Faulted.imp {why' : Prop} (h : Faulted why s e s') (hw : why → why') :
    Faulted why' s e s' := ⟨hw h.1, h.2⟩

/-- A sector was stored in the first FAT copy, or not; the other copies may hold anything. -/
structure Stored (g : Geometry) (sector : ℕ) (data : Sector) (reached : Bool) (s s' : FatState) : Prop where
  disk : ∀ lba, ¬g.OtherCopy lba → s'.disk lba = putSector s.disk (g.partitionStart + sector) data reached lba
  buffer : s'.buffer = s.buffer
  bufferSector : s'.bufferSector = s.bufferSector
  mayExist : s'.entryMayExist = s.entryMayExist

theorem Geometry.copyLba_inRange {i : ℕ} (hf : g.Fits dev) (hs : g.InFat sector) (hi : i < g.fatCount) :
    dev.inRange (g.copyLba sector i) 1 := by
  obtain ⟨heq, hlt⟩ := g.copyLba_eq hs hi
  obtain ⟨hdata, hd, hp⟩ := g.layout
  exact hf.inRange (by omega)

theorem writeCopies_rest (hf : g.Fits dev) (hs : g.InFat sector) (data : Sector) (n i : ℕ)
    (h0 : 0 < i) (hi : i + n ≤ g.fatCount) (s : FatState) :
    wp (writeCopies dev g sector data n i)
      (fun _ s' => Stored g sector data false s s' ∧ s'.faults = s.faults)
      (fun e s' => Stored g sector data false s s' ∧ Faulted dev.Faulty s e s') s := by
  induction n generalizing i s with
  | zero => exact ⟨⟨fun _ _ => by simp [putSector], rfl, rfl, rfl⟩, rfl⟩
  | succ n ih =>
    have hother := g.copyLba_other hs h0 (show i < g.fatCount by omega)
    have hput : ∀ reached lba, ¬g.OtherCopy lba →
        putSector s.disk (g.copyLba sector i) data reached lba = s.disk lba := by
      intro reached lba hl
      have hne : lba ≠ g.copyLba sector i := fun he => hl (he ▸ hother)
      simp [putSector, hne]
    have hkeep : ∀ lba, putSector s.disk (g.partitionStart + sector) data false lba = s.disk lba := by
      intro lba
      simp [putSector]
    unfold writeCopies
    rw [wp_bind]
    refine writeSector_wp (Geometry.copyLba_inRange hf hs (by omega)) ?_ fun d reached hd => ?_
    · refine wp_mono (ih (i + 1) (by omega) (by omega) _) (fun _ s' h => ?_) fun e s' h => ?_
      · refine ⟨⟨fun lba hl => ?_, h.1.buffer, h.1.bufferSector, h.1.mayExist⟩, h.2⟩
        rw [h.1.disk lba hl, hkeep]
        simpa [putSector] using hput true lba hl
      · refine ⟨⟨fun lba hl => ?_, h.1.buffer, h.1.bufferSector, h.1.mayExist⟩, h.2.after rfl⟩
        rw [h.1.disk lba hl, hkeep]
        simpa [putSector] using hput true lba hl
    · refine ⟨⟨fun lba hl => ?_, rfl, rfl, rfl⟩, hd, d, [], rfl, rfl⟩
      rw [hkeep]
      exact hput reached lba hl

theorem inFat_not_other (h : g.InFat sector) : ¬g.OtherCopy (g.partitionStart + sector) := by
  unfold Geometry.InFat at h
  unfold Geometry.OtherCopy
  omega

theorem outside_not_other (h : g.Outside lba) : ¬g.OtherCopy lba := by
  unfold Geometry.Outside at h
  unfold Geometry.OtherCopy
  omega

theorem writeCopies_wp (hf : g.Fits dev) (hs : g.InFat sector) (data : Sector) (s : FatState) :
    wp (writeCopies dev g sector data g.fatCount 0)
      (fun _ s' => Stored g sector data true s s' ∧ s'.faults = s.faults)
      (fun e s' => (∃ reached, Stored g sector data reached s s') ∧ Faulted dev.Faulty s e s') s := by
  obtain ⟨n, hn⟩ : ∃ n, g.fatCount = n + 1 := ⟨g.fatCount - 1, by have := g.fatCount_pos; omega⟩
  rw [hn]
  unfold writeCopies
  rw [wp_bind]
  refine writeSector_wp (Geometry.copyLba_inRange hf hs (by omega)) ?_ fun d reached hd => ?_
  · have hrest := writeCopies_rest hf hs data n 1 (by omega) (by omega)
      { s.serve with disk := putSector s.disk (g.copyLba sector 0) data true }
    have hstored : ∀ s', Stored g sector data false
        { s.serve with disk := putSector s.disk (g.copyLba sector 0) data true } s' →
        Stored g sector data true s s' := by
      intro s' h
      refine ⟨fun lba hl => ?_, h.buffer, h.bufferSector, h.mayExist⟩
      rw [h.disk lba hl, ← g.copyLba_zero hs]
      simp [putSector]
    exact wp_mono hrest (fun _ s' h => ⟨hstored s' h.1, h.2⟩) fun e s' h => ⟨⟨true, hstored s' h.1⟩, h.2.after rfl⟩
  · refine ⟨⟨reached, fun lba _ => ?_, rfl, rfl, rfl⟩, hd, d, [], rfl, rfl⟩
    rw [← g.copyLba_zero hs]

theorem Stored.word (h : Stored g sector data reached s s')
    (hc : g.Valid c) : fatWord g s'.disk c =
      if reached = true ∧ g.fatSector c = sector then data.word32 (entOffset c) else fatWord g s.disk c := by
  unfold fatWord
  rw [h.disk _ (inFat_not_other (g.fatSector_inFat hc)), putSector]
  have hiff : (g.partitionStart + g.fatSector c = g.partitionStart + sector) ↔ g.fatSector c = sector := by omega
  simp only [hiff]
  split <;> rfl

theorem Stored.outside (h : Stored g sector data reached s s')
    (hs : g.InFat sector) (hl : g.Outside lba) : s'.disk lba = s.disk lba := by
  rw [h.disk lba (outside_not_other hl), putSector, if_neg]
  rintro ⟨-, rfl⟩
  have hsec : g.fatSectors ≤ g.fatCount * g.fatSectors := Nat.le_mul_of_pos_left _ g.fatCount_pos
  have hdata := g.layout.1
  unfold Geometry.Outside at hl
  unfold Geometry.InFat at hs
  omega

theorem Stored.kept (h : Stored g sector s.buffer reached s s')
    (hs : g.InFat sector) (hb : s.bufferSector = sector)
    (hp : ∀ c, g.Valid c → P c → view g s c = fatWord g s.disk c)
    (hf : ∃ rest, s'.faults = s.faults ++ rest) : Kept g P s s' := by
  have hview : ∀ c, view g s c = if g.fatSector c = sector then s.buffer.word32 (entOffset c)
      else fatWord g s.disk c := by
    intro c
    simp only [view, hb, eq_comm]
  have hwords : ∀ c, g.Valid c → P c → fatWord g s'.disk c = fatWord g s.disk c := by
    intro c hc hpc
    have hv := hp c hc hpc
    rw [hview c] at hv
    rw [h.word hc]
    split
    · rename_i hr
      rw [if_pos hr.2] at hv
      exact hv
    · rfl
  refine ⟨hwords, fun lba hl => h.outside hs hl, ⟨Or.inr (h.bufferSector.trans hb ▸ hs), ?_⟩, h.mayExist, hf⟩
  intro c hc hpc
  rw [hwords c hc hpc, ← hp c hc hpc, view, view, h.buffer, h.bufferSector]
  split
  · rfl
  · rename_i hne
    rw [hwords c hc hpc, ← hp c hc hpc, view, if_neg hne]

theorem flushBuffer_wp (hf : g.Fits dev) (hs : Sync g P s) :
    wp (flushBuffer dev g) (fun _ s' => Kept g P s s' ∧ s'.faults = s.faults)
      (fun e s' => Kept g P s s' ∧ Faulted dev.Faulty s e s') s := by
  unfold flushBuffer
  rw [wp_bind, wp_state]
  split
  · rename_i hd
    have hin : g.InFat s.bufferSector := hs.sector.resolve_left hd.2
    rw [wp_bind]
    refine wp_mono (writeCopies_wp hf hin s.buffer s) (fun _ s' h => ?_) fun e s' h => ?_
    · rw [wp_update]
      have hk := h.1.kept hin rfl hs.words ⟨[], by simp [h.2]⟩
      exact ⟨⟨hk.words, hk.outside, ⟨hk.sync.sector, hk.sync.words⟩, hk.mayExist, hk.faults⟩, h.2⟩
    · obtain ⟨⟨reached, hst⟩, hfault⟩ := h
      exact ⟨hst.kept hin rfl hs.words hfault.grow, hfault⟩
  · exact ⟨(Quiet.refl s).kept hs ⟨[], by simp⟩, rfl⟩

theorem switchSector_wp (hf : g.Fits dev) (hin : g.InFat sector) (hs : Sync g P s) :
    wp (switchSector dev g sector)
      (fun _ s' => Kept g P s s' ∧ s'.faults = s.faults ∧ s'.bufferSector = sector ∧
        (s.bufferSector = sector → s' = s))
      (fun e s' => Kept g P s s' ∧ Faulted dev.Faulty s e s' ∧ s.bufferSector ≠ sector) s := by
  unfold switchSector
  rw [wp_bind, wp_state]
  split
  · rename_i hne
    rw [wp_bind]
    refine wp_mono (flushBuffer_wp hf hs) (fun _ s₁ h₁ => ?_) fun e s₁ h₁ => ⟨h₁.1, h₁.2, Ne.symm hne⟩
    refine wp_mono (loadSector_wp hf hin) (fun _ s' h => ?_) fun e s' h => ?_
    · refine ⟨h₁.1.trans ((h.quiet hin).kept h₁.1.sync ⟨[], by simp [h.faults]⟩), ?_, h.bufferSector,
        fun he => absurd he (Ne.symm hne)⟩
      rw [h.faults, h₁.2]
    · exact ⟨h₁.1.trans (h.1.kept h₁.1.sync h.2.grow), (h.2.imp Or.inl).after h₁.2, Ne.symm hne⟩
  · rename_i he
    exact ⟨(Quiet.refl s).kept hs ⟨[], by simp⟩, rfl, (not_not.mp he).symm, fun _ => rfl⟩

theorem entry_apart {c c' : ℕ} (hc : g.Valid c) (hc' : g.Valid c') (hne : c' ≠ c)
    (hs : g.fatSector c' = g.fatSector c) :
    entOffset c' + 4 ≤ entOffset c ∨ entOffset c + 4 ≤ entOffset c' := by
  rw [g.fatSector_eq hc, g.fatSector_eq hc'] at hs
  rw [g.entOffset_eq hc, g.entOffset_eq hc']
  omega

theorem view_putEntry (hc : g.Valid c) (hb : s.bufferSector = g.fatSector c) (v : ℕ) {c' : ℕ} (hc' : g.Valid c') :
    (c' ≠ c → view g (s.putEntry (entOffset c) v) c' = view g s c') ∧
    view g (s.putEntry (entOffset c) v) c % 2 ^ 28 = v % 2 ^ 28 := by
  have hoff : entOffset c + 4 ≤ 512 := by
    rw [g.entOffset_eq hc]
    omega
  constructor
  · intro hne
    unfold view FatState.putEntry
    split
    · rename_i he
      exact word32_setWord32_ne _ _ _ _ (entry_apart hc hc' hne (he.symm.trans hb))
    · rfl
  · unfold view FatState.putEntry
    rw [if_pos hb]
    dsimp only
    rw [word32_setWord32 _ _ _ hoff (mergeEntry_lt (word32_lt _ _) v), mergeEntry_mod]

theorem Stored.putEntry {v : ℕ} (hc : g.Valid c) (hb : s.bufferSector = g.fatSector c)
    (h : Stored g (g.fatSector c) (s.putEntry (entOffset c) v).buffer reached (s.putEntry (entOffset c) v) s') :
    view g s' c % 2 ^ 28 = v % 2 ^ 28 ∧
      fatWord g s'.disk c = if reached = true then view g s' c else fatWord g s.disk c := by
  have hb₂ : (s.putEntry (entOffset c) v).bufferSector = g.fatSector c := hb
  have hvc : view g s' c = view g (s.putEntry (entOffset c) v) c := by
    rw [view, view, h.buffer, h.bufferSector, if_pos hb₂, if_pos hb₂]
  refine ⟨hvc ▸ (view_putEntry hc hb v hc).2, ?_⟩
  rw [h.word hc, hvc, view, if_pos hb₂]
  simp only [and_true]
  rfl

/-- `write_entry`: on an error the entry on the disk is old or new; either its sector was not
reached, or the cache shows it new. -/
theorem writeEntry_wp (hf : g.Fits dev) (hc : g.Valid c) (v : ℕ) (hs : Sync g P s) :
    wp (writeEntry dev g c v)
      (fun _ s' => Kept g (fun x => P x ∧ x ≠ c) s s' ∧ s'.faults = s.faults ∧
        Sync g (fun x => P x ∨ x = c) s' ∧ fatWord g s'.disk c % 2 ^ 28 = v % 2 ^ 28)
      (fun e s' => Kept g (fun x => P x ∧ x ≠ c) s s' ∧ Faulted dev.Faulty s e s' ∧
        (s.bufferSector = g.fatSector c ∨ P c →
          fatWord g s'.disk c = fatWord g s.disk c ∨ fatWord g s'.disk c % 2 ^ 28 = v % 2 ^ 28) ∧
        ((Kept g P s s' ∧ s.bufferSector ≠ g.fatSector c) ∨
          (s'.bufferSector = g.fatSector c ∧ view g s' c % 2 ^ 28 = v % 2 ^ 28))) s := by
  have hin := g.fatSector_inFat hc
  unfold writeEntry
  rw [wp_bind, wp_ensure, if_pos ((g.validCluster_iff c).mpr hc), wp_bind]
  refine wp_mono (switchSector_wp hf hin hs) (fun _ s₁ h₁ => ?_) fun e s₁ h₁ => ?_
  · obtain ⟨hk₁, hf₁, hb₁, hsame⟩ := h₁
    rw [wp_bind, wp_update, wp_bind, wp_state, wp_bind]
    -- the state with the changed buffer, before the copies are written
    have hview : ∀ x, g.Valid x → P x ∧ x ≠ c → view g (s₁.putEntry (entOffset c) v) x =
        fatWord g (s₁.putEntry (entOffset c) v).disk x := by
      intro x hx hpx
      rw [(view_putEntry hc hb₁ v hx).1 hpx.2]
      exact hk₁.sync.words x hx hpx.1
    have hk₂ : Kept g (fun x => P x ∧ x ≠ c) s (s₁.putEntry (entOffset c) v) :=
      ⟨fun x hx hpx => hk₁.words x hx hpx.1, hk₁.outside, ⟨hk₁.sync.sector, hview⟩, hk₁.mayExist, hk₁.faults⟩
    refine wp_mono (writeCopies_wp hf hin _ _) (fun _ s' h => ?_) fun e s' h => ?_
    · rw [wp_update]
      have hk₃ := hk₂.trans (h.1.kept hin hb₁ hview ⟨[], by simp [h.2]⟩)
      obtain ⟨hv, hw⟩ := h.1.putEntry hc hb₁
      rw [if_pos rfl] at hw
      refine ⟨⟨hk₃.words, hk₃.outside, ⟨hk₃.sync.sector, hk₃.sync.words⟩, hk₃.mayExist, hk₃.faults⟩,
        h.2.trans hf₁, ⟨hk₃.sync.sector, fun x hx hpx => ?_⟩, hw ▸ hv⟩
      by_cases hxc : x = c
      · rw [hxc]
        exact hw.symm
      · exact hk₃.sync.words x hx ⟨hpx.resolve_right hxc, hxc⟩
    · obtain ⟨⟨reached, hst⟩, hfault⟩ := h
      obtain ⟨hv, hw⟩ := hst.putEntry hc hb₁
      have hb' : s'.bufferSector = g.fatSector c := hst.bufferSector.trans hb₁
      refine ⟨hk₂.trans (hst.kept hin hb₁ hview hfault.grow), hfault.after hf₁, fun hpc => ?_, Or.inr ⟨hb', hv⟩⟩
      cases reached with
      | true =>
        rw [if_pos rfl] at hw
        exact Or.inr (hw ▸ hv)
      | false =>
        rw [if_neg (by simp)] at hw
        left
        rcases hpc with hbuf | hpc
        · rw [hw, hsame hbuf]
        · exact hw.trans (hk₁.words c hc hpc)
  · obtain ⟨hk, hfault, hb⟩ := h₁
    exact ⟨hk.mono fun x hx => hx.1, hfault, fun hpc => Or.inl (hk.words c hc (hpc.resolve_left hb)),
      Or.inl ⟨hk, hb⟩⟩

end Zonix.Fat
