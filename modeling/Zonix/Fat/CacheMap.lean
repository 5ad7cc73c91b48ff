import Mathlib.Logic.Function.Basic
import Zonix.Fat.Runs

/-! # The FAT cache as a map

On a device without failures `read_entry` and `write_entry` of `kernel/fs/fat/fat_core.cpp` implement
a map from clusters to 28-bit values.  The buffer always equals its sector on the disk, and the FAT
copies stay equal to each other. -/

namespace Zonix.Fat

open Prog

variable (dev : Device) (g : Geometry)

def copyWord (disk : ℕ → Sector) (i e : ℕ) : ℕ :=
  (disk (g.partitionStart + g.fatStart + i * g.fatSectors + e / 128)).word32 (4 * (e % 128))

/-- The FAT copies are identical. -/
def CopiesAgree (disk : ℕ → Sector) : Prop :=
  ∀ i < g.fatCount, ∀ r < g.fatSectors, disk (g.partitionStart + g.fatStart + i * g.fatSectors + r) =
    disk (g.partitionStart + g.fatStart + r)

/-- The calls of a run: FAT accesses and writes to the data area. -/
inductive MapOp where
  | read (cluster : ℕ)
  | write (cluster value : ℕ)
  | data (start : ℕ) (blocks : ℕ → Sector) (count : ℕ)

def MapOp.Allowed : MapOp → Prop
  | .read c => g.validCluster c
  | .write c _ => g.validCluster c
  | .data start _ count =>
    g.partitionStart + g.dataStart ≤ start ∧ start + count ≤ g.partitionStart + g.totalSectors

def MapOp.run : MapOp → FatM (Option ℕ)
  | .read c => do
    let value ← readEntry dev g c
    pure (some value)
  | .write c v => do
    writeEntry dev g c v
    pure none
  | .data start blocks count => do
    dev.write start blocks count
    pure none

/-- The replies to a run of calls and the state after it. -/
def runMap : List MapOp → FatState → List (Except Error (Option ℕ)) × FatState
  | [], s => ([], s)
  | op :: ops, s => ((op.run dev g s).1 :: (runMap ops (op.run dev g s).2).1, (runMap ops (op.run dev g s).2).2)

/-- What a call does to the abstract map, and what it answers. -/
def MapOp.next (m : ℕ → ℕ) : MapOp → ℕ → ℕ
  | .write c v => Function.update m c (v % 2 ^ 28)
  | _ => m

def MapOp.reply (m : ℕ → ℕ) : MapOp → Option ℕ
  | .read c => some (m c)
  | _ => none

def mapAfter (ops : List MapOp) (m : ℕ → ℕ) : ℕ → ℕ := ops.foldl MapOp.next m

def replies : List MapOp → (ℕ → ℕ) → List (Option ℕ)
  | [], _ => []
  | op :: ops, m => op.reply m :: replies ops (op.next m)

/-- The entries of the first FAT copy. -/
def initialMap (disk : ℕ → Sector) (c : ℕ) : ℕ := copyWord g disk 0 c % 2 ^ 28

/-- What `write_entry` of cluster `c` does to the disk, with `m` the map afterwards. -/
structure Written (c : ℕ) (m : ℕ → ℕ) (disk disk' : ℕ → Sector) : Prop where
  agree : CopiesAgree g disk'
  map : ∀ i < g.fatCount, ∀ x, g.validCluster x → copyWord g disk' i x % 2 ^ 28 = m x
  top : ∀ i < g.fatCount, ∀ e < 128 * g.fatSectors, copyWord g disk' i e / 2 ^ 28 = copyWord g disk i e / 2 ^ 28
  others : ∀ lba, (∀ i < g.fatCount, lba ≠ g.partitionStart + g.fatStart + i * g.fatSectors + c / 128) →
    disk' lba = disk lba

variable {dev} {g} {s s' : FatState} {c v sector : ℕ} {data : Sector} {disk disk' : ℕ → Sector}

/-! ## Entries and copies -/

theorem copyWord_zero (hc : g.Valid c) (disk : ℕ → Sector) : copyWord g disk 0 c = fatWord g disk c := by
  unfold copyWord fatWord
  rw [g.fatSector_eq hc, g.entOffset_eq hc, Nat.zero_mul, Nat.add_zero, Nat.add_assoc]

variable {i e : ℕ} {m : ℕ → ℕ}

theorem CopiesAgree.word (h : CopiesAgree g disk) (hi : i < g.fatCount) (he : e < 128 * g.fatSectors) :
    copyWord g disk i e = copyWord g disk 0 e := by
  unfold copyWord
  rw [h i hi (e / 128) (by omega), Nat.zero_mul, Nat.add_zero]

theorem CopiesAgree.row (h : CopiesAgree g disk) (hs : g.InFat sector) (hi : i < g.fatCount) :
    disk (g.copyLba sector i) = disk (g.partitionStart + sector) := by
  have hrow := h i hi (sector - g.fatStart)
  unfold Geometry.InFat at hs
  have hadd : g.partitionStart + g.fatStart + i * g.fatSectors + (sector - g.fatStart) =
      g.partitionStart + sector + i * g.fatSectors := by omega
  have hsub : g.partitionStart + g.fatStart + (sector - g.fatStart) = g.partitionStart + sector := by omega
  rw [hadd, hsub] at hrow
  rw [(g.copyLba_eq hs hi).1]
  exact hrow (by omega)

theorem mergeEntry_div {old : ℕ} (h : old < 2 ^ 32) (v : ℕ) : mergeEntry old v / 2 ^ 28 = old / 2 ^ 28 := by
  have hmask : (0xF0000000 : ℕ) / 2 ^ 28 = 2 ^ 4 - 1 := by decide
  have hlow : v % 2 ^ 28 / 2 ^ 28 = 0 := Nat.div_eq_of_lt (Nat.mod_lt _ (by decide))
  unfold mergeEntry
  rw [and_clusterMask, Nat.or_div_two_pow, Nat.and_div_two_pow, hmask, hlow, Nat.or_zero,
    Nat.and_two_pow_sub_one_eq_mod]
  omega

structure CopiesWritten (g : Geometry) (sector : ℕ) (data : Sector) (disk disk' : ℕ → Sector) : Prop where
  written : ∀ i < g.fatCount, disk' (g.copyLba sector i) = data
  others : ∀ lba, (∀ i < g.fatCount, lba ≠ g.copyLba sector i) → disk' lba = disk lba

theorem CopiesWritten.same (h : CopiesWritten g sector data disk disk') (ha : CopiesAgree g disk)
    (hs : g.InFat sector) (hd : data = disk (g.partitionStart + sector)) : disk' = disk := by
  funext lba
  by_cases hl : ∃ i < g.fatCount, lba = g.copyLba sector i
  · obtain ⟨i, hi, rfl⟩ := hl
    rw [h.written i hi, ha.row hs hi, hd]
  · exact h.others lba fun i hi he => hl ⟨i, hi, he⟩

theorem CopiesWritten.agree (h : CopiesWritten g sector data disk disk') (ha : CopiesAgree g disk)
    (hs : g.InFat sector) : CopiesAgree g disk' := by
  intro i hi r hr
  have hin : g.InFat (g.fatStart + r) := ⟨by omega, by omega⟩
  have hlba : ∀ i < g.fatCount, g.copyLba (g.fatStart + r) i =
      g.partitionStart + g.fatStart + i * g.fatSectors + r := by
    intro i hi
    rw [(g.copyLba_eq hin hi).1]
    omega
  have h0 := hlba 0 g.fatCount_pos
  rw [Nat.zero_mul, Nat.add_zero] at h0
  rw [← hlba i hi, ← h0]
  by_cases hsec : g.fatStart + r = sector
  · rw [hsec, h.written i hi, h.written 0 g.fatCount_pos]
  · have hne : ∀ i < g.fatCount, ∀ j < g.fatCount, g.copyLba (g.fatStart + r) i ≠ g.copyLba sector j :=
      fun i hi j hj he => hsec (g.copyLba_inj hin hs hi hj he).1
    rw [h.others _ (hne i hi), h.others _ (hne 0 g.fatCount_pos), ha.row hin hi, ha.row hin g.fatCount_pos]

def entrySector (g : Geometry) (disk : ℕ → Sector) (c v : ℕ) : Sector :=
  (disk (g.partitionStart + g.fatSector c)).setWord32 (entOffset c) (mergeEntry (fatWord g disk c) v)

theorem copyLba_fatSector (hc : g.Valid c) (hi : i < g.fatCount) :
    g.copyLba (g.fatSector c) i = g.partitionStart + g.fatStart + i * g.fatSectors + c / 128 := by
  rw [(g.copyLba_eq (g.fatSector_inFat hc) hi).1, g.fatSector_eq hc]
  omega

section

variable (h : CopiesWritten g (g.fatSector c) (entrySector g disk c v) disk disk')
include h

theorem CopiesWritten.first
    (hc : g.Valid c) (he : e < 128 * g.fatSectors) :
    copyWord g disk' 0 e = if e = c then mergeEntry (copyWord g disk 0 c) v else copyWord g disk 0 e := by
  have hoff := g.entOffset_eq hc
  have hlba := copyLba_fatSector hc g.fatCount_pos
  have hrow : disk (g.partitionStart + g.fatStart + 0 * g.fatSectors + c / 128) =
      disk (g.partitionStart + g.fatSector c) := by
    rw [← hlba, g.copyLba_zero (g.fatSector_inFat hc)]
  have hword := copyWord_zero hc disk
  have hnew := h.written 0 g.fatCount_pos
  rw [hlba] at hnew
  by_cases hec : e = c
  · rw [if_pos hec, hec, hword, copyWord, hnew, entrySector, hoff]
    exact word32_setWord32 _ _ _ (by omega) (mergeEntry_lt (word32_lt _ _) v)
  · rw [if_neg hec]
    by_cases hrows : e / 128 = c / 128
    · rw [copyWord, copyWord, hrows, hnew, hrow, entrySector, hoff]
      exact word32_setWord32_ne _ _ _ _ (by omega)
    · have hother : disk' (g.partitionStart + g.fatStart + 0 * g.fatSectors + e / 128) =
          disk (g.partitionStart + g.fatStart + 0 * g.fatSectors + e / 128) := by
        refine h.others _ fun j hj hej => ?_
        rw [copyLba_fatSector hc hj] at hej
        cases j with
        | zero => omega
        | succ j =>
          rw [Nat.succ_mul] at hej
          omega
      rw [copyWord, copyWord, hother]

theorem CopiesWritten.word
    (ha : CopiesAgree g disk) (hc : g.Valid c) (hi : i < g.fatCount) (he : e < 128 * g.fatSectors) :
    copyWord g disk' i e = if e = c then mergeEntry (copyWord g disk i c) v else copyWord g disk i e := by
  have hcrow : c < 128 * g.fatSectors := by
    have hrows := g.fat_rows hc
    omega
  rw [(h.agree ha (g.fatSector_inFat hc)).word hi he, h.first hc he, ha.word hi he, ha.word hi hcrow]

theorem CopiesWritten.effect
    (ha : CopiesAgree g disk) (hc : g.Valid c) (hm : ∀ x, g.Valid x → copyWord g disk 0 x % 2 ^ 28 = m x) :
    Written g c (Function.update m c (v % 2 ^ 28)) disk disk' := by
  refine ⟨h.agree ha (g.fatSector_inFat hc), fun i hi x hx => ?_, fun i hi e he => ?_, fun lba hl => ?_⟩
  · have hxv := (g.validCluster_iff x).mp hx
    have hrows : ∀ {x}, g.Valid x → x < 128 * g.fatSectors := fun hx => by have := g.fat_rows hx; omega
    rw [h.word ha hc hi (hrows hxv)]
    by_cases hxc : x = c
    · rw [if_pos hxc, hxc, Function.update_self, mergeEntry_mod]
    · rw [if_neg hxc, Function.update_of_ne hxc, ha.word hi (hrows hxv), hm x hxv]
  · rw [h.word ha hc hi he]
    split
    · rename_i hec
      rw [hec]
      exact mergeEntry_div (word32_lt _ _) v
    · rfl
  · exact h.others lba fun i hi he => hl i hi (he.trans (copyLba_fatSector hc hi))

end

/-! ## Calls on a device without failures -/

structure Mirrored (g : Geometry) (s : FatState) : Prop where
  copies : CopiesAgree g s.disk
  buffer : s.bufferSector = fatInvalidSector ∨
    (g.InFat s.bufferSector ∧ s.buffer = s.disk (g.partitionStart + s.bufferSector))

theorem Mirrored.loaded (h : Mirrored g s) (hs : g.InFat s.bufferSector) :
    s.buffer = s.disk (g.partitionStart + s.bufferSector) := by
  rcases h.buffer with hinv | hbuf
  · exact absurd hinv hs.ne_invalid
  · exact hbuf.2

section

variable (hf : g.Fits dev) (hnot : ¬dev.Faulty)
include hf hnot

theorem writeCopies_steady (hs : g.InFat sector) (data : Sector) (n i : ℕ)
    (hi : i + n ≤ g.fatCount) (s : FatState) :
    wp (writeCopies dev g sector data n i)
      (fun _ s' => (∀ lba, ((∃ j, i ≤ j ∧ j < i + n ∧ lba = g.copyLba sector j) → s'.disk lba = data) ∧
        ((¬∃ j, i ≤ j ∧ j < i + n ∧ lba = g.copyLba sector j) → s'.disk lba = s.disk lba)) ∧
        s'.buffer = s.buffer ∧ s'.bufferSector = s.bufferSector) (fun _ _ => False) s := by
  induction n generalizing i s with
  | zero =>
    refine ⟨fun lba => ⟨fun hj => ?_, fun _ => rfl⟩, rfl, rfl⟩
    obtain ⟨j, hj⟩ := hj
    omega
  | succ n ih =>
    unfold writeCopies
    rw [wp_bind]
    refine writeSector_wp (Geometry.copyLba_inRange hf hs (by omega)) ?_ fun _ _ hd => hnot hd
    refine wp_mono (ih (i + 1) (by omega) _) (fun _ s' h => ?_) fun _ _ h => h
    refine ⟨fun lba => ⟨fun hj => ?_, fun hno => ?_⟩, h.2.1, h.2.2⟩
    · by_cases hlater : ∃ j, i + 1 ≤ j ∧ j < i + 1 + n ∧ lba = g.copyLba sector j
      · exact (h.1 lba).1 hlater
      · refine ((h.1 lba).2 hlater).trans (if_pos ?_)
        obtain ⟨j, hij, hjn, rfl⟩ := hj
        rcases Nat.eq_or_lt_of_le hij with heq | hlt
        · exact ⟨rfl, by rw [heq]⟩
        · exact absurd ⟨j, by omega, by omega, rfl⟩ hlater
    · have hlater : ¬∃ j, i + 1 ≤ j ∧ j < i + 1 + n ∧ lba = g.copyLba sector j := by
        intro hj
        obtain ⟨j, hij, hjn, he⟩ := hj
        exact hno ⟨j, by omega, by omega, he⟩
      exact ((h.1 lba).2 hlater).trans (if_neg fun he => hno ⟨i, by omega, by omega, he.2⟩)

theorem writeCopies_written (hs : g.InFat sector) (data : Sector)
    (s : FatState) :
    wp (writeCopies dev g sector data g.fatCount 0)
      (fun _ s' => CopiesWritten g sector data s.disk s'.disk ∧ s'.buffer = s.buffer ∧
        s'.bufferSector = s.bufferSector) (fun _ _ => False) s := by
  refine wp_mono (writeCopies_steady hf hnot hs data g.fatCount 0 (by omega) s) (fun _ s' h => ?_) fun _ _ h => h
  refine ⟨⟨fun i hi => (h.1 _).1 ⟨i, Nat.zero_le i, by omega, rfl⟩, fun lba hl => (h.1 lba).2 ?_⟩, h.2⟩
  rintro ⟨j, -, hj, he⟩
  exact hl j (by omega) he

theorem loadSector_mirrored (hs : g.InFat sector) (h : CopiesAgree g s.disk) :
    wp (loadSector dev g sector) (fun _ s' => Mirrored g s' ∧ s'.disk = s.disk ∧ s'.bufferSector = sector)
      (fun _ _ => False) s := by
  refine wp_mono (loadSector_wp hf hs) (fun _ s' hl => ?_) fun _ _ he => hnot (Or.inl he.2.1)
  refine ⟨⟨by rw [hl.disk]; exact h, Or.inr ?_⟩, hl.disk, hl.bufferSector⟩
  rw [hl.bufferSector, hl.buffer, hl.disk]
  exact ⟨hs, rfl⟩

theorem readEntry_mirrored (hc : g.Valid c) (h : Mirrored g s) :
    wp (readEntry dev g c) (fun v s' => v = fatWord g s.disk c % 2 ^ 28 ∧ Mirrored g s' ∧ s'.disk = s.disk)
      (fun _ _ => False) s := by
  have hin := g.fatSector_inFat hc
  have hread : ∀ s' : FatState, Mirrored g s' → s'.bufferSector = g.fatSector c →
      s'.buffer.word32 (entOffset c) &&& fat32ClusterMask = fatWord g s'.disk c % 2 ^ 28 := by
    intro s' hs' hb
    rw [and_clusterMask, hs'.loaded (hb ▸ hin), hb, fatWord]
  unfold readEntry fetchSector
  rw [wp_bind, wp_ensure, if_pos ((g.validCluster_iff c).mpr hc), wp_bind, wp_bind, wp_state]
  split
  · refine wp_mono (loadSector_mirrored hf hnot hin h.copies) (fun _ s' hl => ?_) fun _ _ he => he
    rw [wp_bind, wp_state, wp_pure]
    exact ⟨by rw [hread s' hl.1 hl.2.2, hl.2.1], hl.1, hl.2.1⟩
  · rename_i he
    rw [wp_pure, wp_bind, wp_state, wp_pure]
    exact ⟨hread s h (not_not.mp he).symm, h, rfl⟩

theorem flushBuffer_mirrored (h : Mirrored g s) :
    wp (flushBuffer dev g) (fun _ s' => CopiesAgree g s'.disk ∧ s'.disk = s.disk) (fun _ _ => False) s := by
  unfold flushBuffer
  rw [wp_bind, wp_state]
  split
  · rename_i hd
    obtain ⟨hin, hbuf⟩ := h.buffer.resolve_left hd.2
    rw [wp_bind]
    refine wp_mono (writeCopies_written hf hnot hin s.buffer s) (fun _ s' hw => ?_) fun _ _ he => he
    have hsame := hw.1.same h.copies hin hbuf
    rw [wp_update]
    exact ⟨by rw [hsame]; exact h.copies, hsame⟩
  · exact ⟨h.copies, rfl⟩

theorem switchSector_mirrored (hs : g.InFat sector) (h : Mirrored g s) :
    wp (switchSector dev g sector) (fun _ s' => Mirrored g s' ∧ s'.disk = s.disk ∧ s'.bufferSector = sector)
      (fun _ _ => False) s := by
  unfold switchSector
  rw [wp_bind, wp_state]
  split
  · rw [wp_bind]
    refine wp_mono (flushBuffer_mirrored hf hnot h) (fun _ s₁ h₁ => ?_) fun _ _ he => he
    refine wp_mono (loadSector_mirrored hf hnot hs h₁.1) (fun _ s' hl => ?_) fun _ _ he => he
    exact ⟨hl.1, hl.2.1.trans h₁.2, hl.2.2⟩
  · rename_i he
    exact ⟨h, rfl, (not_not.mp he).symm⟩

theorem writeEntry_copies (hc : g.Valid c) (v : ℕ)
    (hswitch : wp (switchSector dev g (g.fatSector c)) (fun _ s₁ => s₁.buffer = s.disk (g.partitionStart + g.fatSector c) ∧
      s₁.disk = s.disk ∧ s₁.bufferSector = g.fatSector c) (fun _ _ => False) s) :
    wp (writeEntry dev g c v)
      (fun _ s' => CopiesWritten g (g.fatSector c) (entrySector g s.disk c v) s.disk s'.disk ∧ s'.bufferDirty = false ∧
        g.InFat s'.bufferSector ∧ s'.buffer = s'.disk (g.partitionStart + s'.bufferSector)) (fun _ _ => False) s := by
  have hin := g.fatSector_inFat hc
  unfold writeEntry
  rw [wp_bind, wp_ensure, if_pos ((g.validCluster_iff c).mpr hc), wp_bind]
  refine wp_mono hswitch (fun _ s₁ h₁ => ?_) fun _ _ he => he
  obtain ⟨hbuf₁, hd, hb⟩ := h₁
  rw [wp_bind, wp_update, wp_bind, wp_state, wp_bind]
  have hnew : (s₁.putEntry (entOffset c) v).buffer = entrySector g s.disk c v := by
    unfold FatState.putEntry entrySector fatWord
    rw [hbuf₁]
  refine wp_mono (writeCopies_written hf hnot hin _ _) (fun _ s' hw => ?_) fun _ _ he => he
  obtain ⟨hcopies, hbuf, hsec⟩ := hw
  have hdisk : (s₁.putEntry (entOffset c) v).disk = s.disk := hd
  have hsec' : s'.bufferSector = g.fatSector c := hsec.trans hb
  rw [hnew, hdisk] at hcopies
  rw [wp_update]
  refine ⟨hcopies, rfl, hsec' ▸ hin, ?_⟩
  have hfirst := hcopies.written 0 g.fatCount_pos
  rw [g.copyLba_zero hin] at hfirst
  rw [hsec', hfirst, hbuf, hnew]

theorem writeEntry_mirrored (hc : g.Valid c) (v : ℕ) (h : Mirrored g s) :
    wp (writeEntry dev g c v)
      (fun _ s' => Mirrored g s' ∧ CopiesWritten g (g.fatSector c) (entrySector g s.disk c v) s.disk s'.disk)
      (fun _ _ => False) s := by
  have hin := g.fatSector_inFat hc
  refine wp_mono (writeEntry_copies hf hnot hc v ?_)
    (fun _ s' hw => ⟨⟨hw.1.agree h.copies hin, Or.inr hw.2.2⟩, hw.1⟩) fun _ _ he => he
  refine wp_mono (switchSector_mirrored hf hnot hin h) (fun _ s₁ h₁ => ?_) fun _ _ he => he
  obtain ⟨hm, hd, hb⟩ := h₁
  have hbuf := hm.loaded (hb ▸ hin)
  rw [hd, hb] at hbuf
  exact ⟨hbuf, hd, hb⟩

end

/-! ## Runs -/

theorem Mirrored.congr (h : Mirrored g s) (hs : s'.bufferSector = s.bufferSector) (hb : s'.buffer = s.buffer)
    (hd : ∀ lba < g.partitionStart + g.dataStart, s'.disk lba = s.disk lba) : Mirrored g s' := by
  have hdata := g.layout.1
  have hfirst : g.fatSectors ≤ g.fatCount * g.fatSectors := Nat.le_mul_of_pos_left _ g.fatCount_pos
  refine ⟨fun i hi r hr => ?_, ?_⟩
  · have hrows : (i + 1) * g.fatSectors ≤ g.fatCount * g.fatSectors := Nat.mul_le_mul_right _ hi
    rw [Nat.succ_mul] at hrows
    rw [hd _ (by omega), hd _ (by omega)]
    exact h.copies i hi r hr
  · rw [hs, hb]
    rcases h.buffer with hinv | ⟨hin, hbuf⟩
    · exact Or.inl hinv
    · have hin' := hin
      unfold Geometry.InFat at hin'
      rw [hd _ (by omega)]
      exact Or.inr ⟨hin, hbuf⟩

theorem fatWord_data (hc : g.Valid c) (hd : ∀ lba < g.partitionStart + g.dataStart, disk' lba = disk lba) :
    fatWord g disk' c = fatWord g disk c := by
  have hin := g.fatSector_inFat hc
  have hdata := g.layout.1
  have hfirst : g.fatSectors ≤ g.fatCount * g.fatSectors := Nat.le_mul_of_pos_left _ g.fatCount_pos
  unfold Geometry.InFat at hin
  unfold fatWord
  rw [hd _ (by omega)]

def Holds (g : Geometry) (m : ℕ → ℕ) (disk : ℕ → Sector) : Prop :=
  ∀ x, g.Valid x → copyWord g disk 0 x % 2 ^ 28 = m x

theorem MapOp.run_spec (op : MapOp) (hf : g.Fits dev) (hnot : ¬dev.Faulty) (ha : op.Allowed g)
    (h : Mirrored g s) (hm : Holds g m s.disk) :
    wp (op.run dev g) (fun r s' => r = op.reply m ∧ Mirrored g s' ∧ Holds g (op.next m) s'.disk ∧
      ∀ c v, op = .write c v → Written g c (op.next m) s.disk s'.disk) (fun _ _ => False) s := by
  cases op with
  | read c =>
    have hc := (g.validCluster_iff c).mp ha
    unfold MapOp.run
    rw [wp_bind]
    refine wp_mono (readEntry_mirrored hf hnot hc h) (fun v s' hr => ?_) fun _ _ he => he
    obtain ⟨hv, hmir, hd⟩ := hr
    refine ⟨?_, hmir, ?_, fun c v he => by simp at he⟩
    · rw [hv, ← copyWord_zero hc, hm c hc]
      rfl
    · rw [hd]
      exact hm
  | write c v =>
    have hc := (g.validCluster_iff c).mp ha
    unfold MapOp.run
    rw [wp_bind]
    refine wp_mono (writeEntry_mirrored hf hnot hc v h) (fun _ s' hr => ?_) fun _ _ he => he
    have heff := hr.2.effect h.copies hc hm
    refine ⟨rfl, hr.1, fun x hx => heff.map 0 g.fatCount_pos x ((g.validCluster_iff x).mpr hx), ?_⟩
    intro c' v' he
    obtain ⟨rfl, rfl⟩ := MapOp.write.inj he
    exact heff
  | data start blocks count =>
    obtain ⟨hlow, hhigh⟩ := ha
    unfold MapOp.run
    rw [wp_bind]
    refine write_wp (hf.inRange hhigh) ?_ fun _ _ hd => hnot hd
    have hkeep : ∀ lba < g.partitionStart + g.dataStart,
        writeAt s.disk start blocks (fun _ => true) count lba = s.disk lba := by
      intro lba hl
      rw [writeAt_apply, if_neg (by omega)]
    refine ⟨rfl, h.congr rfl rfl hkeep, fun x hx => ?_, fun c v he => by simp at he⟩
    rw [copyWord_zero hx]
    show fatWord g (writeAt s.disk start blocks (fun _ => true) count) x % 2 ^ 28 = m x
    rw [fatWord_data hx hkeep, ← copyWord_zero hx]
    exact hm x hx

theorem MapOp.run_ok (op : MapOp) (hf : g.Fits dev) (hnot : ¬dev.Faulty) (ha : op.Allowed g)
    (h : Mirrored g s) (hm : Holds g m s.disk) : (op.run dev g s).1 = .ok (op.reply m) ∧
      Mirrored g (op.run dev g s).2 ∧ Holds g (op.next m) (op.run dev g s).2.disk ∧
      ∀ c v, op = .write c v → Written g c (op.next m) s.disk (op.run dev g s).2.disk := by
  have hspec := op.run_spec hf hnot ha h hm
  unfold wp at hspec
  split at hspec
  · rename_i r s' hr
    rw [hr]
    exact ⟨by rw [hspec.1], hspec.2⟩
  · exact hspec.elim

theorem runMap_spec (hf : g.Fits dev) (hnot : ¬dev.Faulty) (ops : List MapOp)
    (ha : ∀ op ∈ ops, op.Allowed g) (h : Mirrored g s) (hm : Holds g m s.disk) :
    (runMap dev g ops s).1 = (replies ops m).map .ok ∧ Mirrored g (runMap dev g ops s).2 ∧
      Holds g (mapAfter ops m) (runMap dev g ops s).2.disk := by
  induction ops generalizing s m with
  | nil => exact ⟨rfl, h, hm⟩
  | cons op ops ih =>
    obtain ⟨hr, hmir, hmap, -⟩ := op.run_ok hf hnot (ha op (by simp)) h hm
    obtain ⟨hrs, hmir', hmap'⟩ := ih (fun op' hop => ha op' (by simp [hop])) hmir hmap
    refine ⟨?_, hmir', hmap'⟩
    rw [runMap, replies, List.map_cons, hr, hrs]

theorem runMap_snoc (ops : List MapOp) (op : MapOp) (s : FatState) :
    (runMap dev g (ops ++ [op]) s).2 = (op.run dev g (runMap dev g ops s).2).2 := by
  induction ops generalizing s with
  | nil => rfl
  | cons op' ops ih => exact ih _

/-- Every run of FAT accesses and data writes on a mounted volume with identical FAT copies answers
like the map, and every `write_entry` leaves the copies identical and in accord with it. -/
theorem cache_implements_map (dev : Device) (g : Geometry) (s₀ s : FatState) (ops : List MapOp)
    (hm : mount dev s₀ = (.ok g, s)) (hnot : ¬dev.Faulty) (hcopies : CopiesAgree g s.disk)
    (hops : ∀ op ∈ ops, op.Allowed g) :
    (runMap dev g ops s).1 = (replies ops (initialMap g s.disk)).map .ok ∧
      ∀ pre c v post, ops = pre ++ .write c v :: post →
        Written g c (mapAfter (pre ++ [.write c v]) (initialMap g s.disk)) (runMap dev g pre s).2.disk
          (runMap dev g (pre ++ [.write c v]) s).2.disk := by
  obtain ⟨hf, hinv⟩ := wp_ok (mount_empty dev s₀) hm
  have hmir : Mirrored g s := ⟨hcopies, Or.inl hinv⟩
  refine ⟨(runMap_spec hf hnot ops hops hmir fun _ _ => rfl).1, fun pre c v post hsplit => ?_⟩
  obtain ⟨-, hmir', hmap'⟩ := runMap_spec hf hnot pre (fun op hop => hops op (by simp [hsplit, hop])) hmir
    fun _ _ => rfl
  obtain ⟨-, -, -, heff⟩ := (MapOp.write c v).run_ok hf hnot (hops _ (by simp [hsplit])) hmir' hmap'
  rw [runMap_snoc, mapAfter, List.foldl_append]
  exact heff c v rfl

def sampleMapOps : List MapOp := [.read 3, .write 5 0xF0000007, .data 6 (fun _ => Block.zero) 1, .read 5, .read 3]

theorem cache_implements_map_sample :
    (runMap (steadyDevice sampleGeometry) sampleGeometry sampleMapOps { sampleState with served := 2 }).1 =
      (replies sampleMapOps (initialMap sampleGeometry sampleState.disk)).map .ok := by
  have hone : sampleGeometry.fatCount = 1 := rfl
  refine (cache_implements_map (steadyDevice sampleGeometry) sampleGeometry sampleState _ sampleMapOps sample_mount
    (steadyDevice_steady _) (fun i hi r _ => ?_) fun op hop => ?_).1
  · obtain rfl : i = 0 := by omega
    rw [Nat.zero_mul, Nat.add_zero]
  · simp only [sampleMapOps, List.mem_cons, List.not_mem_nil, or_false] at hop
    rcases hop with rfl | rfl | rfl | rfl | rfl <;> unfold MapOp.Allowed <;> decide

end Zonix.Fat
