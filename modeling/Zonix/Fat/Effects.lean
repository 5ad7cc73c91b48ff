import Zonix.Fat.Stability
import Zonix.Fat.Traversal

/-! # What `alloc_cluster` and `free_chain` change

On a device without failures and a FAT with any contents.  `Effect g l v filled` is the whole change
of the disk: the entries of the clusters `l` get the value `v` and the data of `filled` is zeroed. -/

namespace Zonix.Fat

open Prog Pointer

variable {dev : Device} {g : Geometry} {s s' : FatState} {c v start : ℕ} {l : List ℕ}
  {disk mid disk' : ℕ → Sector}

structure Idle (g : Geometry) (s : FatState) : Prop where
  clean : s.bufferDirty = false
  buffer : s.bufferSector = fatInvalidSector ∨
    (g.InFat s.bufferSector ∧ s.buffer = s.disk (g.partitionStart + s.bufferSector))

/-- The FAT is known by its first copy, the one that is read.  A FAT sector is always written to
every copy. -/
structure Effect (g : Geometry) (l : List ℕ) (v : ℕ) (filled : List ℕ) (disk disk' : ℕ → Sector) : Prop where
  set : ∀ c ∈ l, copyWord g disk' 0 c % 2 ^ 28 = v % 2 ^ 28 ∧
    copyWord g disk' 0 c / 2 ^ 28 = copyWord g disk 0 c / 2 ^ 28
  keep : ∀ e < 128 * g.fatSectors, e ∉ l → copyWord g disk' 0 e = copyWord g disk 0 e
  mirror : ∀ c ∈ l, ∀ i < g.fatCount,
    disk' (g.copyLba (g.fatSector c) i) = disk' (g.copyLba (g.fatSector c) 0)
  agree : CopiesAgree g disk → CopiesAgree g disk'
  zero : ∀ c ∈ filled, ∀ i < g.sectorsPerCluster, disk' (g.dataLba c i) = Block.zero
  others : ∀ lba, (∀ c ∈ l, ∀ i < g.fatCount, lba ≠ g.copyLba (g.fatSector c) i) →
    (∀ c ∈ filled, ∀ i < g.sectorsPerCluster, lba ≠ g.dataLba c i) → disk' lba = disk lba

/-! ## An idle cache -/

theorem Idle.coherent (h : Idle g s) : Coherent g s := by
  rcases h.buffer with hinv | ⟨hin, hbuf⟩
  · exact coherent_of_invalid hinv
  · exact sync_loaded hin rfl hbuf

theorem Idle.loaded (h : Idle g s) (hs : g.InFat s.bufferSector) :
    s.buffer = s.disk (g.partitionStart + s.bufferSector) := by
  rcases h.buffer with hinv | hbuf
  · exact absurd hinv hs.ne_invalid
  · exact hbuf.2

theorem Idle.congr (h : Idle g s) (hd : s'.bufferDirty = s.bufferDirty) (hs : s'.bufferSector = s.bufferSector)
    (hb : s'.buffer = s.buffer)
    (hfat : ∀ lba < g.partitionStart + g.dataStart, s'.disk lba = s.disk lba) : Idle g s' := by
  refine ⟨hd.trans h.clean, ?_⟩
  rw [hs, hb]
  rcases h.buffer with hinv | ⟨hin, hbuf⟩
  · exact Or.inl hinv
  · have hlt := (g.copyLba_eq hin g.fatCount_pos).2
    rw [Nat.zero_mul, Nat.add_zero] at hlt
    rw [hfat _ hlt]
    exact Or.inr ⟨hin, hbuf⟩

theorem Loaded.idle {sector : ℕ} (h : Loaded g sector s s') (hs : g.InFat sector) (hc : s.bufferDirty = false) :
    Idle g s' := by
  refine ⟨h.dirty.trans hc, Or.inr ?_⟩
  rw [h.bufferSector, h.buffer, h.disk]
  exact ⟨hs, rfl⟩

def KeepsIdle {α : Type} (g : Geometry) (m : FatM α) : Prop := ∀ s, Idle g s → wp m (fun _ => Idle g) (fun _ => Idle g) s

theorem KeepsIdle.bind {α β : Type} {m : FatM α} {f : α → FatM β} (h : KeepsIdle g m) (h' : ∀ a, KeepsIdle g (f a)) :
    KeepsIdle g (m >>= f) := by
  intro s hs
  rw [wp_bind]
  exact wp_mono (h s hs) (fun a s₁ h₁ => h' a s₁ h₁) fun _ _ he => he

theorem KeepsIdle.ensure (p : Prop) [Decidable p] (e : Error) : KeepsIdle g (Prog.ensure p e) := by
  intro s hs
  rw [wp_ensure]
  split <;> exact hs

theorem loadSector_idle {sector : ℕ} (hf : g.Fits dev) (hnot : ¬dev.Faulty) (hs : g.InFat sector)
    (hc : s.bufferDirty = false) :
    wp (loadSector dev g sector) (fun _ s' => Idle g s' ∧ s'.disk = s.disk ∧ s'.bufferSector = sector)
      (fun _ _ => False) s :=
  wp_mono (loadSector_wp hf hs) (fun _ _ h => ⟨h.idle hs hc, h.disk, h.bufferSector⟩)
    fun _ _ he => hnot (Or.inl he.2.1)

theorem readEntry_keepsIdle (hf : g.Fits dev) (hnot : ¬dev.Faulty) (c : ℕ) : KeepsIdle g (readEntry dev g c) := by
  intro s hs
  unfold readEntry
  rw [wp_bind, wp_ensure]
  split
  · rename_i hv
    have hin := g.fatSector_inFat ((g.validCluster_iff c).mp hv)
    unfold fetchSector
    rw [wp_bind, wp_bind, wp_state]
    split
    · exact wp_mono (loadSector_idle hf hnot hin hs.clean) (fun _ _ h => h.1) fun _ _ he => he.elim
    · exact hs
  · exact hs

theorem next_keepsIdle (hf : g.Fits dev) (hnot : ¬dev.Faulty) (ch : ClusterChain) : KeepsIdle g (ch.next dev g) := by
  have henter : ∀ ch' : ClusterChain, KeepsIdle g (ch'.enter g) := fun ch' =>
    KeepsIdle.bind (.ensure _ _) fun _ s hs => hs
  unfold ClusterChain.next
  split
  · exact fun s hs => hs
  · split
    · refine KeepsIdle.bind (readEntry_keepsIdle hf hnot _) fun next => ?_
      split
      · exact fun s hs => hs
      · exact KeepsIdle.bind (.ensure _ _) fun _ => KeepsIdle.bind (.ensure _ _) fun _ => henter _
    · exact henter ch

/-- The first loop of `free_chain`. -/
def validate (dev : Device) (g : Geometry) (fuel : ℕ) (ch : ClusterChain) : FatM (Flow Unit Unit) :=
  walk dev g (fun _ => true) (fun _ _ => pure (.next ())) fuel ch ()

theorem validate_keepsIdle (hf : g.Fits dev) (hnot : ¬dev.Faulty) (fuel : ℕ) (ch : ClusterChain) :
    KeepsIdle g (validate dev g fuel ch) := by
  induction fuel generalizing ch with
  | zero => exact fun s hs => hs
  | succ fuel ih =>
    unfold validate walk
    rw [if_pos rfl]
    refine KeepsIdle.bind (next_keepsIdle hf hnot ch) fun r => ?_
    obtain ⟨cluster, ch'⟩ := r
    dsimp only
    split
    · exact fun s hs => hs
    · exact KeepsIdle.bind (fun s hs => hs) fun flow => by
        cases flow with
        | next acc => exact ih ch'
        | stop r => exact fun s hs => hs

/-! ## Chains by their links -/

theorem path_links (V : Volume) (start k n : ℕ) :
    Path V.fat (link V start k) ((List.range' k n).map (link V start)) (link V start (k + n)) := by
  induction n generalizing k with
  | zero => rfl
  | succ n ih =>
    refine ⟨rfl, ?_⟩
    rw [← link_succ, Nat.add_comm n 1, ← Nat.add_assoc]
    exact ih (k + 1)

theorem links_of_path {V : Volume} {a e : ℕ} (h : Path V.fat a l e) :
    (∀ i < l.length, link V a i ∈ l) ∧ link V a l.length = e := by
  induction l generalizing a with
  | nil => exact ⟨fun i hi => by simp at hi, h⟩
  | cons x l ih =>
    obtain ⟨rfl, hp⟩ := h
    obtain ⟨hmem, hend⟩ := ih hp
    refine ⟨fun i hi => ?_, hend⟩
    cases i with
    | zero => exact List.mem_cons_self
    | succ i => exact List.mem_cons_of_mem _ (hmem i (by simpa using hi))

theorem reachesEnd_iff {V : Volume} : ReachesEnd g V start ↔ ∃ l, Chain g V start l := by
  constructor
  · rintro ⟨n, hv, hend⟩
    refine ⟨(List.range' 0 (n + 1)).map (link V start), by simp, fun x hx => ?_, _, hend, ?_⟩
    · obtain ⟨i, hi, rfl⟩ := List.mem_map.mp hx
      rw [List.mem_range'_1] at hi
      exact hv i (by omega)
    · have hpath := path_links V start 0 (n + 1)
      rw [Nat.zero_add] at hpath
      exact hpath
  · rintro ⟨l, hl⟩
    obtain ⟨e, he, hp⟩ := hl.path
    obtain ⟨hmem, hend⟩ := links_of_path hp
    have hpos := List.length_pos_of_ne_nil hl.nonempty
    refine ⟨l.length - 1, fun i hi => hl.valid _ (hmem i (by omega)), ?_⟩
    rw [Nat.sub_add_cancel hpos, hend]
    exact he

theorem validate_answers (hf : g.Fits dev) (fuel n : ℕ) (ch : ClusterChain) (h : Walked g (vol g disk) start n ch)
    (hfuel : g.clusterCount - n < fuel) :
    ∃ r, Reads dev g disk (validate dev g fuel ch) r ∧
      ((r = .ok (.next ()) ∧ ReachesEnd g (vol g disk) start) ∨
        (r = .error .badFs ∧ ¬ReachesEnd g (vol g disk) start)) := by
  induction fuel generalizing n ch with
  | zero => exact absurd hfuel (Nat.not_lt_zero _)
  | succ fuel ih =>
    obtain ⟨r, hr, ha⟩ := next_answers hf h
    unfold validate walk
    rw [if_pos rfl]
    cases ha with
    | @yielded ch' hw =>
      have hge : 2 ≤ link (vol g disk) start n := (hw.valid n (Nat.lt_succ_self n)).1
      have hbound := hw.bound
      obtain ⟨r, hrest, hres⟩ := ih (n + 1) ch' hw (by omega)
      refine ⟨r, Reads.bind hr ?_, hres⟩
      dsimp only
      rw [if_neg (by omega)]
      exact Reads.bind Reads.pure hrest
    | ended ch' h0 hend =>
      refine ⟨.ok (.next ()), Reads.bind hr ?_, Or.inl ⟨rfl, n - 1, fun i hi => h.valid i (by omega), ?_⟩⟩
      · exact Reads.pure
      · rw [Nat.sub_add_cancel h0]
        exact hend
    | refused hb => exact ⟨.error .badFs, Reads.bind_error hr, Or.inr ⟨rfl, hb.not_reachesEnd h.valid⟩⟩

/-! ## Writing entries -/

theorem writeEntry_idle (hf : g.Fits dev) (hnot : ¬dev.Faulty) (hc : g.Valid c) (v : ℕ) (h : Idle g s) :
    wp (writeEntry dev g c v)
      (fun _ s' => Idle g s' ∧ CopiesWritten g (g.fatSector c) (entrySector g s.disk c v) s.disk s'.disk)
      (fun _ _ => False) s := by
  have hin := g.fatSector_inFat hc
  refine wp_mono (writeEntry_copies hf hnot hc v ?_) (fun _ s' hw => ⟨⟨hw.2.1, Or.inr hw.2.2⟩, hw.1⟩) fun _ _ he => he
  unfold switchSector flushBuffer
  rw [wp_bind, wp_state]
  split
  · rw [wp_bind, wp_bind, wp_state, if_neg (by simp [h.clean]), wp_pure]
    refine wp_mono (loadSector_idle hf hnot hin h.clean) (fun _ s₁ h₁ => ⟨?_, h₁.2⟩) fun _ _ he => he
    rw [h₁.1.loaded (h₁.2.2 ▸ hin), h₁.2.1, h₁.2.2]
  · rename_i he
    have hb : s.bufferSector = g.fatSector c := (not_not.mp he).symm
    exact ⟨hb ▸ h.loaded (hb ▸ hin), rfl, hb⟩

theorem Effect.refl (g : Geometry) (v : ℕ) (disk : ℕ → Sector) : Effect g [] v [] disk disk :=
  ⟨by simp, fun _ _ _ => rfl, by simp, fun h => h, by simp, fun _ _ _ => rfl⟩

theorem Effect.cons (hw : CopiesWritten g (g.fatSector c) (entrySector g disk c v) disk mid) (hc : g.Valid c)
    (hl : ∀ x ∈ l, g.Valid x) (hnew : c ∉ l) (h : Effect g l v [] mid disk') : Effect g (c :: l) v [] disk disk' := by
  have hin := g.fatSector_inFat hc
  have hrows : ∀ x, g.Valid x → x < 128 * g.fatSectors := fun x hx => by
    have hrow := g.fat_rows hx
    omega
  refine ⟨fun x hx => ?_, fun e he hne => ?_, fun x hx i hi => ?_, fun ha => h.agree (hw.agree ha hin), by simp,
    fun lba hl _ => ?_⟩
  · rcases List.mem_cons.mp hx with rfl | hx
    · rw [h.keep x (hrows x hc) hnew, hw.first hc (hrows x hc), if_pos rfl]
      exact ⟨mergeEntry_mod _ v, mergeEntry_div (word32_lt _ _) v⟩
    · obtain ⟨hmod, hdiv⟩ := h.set x hx
      have hxc : x ≠ c := fun he => hnew (he ▸ hx)
      rw [hw.first hc (hrows x (hl x hx)), if_neg hxc] at hdiv
      exact ⟨hmod, hdiv⟩
  · rw [List.mem_cons, not_or] at hne
    rw [h.keep e he hne.2, hw.first hc he, if_neg hne.1]
  · rcases List.mem_cons.mp hx with rfl | hx
    · by_cases hshare : ∃ y ∈ l, g.fatSector y = g.fatSector x
      · obtain ⟨y, hy, he⟩ := hshare
        rw [← he]
        exact h.mirror y hy i hi
      · -- no later entry is in this sector
        have hkeep : ∀ i < g.fatCount, disk' (g.copyLba (g.fatSector x) i) = mid (g.copyLba (g.fatSector x) i) := by
          intro i hi
          refine h.others _ (fun y hy j hj he => hshare ⟨y, hy, ?_⟩) (by simp)
          exact (g.copyLba_inj hin (g.fatSector_inFat (hl y hy)) hi hj he).1.symm
        rw [hkeep i hi, hkeep 0 g.fatCount_pos, hw.written i hi, hw.written 0 g.fatCount_pos]
    · exact h.mirror x hx i hi
  · rw [h.others lba (fun x hx => hl x (List.mem_cons_of_mem _ hx)) (by simp)]
    exact hw.others lba (hl c List.mem_cons_self)

theorem vol_fat_first (disk : ℕ → Sector) (hc : g.Valid c) : (vol g disk).fat c = copyWord g disk 0 c % 2 ^ 28 := by
  rw [vol_fat _ hc, copyWord_zero hc]

theorem CopiesWritten.vol_fat (hw : CopiesWritten g (g.fatSector c) (entrySector g disk c v) disk mid) (hc : g.Valid c)
    {x : ℕ} (hx : g.Valid x) (hne : x ≠ c) : (vol g mid).fat x = (vol g disk).fat x := by
  have hrow := g.fat_rows hx
  rw [vol_fat_first _ hx, vol_fat_first _ hx, hw.first hc (by omega), if_neg hne]

/-! ## Freeing -/

theorem freeLoop_effect (start : ℕ) (hf : g.Fits dev) (hnot : ¬dev.Faulty) (l : List ℕ) (fuel : ℕ) (hfuel : l.length < fuel)
    (s : FatState) (hs : Idle g s) (hv : ∀ x ∈ l, g.Valid x) (hnd : l.Nodup) {e : ℕ} (he : fat32EocMin ≤ e)
    (hp : Path (vol g s.disk).fat start l e) :
    wp (freeLoop dev g fuel start) (fun _ s' => Idle g s' ∧ Effect g l fat32Free [] s.disk s'.disk)
      (fun _ _ => False) s := by
  induction l generalizing fuel start s with
  | nil =>
    obtain rfl : start = e := hp
    cases fuel with
    | zero => exact absurd hfuel (Nat.not_lt_zero _)
    | succ fuel =>
      unfold freeLoop
      rw [if_neg (Nat.not_lt.mpr he)]
      exact ⟨hs, Effect.refl g _ _⟩
  | cons x l ih =>
    obtain ⟨rfl, hp⟩ := hp
    have hx := hv start List.mem_cons_self
    obtain ⟨hxl, hnd⟩ := List.nodup_cons.mp hnd
    cases fuel with
    | zero => exact absurd hfuel (Nat.not_lt_zero _)
    | succ fuel =>
      unfold freeLoop
      rw [if_pos hx.lt_eoc, wp_bind]
      refine wp_mono (wp_and (reads_entry hf hx s rfl hs.coherent) (readEntry_keepsIdle hf hnot start s hs))
        (fun next s₁ h₁ => ?_) fun _ _ h₁ => ?_
      · obtain ⟨⟨hnext, hq, -⟩, hi⟩ := h₁
        obtain rfl := Except.ok.inj hnext
        rw [wp_bind]
        refine wp_mono (writeEntry_idle hf hnot hx fat32Free hi) (fun _ s₂ h₂ => ?_) fun _ _ h => h
        obtain ⟨hi₂, hw⟩ := h₂
        rw [hq.disk] at hw
        have hpath := hp.congr fun y hy => hw.vol_fat hx (hv y (List.mem_cons_of_mem _ hy)) fun hyx => hxl (hyx ▸ hy)
        refine wp_mono (ih _ fuel (by simpa using hfuel) s₂ hi₂ (fun y hy => hv y (List.mem_cons_of_mem _ hy)) hnd hpath)
          (fun _ s₃ h₃ => ?_) fun _ _ h => h
        exact ⟨h₃.1, h₃.2.cons hw hx (fun y hy => hv y (List.mem_cons_of_mem _ hy)) hxl⟩
      · obtain ⟨⟨-, hbad | hfault⟩, -⟩ := h₁
        · exact absurd hbad.1 (by simp)
        · exact hnot (Or.inl hfault.1)

theorem freeChain_chain (hf : g.Fits dev) (hnot : ¬dev.Faulty) (hs : Idle g s) (h : Chain g (vol g s.disk) start l) :
    wp (freeChain dev g start) (fun _ s' => Idle g s' ∧ Effect g l fat32Free [] s.disk s'.disk)
      (fun _ _ => False) s := by
  obtain ⟨r, hr, hres⟩ := validate_answers hf (g.clusterCount + 2) 0 (ClusterChain.new start)
    (walked_new (V := vol g s.disk) start) (by omega)
  obtain ⟨rfl, -⟩ := hres.resolve_right fun hbad => hbad.2 (reachesEnd_iff.mpr ⟨l, h⟩)
  obtain ⟨e, he, hp⟩ := h.path
  unfold freeChain walkChain
  rw [wp_bind]
  refine wp_mono (wp_and (hr s rfl hs.coherent) (validate_keepsIdle hf hnot _ _ s hs)) (fun _ s₁ h₁ => ?_)
    fun _ _ h₁ => ?_
  · obtain ⟨⟨-, hq, -⟩, hi⟩ := h₁
    have hlen := valid_length h.valid h.nodup
    have hloop := freeLoop_effect start hf hnot l (g.clusterCount + 2) (by omega) s₁ hi h.valid h.nodup he
      (by rw [hq.disk]; exact hp)
    rw [hq.disk] at hloop
    exact hloop
  · obtain ⟨⟨-, hbad | hfault⟩, -⟩ := h₁
    · exact absurd hbad.1 (by simp)
    · exact hnot (Or.inl hfault.1)

theorem freeChain_broken (hf : g.Fits dev) (hnot : ¬dev.Faulty) (hs : Idle g s)
    (h : ¬∃ l, Chain g (vol g s.disk) start l) :
    wp (freeChain dev g start) (fun _ _ => False) (fun e s' => e = .badFs ∧ Idle g s' ∧ s'.disk = s.disk) s := by
  obtain ⟨r, hr, hres⟩ := validate_answers hf (g.clusterCount + 2) 0 (ClusterChain.new start)
    (walked_new (V := vol g s.disk) start) (by omega)
  obtain ⟨rfl, -⟩ := hres.resolve_left fun hok => h (reachesEnd_iff.mp hok.2)
  unfold freeChain walkChain
  rw [wp_bind]
  refine wp_mono (wp_and (hr s rfl hs.coherent) (validate_keepsIdle hf hnot _ _ s hs)) (fun _ s₁ h₁ => ?_)
    fun _ _ h₁ => ?_
  · exact absurd h₁.1.1 (by simp)
  · obtain ⟨⟨hq, hbad | hfault⟩, hi⟩ := h₁
    · exact ⟨(Except.error.inj hbad.1).symm, hi, hq.disk⟩
    · exact absurd (Or.inl hfault.1) hnot

/-! ## Allocating -/

theorem writeSectors_dirty (dev : Device) (g : Geometry) (c : ℕ) (data : ℕ → Sector) (n i : ℕ) (s : FatState) :
    wp (writeSectors dev g c data n i) (fun _ s' => s'.bufferDirty = s.bufferDirty)
      (fun _ s' => s'.bufferDirty = s.bufferDirty) s := by
  induction n generalizing i s with
  | zero => exact rfl
  | succ n ih =>
    have hone := wp_left (P := fun s' : FatState => s'.bufferDirty = s.bufferDirty).mpr
      (writeSector_dirty dev (g.clusterLba c i) (data i) s)
    unfold writeSectors
    rw [wp_bind]
    refine wp_mono hone (fun _ s₁ h₁ => ?_) fun _ _ h => h
    exact wp_mono (ih (i + 1) s₁) (fun _ _ h => h.trans h₁) fun _ _ h => h.trans h₁

theorem Poured.idle (h : Poured g c s s') (hd : s'.bufferDirty = s.bufferDirty) (hs : Idle g s) : Idle g s' := by
  refine hs.congr hd h.bufferSector h.buffer fun lba hlt => h.disk lba fun k _ he => ?_
  unfold Geometry.dataLba at he
  omega

theorem Effect.fill (h : Effect g l v [] s.disk mid) (hv : ∀ x ∈ l, g.Valid x) (hmid : mid = s'.disk) {s₂ : FatState}
    (hp : Poured g c s' s₂) (hz : ∀ i < g.sectorsPerCluster, s₂.disk (g.dataLba c i) = Block.zero) :
    Effect g l v [c] s.disk s₂.disk := by
  have hlow : ∀ lba < g.partitionStart + g.dataStart, s₂.disk lba = mid lba := by
    intro lba hlt
    rw [hmid]
    refine hp.disk lba fun k _ he => ?_
    unfold Geometry.dataLba at he
    omega
  have hrow : ∀ i < g.fatCount, ∀ r < g.fatSectors,
      g.partitionStart + g.fatStart + i * g.fatSectors + r < g.partitionStart + g.dataStart := by
    intro i hi r hr
    have hmul : (i + 1) * g.fatSectors ≤ g.fatCount * g.fatSectors := Nat.mul_le_mul_right _ hi
    have hdata := g.layout.1
    rw [Nat.succ_mul] at hmul
    omega
  have hword : ∀ e < 128 * g.fatSectors, copyWord g s₂.disk 0 e = copyWord g mid 0 e := by
    intro e he
    unfold copyWord
    rw [hlow _ (hrow 0 g.fatCount_pos _ (by omega))]
  have hvalid : ∀ x ∈ l, x < 128 * g.fatSectors := fun x hx => by
    have := g.fat_rows (hv x hx)
    omega
  have hcopy : ∀ x ∈ l, ∀ i < g.fatCount,
      s₂.disk (g.copyLba (g.fatSector x) i) = mid (g.copyLba (g.fatSector x) i) := by
    intro x hx i hi
    refine hlow _ ?_
    rw [copyLba_fatSector (hv x hx) hi]
    exact hrow i hi _ (g.fat_rows (hv x hx))
  refine ⟨fun x hx => ?_, fun e he hne => ?_, fun x hx i hi => ?_, fun ha i hi r hr => ?_, fun x hx i hi => ?_,
    fun lba hl hd => ?_⟩
  · rw [hword x (hvalid x hx)]
    exact h.set x hx
  · rw [hword e he]
    exact h.keep e he hne
  · rw [hcopy x hx i hi, hcopy x hx 0 g.fatCount_pos]
    exact h.mirror x hx i hi
  · have hfirst := hrow 0 g.fatCount_pos r hr
    rw [Nat.zero_mul, Nat.add_zero] at hfirst
    rw [hlow _ (hrow i hi r hr), hlow _ hfirst]
    exact h.agree ha i hi r hr
  · rw [List.mem_singleton.mp hx]
    exact hz i hi
  · rw [hp.disk lba fun k hk => hd c (List.mem_singleton_self c) k hk, ← hmid]
    exact h.others lba hl (by simp)

theorem claimCluster_effect (hf : g.Fits dev) (hnot : ¬dev.Faulty) (hc : g.Valid c) (hs : Idle g s) :
    wp (claimCluster dev g c) (fun r s' => r = c ∧ Idle g s' ∧ Effect g [c] fat32EocMax [c] s.disk s'.disk)
      (fun _ _ => False) s := by
  unfold claimCluster zeroCluster
  rw [wp_bind, wp_onError]
  refine wp_mono (writeEntry_idle hf hnot hc fat32EocMax hs) (fun _ s₁ h₁ => ?_) fun _ _ h => h.elim
  obtain ⟨hi, hw⟩ := h₁
  rw [wp_bind, wp_onError]
  refine wp_mono (wp_and (writeSectors_wp hf hc _ g.sectorsPerCluster 0 (by omega) s₁) (writeSectors_dirty dev g c _ _ _ s₁))
    (fun _ s₂ h₂ => ?_) fun _ _ h => absurd h.1.2.1 hnot
  obtain ⟨⟨hp, -, hz, -⟩, hd⟩ := h₂
  have hone : Effect g [c] fat32EocMax [] s.disk s₁.disk :=
    Effect.cons hw hc (by simp) (by simp) (Effect.refl g _ _)
  exact ⟨rfl, hp.idle hd hi, hone.fill (by simpa using hc) rfl hp fun i hi => hz i (Nat.zero_le i) hi⟩

structure LowestFree (g : Geometry) (V : Volume) (c : ℕ) : Prop where
  valid : g.Valid c
  free : V.fat c = fat32Free
  lowest : ∀ x, g.Valid x → x < c → V.fat x ≠ fat32Free

theorem allocFrom_effect (hf : g.Fits dev) (hnot : ¬dev.Faulty) (n c : ℕ) (hn : c + n = g.clusterCount + 2)
    (h2 : 2 ≤ c) (s : FatState) (hs : Idle g s)
    (hfirst : ∀ x, g.Valid x → x < c → (vol g s.disk).fat x ≠ fat32Free) :
    wp (allocFrom dev g n c)
      (fun r s' => LowestFree g (vol g s.disk) r ∧ Idle g s' ∧ Effect g [r] fat32EocMax [r] s.disk s'.disk)
      (fun e s' => e = .full ∧ NoneFree g (vol g s.disk) ∧ Idle g s' ∧ s'.disk = s.disk) s := by
  induction n generalizing c s with
  | zero =>
    refine ⟨rfl, fun x hx => hfirst x hx ?_, hs, rfl⟩
    unfold Geometry.Valid at hx
    omega
  | succ n ih =>
    have hv : g.Valid c := ⟨h2, by omega⟩
    unfold allocFrom
    rw [wp_bind]
    refine wp_mono (wp_and (reads_entry hf hv s rfl hs.coherent) (readEntry_keepsIdle hf hnot c s hs))
      (fun value s₁ h₁ => ?_) fun _ _ h₁ => ?_
    · obtain ⟨⟨hvalue, hq, -⟩, hi⟩ := h₁
      obtain rfl := Except.ok.inj hvalue
      split
      · rename_i hfree
        refine wp_mono (claimCluster_effect hf hnot hv hi) (fun r s' h => ?_) fun _ _ h => h.elim
        obtain ⟨rfl, hi', heff⟩ := h
        rw [hq.disk] at heff
        exact ⟨⟨hv, hfree, hfirst⟩, hi', heff⟩
      · rename_i hused
        have hrest := ih (c + 1) (by omega) (by omega) s₁ hi ?_
        · rw [hq.disk] at hrest
          exact hrest
        · intro x hx hlt
          rw [hq.disk]
          rcases Nat.lt_succ_iff_lt_or_eq.mp hlt with hlt | rfl
          · exact hfirst x hx hlt
          · exact hused
    · obtain ⟨⟨-, hbad | hfault⟩, -⟩ := h₁
      · exact absurd hbad.1 (by simp)
      · exact absurd (Or.inl hfault.1) hnot

theorem allocCluster_effect (hf : g.Fits dev) (hnot : ¬dev.Faulty) (hs : Idle g s) :
    wp (allocCluster dev g)
      (fun r s' => LowestFree g (vol g s.disk) r ∧ Idle g s' ∧ Effect g [r] fat32EocMax [r] s.disk s'.disk)
      (fun e s' => e = .full ∧ NoneFree g (vol g s.disk) ∧ Idle g s' ∧ s'.disk = s.disk) s := by
  refine allocFrom_effect hf hnot g.clusterCount 2 (by omega) (Nat.le_refl 2) s hs fun x hx hlt => ?_
  exact absurd hx.1 (Nat.not_le.mpr hlt)

/-! ## Any state of a mounted volume -/

theorem MapOp.run_idle (op : MapOp) (hf : g.Fits dev) (hnot : ¬dev.Faulty) (ha : op.Allowed g) (h : Idle g s) :
    Idle g (op.run dev g s).2 := by
  refine wp_left.mp ?_
  cases op with
  | read c =>
    unfold MapOp.run
    rw [wp_bind]
    exact readEntry_keepsIdle hf hnot c s h
  | write c v =>
    unfold MapOp.run
    rw [wp_bind]
    exact wp_mono (writeEntry_idle hf hnot ((g.validCluster_iff c).mp ha) v h) (fun _ _ hw => hw.1) fun _ _ he => he.elim
  | data start blocks count =>
    obtain ⟨hlow, hhigh⟩ := ha
    unfold MapOp.run
    rw [wp_bind]
    refine write_wp (hf.inRange hhigh) ?_ fun _ _ hd => absurd hd hnot
    refine h.congr rfl rfl rfl fun lba hlt => ?_
    show writeAt s.disk start blocks (fun _ => true) count lba = s.disk lba
    rw [writeAt_apply, if_neg (by omega)]

theorem runMap_idle (hf : g.Fits dev) (hnot : ¬dev.Faulty) (ops : List MapOp) (ha : ∀ op ∈ ops, op.Allowed g)
    (h : Idle g s) : Idle g (runMap dev g ops s).2 := by
  induction ops generalizing s with
  | nil => exact h
  | cons op ops ih =>
    exact ih (fun op' hop => ha op' (by simp [hop])) (op.run_idle hf hnot (ha op (by simp)) h)

/-- What an outcome of `alloc_cluster` means. -/
inductive Allocation (g : Geometry) (s s' : FatState) : Except Error ℕ → Prop where
  | full (none : NoneFree g (vol g s.disk)) (same : s'.disk = s.disk) : Allocation g s s' (.error .full)
  | found (c : ℕ) (lowest : LowestFree g (vol g s.disk) c) (effect : Effect g [c] fat32EocMax [c] s.disk s'.disk) :
      Allocation g s s' (.ok c)

/-- What an outcome of `free_chain` means. -/
inductive Freeing (g : Geometry) (start : ℕ) (s s' : FatState) : Except Error Unit → Prop where
  | freed (l : List ℕ) (chain : Chain g (vol g s.disk) start l) (nodup : l.Nodup)
      (effect : Effect g l fat32Free [] s.disk s'.disk) : Freeing g start s s' (.ok ())
  | refused (broken : ¬∃ l, Chain g (vol g s.disk) start l) (same : s'.disk = s.disk) :
      Freeing g start s s' (.error .badFs)

end Zonix.Fat
