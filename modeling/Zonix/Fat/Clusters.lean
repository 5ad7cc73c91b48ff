import Zonix.Fat.ChainSpec

/-! # Freeing and claiming clusters

`free_chain`, `rollback_new_chain` and `alloc_cluster`, whatever requests fail.  `Touched g F D`
bounds what changed on the volume: FAT entries in `F` and data of clusters in `D`. -/

namespace Zonix.Fat

open Prog Pointer

variable {dev : Device} {g : Geometry} {s s' : FatState} {P F D : ℕ → Prop} {c x start : ℕ} {l : List ℕ}

structure Touched (g : Geometry) (F D : ℕ → Prop) (s s' : FatState) : Prop where
  fat : ∀ x, ¬F x → (vol g s'.disk).fat x = (vol g s.disk).fat x
  data : ∀ x i, g.Valid x → i < g.sectorsPerCluster → ¬D x →
    s'.disk (g.dataLba x i) = s.disk (g.dataLba x i)

theorem Touched.trans {s₁ s₂ s₃ : FatState} (h : Touched g F D s₁ s₂) (h' : Touched g F D s₂ s₃) :
    Touched g F D s₁ s₃ :=
  ⟨fun x hx => (h'.fat x hx).trans (h.fat x hx),
    fun x i hv hi hx => (h'.data x i hv hi hx).trans (h.data x i hv hi hx)⟩

theorem Touched.mono {F' D' : ℕ → Prop} (h : Touched g F D s s') (hF : ∀ x, F x → F' x) (hD : ∀ x, D x → D' x) :
    Touched g F' D' s s' :=
  ⟨fun x hx => h.fat x fun hf => hx (hF x hf), fun x i hv hi hx => h.data x i hv hi fun hd => hx (hD x hd)⟩

theorem Quiet.touched (h : Quiet g s s') : Touched g F D s s' :=
  ⟨fun _ _ => by rw [h.disk], fun _ _ _ _ _ => by rw [h.disk]⟩

theorem vol_fat (disk : ℕ → Sector) (h : g.Valid c) : (vol g disk).fat c = fatWord g disk c % 2 ^ 28 := by
  simp [vol, h]

theorem Kept.touched (h : Kept g P s s') (hF : ∀ x, ¬F x → P x) : Touched g F D s s' := by
  constructor
  · intro x hx
    by_cases hv : g.Valid x
    · rw [vol_fat _ hv, vol_fat _ hv, h.words x hv (hF x hx)]
    · simp [vol, hv]
  · intro x i _ _ _
    exact h.outside _ (g.dataLba_outside x i)

theorem Touched.slot (h : Touched g F D s s') (hx : ¬D x) (k : ℕ) :
    (vol g s'.disk).slot x k = (vol g s.disk).slot x k := by
  unfold vol
  dsimp only
  split
  · rename_i hv
    have hk : k / entriesPerSector < g.sectorsPerCluster := Nat.div_lt_of_lt_mul hv.2
    rw [h.data x _ hv.1 hk hx]
  · rfl

/-! ## Freeing -/

theorem rollbackNewChain_kept (hf : g.Fits dev) (hx : g.Valid x) (hs : Sync g P s) (hp : ¬P x)
    (hv : fat32EocMin ≤ view g s x % 2 ^ 28) : Kept g P s (rollbackNewChain dev g x s).2 := by
  have hcount : 0 < g.clusterCount := by
    unfold Geometry.Valid at hx
    omega
  have hfuel : ∃ n, g.clusterCount + 2 = n + 1 + 1 := ⟨g.clusterCount, rfl⟩
  obtain ⟨n, hn⟩ := hfuel
  have hvalid := (g.validCluster_iff x).mpr hx
  have hx0 : x ≠ 0 := by
    unfold Geometry.Valid at hx
    omega
  apply wp_left.mp
  unfold rollbackNewChain freeChain walkChain
  rw [wp_bind, wp_attempt, wp_bind, hn]
  -- the validating walk meets the cluster and its end mark
  unfold walk
  rw [if_pos rfl, wp_bind]
  unfold ClusterChain.next
  rw [if_neg (by simp [ClusterChain.new]), if_neg (by simp [ClusterChain.new])]
  unfold ClusterChain.enter
  rw [wp_bind, wp_ensure, if_pos ⟨hvalid, hcount⟩, wp_pure]
  simp only [ClusterChain.new, hx0, if_false]
  rw [wp_bind, wp_pure]
  dsimp only
  unfold walk
  rw [if_pos rfl, wp_bind]
  unfold ClusterChain.next
  rw [if_neg (by simp), if_pos rfl, wp_bind]
  refine wp_mono (readEntry_view hf hx) (fun v s₁ h₁ => ?_) fun e s₁ h₁ => h₁.1.kept hs h₁.2.grow
  obtain ⟨rfl, hq₁, hf₁, -, hv₁⟩ := h₁
  have hk₁ := hq₁.kept hs ⟨[], by simp [hf₁]⟩
  rw [if_pos hv, wp_pure]
  simp only [if_true, wp_pure]
  -- the freeing loop
  unfold freeLoop
  rw [if_pos hx.lt_eoc, wp_bind]
  refine wp_mono (readEntry_view hf hx) (fun v s₂ h₂ => ?_) fun e s₂ h₂ => hk₁.trans (h₂.1.kept hk₁.sync h₂.2.grow)
  obtain ⟨rfl, hq₂, hf₂, -, -⟩ := h₂
  have hk₂ := hk₁.trans (hq₂.kept hk₁.sync ⟨[], by simp [hf₂]⟩)
  have hP : ∀ y, P y → P y ∧ y ≠ x := by
    intro y hy
    refine ⟨hy, ?_⟩
    rintro rfl
    exact hp hy
  rw [wp_bind]
  refine wp_mono (writeEntry_wp hf hx fat32Free hk₂.sync) (fun _ s₃ h₃ => ?_) fun e s₃ h₃ => ?_
  · unfold freeLoop
    rw [hv₁, if_neg (Nat.not_lt.mpr hv), wp_pure]
    exact hk₂.trans (h₃.1.mono hP)
  · exact hk₂.trans (h₃.1.mono hP)

theorem freeLoop_wp (hf : g.Fits dev) (fuel : ℕ) (l : List ℕ) (start e : ℕ) (s : FatState)
    (hfuel : l.length < fuel) (hv : ∀ x ∈ l, g.Valid x) (hnd : l.Nodup) (he : fat32EocMin ≤ e)
    (hp : Path (vol g s.disk).fat start l e) (hc : Coherent g s) :
    wp (freeLoop dev g fuel start)
      (fun _ s' => Touched g (· ∈ l) (fun _ => False) s s' ∧ (∀ x ∈ l, (vol g s'.disk).fat x = fat32Free) ∧
        Coherent g s' ∧ s'.faults = s.faults ∧ s'.entryMayExist = s.entryMayExist)
      (fun e s' => Touched g (· ∈ l) (fun _ => False) s s' ∧ Faulted dev.Faulty s e s') s := by
  induction l generalizing fuel start s with
  | nil =>
    obtain ⟨fuel, rfl⟩ : ∃ k, fuel = k + 1 := ⟨fuel - 1, by simp at hfuel; omega⟩
    unfold freeLoop
    have hstart : start = e := hp
    rw [if_neg (by omega), wp_pure]
    exact ⟨(Quiet.refl s).touched, by simp, hc, rfl, rfl⟩
  | cons x l ih =>
    obtain ⟨fuel, rfl⟩ : ∃ k, fuel = k + 1 := ⟨fuel - 1, by simp at hfuel; omega⟩
    obtain ⟨rfl, hp⟩ := hp
    have hx := hv start (by simp)
    obtain ⟨hnotin, hnd⟩ := List.nodup_cons.mp hnd
    unfold freeLoop
    rw [if_pos hx.lt_eoc, wp_bind]
    refine (reads_entry hf hx).wp_ok hc (fun s₁ hq₁ hf₁ => ?_) fun e s₁ hq₁ hfault => ⟨hq₁.touched, hfault.imp Or.inl⟩
    rw [wp_bind]
    refine wp_mono (writeEntry_wp hf hx fat32Free (hq₁.coherent hc)) (fun _ s₂ h₂ => ?_) fun e s₂ h₂ => ?_
    · obtain ⟨hk, hf₂, hsync, hw⟩ := h₂
      have hT : Touched g (· = start) (fun _ => False) s s₂ :=
        hq₁.touched.trans (hk.touched fun y hy => ⟨trivial, hy⟩)
      have hfree : (vol g s₂.disk).fat start = fat32Free := by
        rw [vol_fat _ hx, hw]
        rfl
      have hpath : Path (vol g s₂.disk).fat ((vol g s.disk).fat start) l e :=
        hp.congr fun y hy => hT.fat y fun hys => hnotin (hys ▸ hy)
      have hc₂ : Coherent g s₂ := hsync.mono fun y _ => Or.inl trivial
      refine wp_mono (ih fuel _ s₂ (by simp at hfuel; omega) (fun y hy => hv y (by simp [hy])) hnd hpath hc₂)
        (fun _ s₃ h₃ => ?_) fun e s₃ h₃ => ?_
      · obtain ⟨hT₃, hfree₃, hc₃, hf₃, hm₃⟩ := h₃
        refine ⟨?_, ?_, hc₃, ?_, ?_⟩
        · exact (hT.mono (fun y hy => by simp [hy]) fun _ h => h).trans
            (hT₃.mono (fun y hy => by simp [hy]) fun _ h => h)
        · intro y hy
          rcases List.mem_cons.mp hy with rfl | hy
          · rw [hT₃.fat y hnotin, hfree]
          · exact hfree₃ y hy
        · rw [hf₃, hf₂, hf₁]
        · rw [hm₃, hk.mayExist, hq₁.mayExist]
      · refine ⟨(hT.mono (fun y hy => by simp [hy]) fun _ h => h).trans
            (h₃.1.mono (fun y hy => by simp [hy]) fun _ h => h), h₃.2.after (by rw [hf₂, hf₁])⟩
    · refine ⟨hq₁.touched.trans (h₂.1.touched fun y hy => ⟨trivial, ?_⟩), h₂.2.1.after hf₁⟩
      rintro rfl
      exact hy (by simp)

theorem freeChain_wp (hf : g.Fits dev) (hl : Chain g (vol g s.disk) start l) (hc : Coherent g s) :
    wp (freeChain dev g start)
      (fun _ s' => Touched g (· ∈ l) (fun _ => False) s s' ∧ (∀ x ∈ l, (vol g s'.disk).fat x = fat32Free) ∧
        Coherent g s' ∧ s'.faults = s.faults ∧ s'.entryMayExist = s.entryMayExist)
      (fun e s' => Touched g (· ∈ l) (fun _ => False) s s' ∧ Faulted dev.Faulty s e s') s := by
  unfold freeChain
  rw [wp_bind]
  refine walkChain_wp hf (I := fun _ _ s₁ => Quiet g s s₁ ∧ s₁.faults = s.faults) (l := l) ?_ () ⟨Quiet.refl s, rfl⟩
  constructor
  · intro done acc s₁ h₁
    exact ⟨h₁.1.coherent hc, h₁.1.disk ▸ hl⟩
  · intro done acc s₁ s₂ h₁ hq hfl
    exact ⟨h₁.1.trans hq, hfl.trans h₁.2⟩
  · intro done acc s₁ e s₂ h₁ hq hfault
    exact ⟨(h₁.1.trans hq).touched, (hfault.after h₁.2).imp Or.inl⟩
  · intro done x rest acc s₁ _ _ h₁
    exact h₁
  · intro done rest acc s₁ _ _ h₁
    obtain ⟨e, he, hp⟩ := hl.path
    have hlen := valid_length hl.valid hl.nodup
    refine wp_mono (freeLoop_wp hf _ l start e s₁ (by omega) hl.valid hl.nodup he (h₁.1.disk ▸ hp) (h₁.1.coherent hc))
      (fun _ s₂ h₂ => ?_) fun e s₂ h₂ => ⟨h₁.1.touched.trans h₂.1, h₂.2.after h₁.2⟩
    obtain ⟨hT, hfree, hc₂, hf₂, hm₂⟩ := h₂
    exact ⟨h₁.1.touched.trans hT, hfree, hc₂, hf₂.trans h₁.2, hm₂.trans h₁.1.mayExist⟩

/-! ## Data of a cluster -/

structure Poured (g : Geometry) (c : ℕ) (s s' : FatState) : Prop where
  disk : ∀ lba, (∀ k, k < g.sectorsPerCluster → lba ≠ g.dataLba c k) → s'.disk lba = s.disk lba
  buffer : s'.buffer = s.buffer
  bufferSector : s'.bufferSector = s.bufferSector
  mayExist : s'.entryMayExist = s.entryMayExist

theorem Poured.trans {s₁ s₂ s₃ : FatState} (h : Poured g c s₁ s₂) (h' : Poured g c s₂ s₃) : Poured g c s₁ s₃ :=
  ⟨fun lba hl => (h'.disk lba hl).trans (h.disk lba hl), h'.buffer.trans h.buffer,
    h'.bufferSector.trans h.bufferSector, h'.mayExist.trans h.mayExist⟩

theorem Poured.word (h : Poured g c s s') (hx : g.Valid x) : fatWord g s'.disk x = fatWord g s.disk x := by
  unfold fatWord
  rw [h.disk]
  intro k _ he
  have hin := inFat_not_other (g.fatSector_inFat hx)
  have hsec : g.fatSectors ≤ g.fatCount * g.fatSectors := Nat.le_mul_of_pos_left _ g.fatCount_pos
  have hdata := g.layout.1
  have hfat := g.fatSector_inFat hx
  unfold Geometry.InFat at hfat
  unfold Geometry.dataLba at he
  omega

theorem Poured.view (h : Poured g c s s') (hx : g.Valid x) : view g s' x = view g s x := by
  unfold Fat.view
  rw [h.buffer, h.bufferSector, h.word hx]

theorem Poured.sync (h : Poured g c s s') (hs : Sync g P s) : Sync g P s' := by
  refine ⟨h.bufferSector ▸ hs.sector, fun x hx hp => ?_⟩
  rw [h.view hx, h.word hx]
  exact hs.words x hx hp

theorem Poured.touched (h : Poured g c s s') (hv : g.Valid c) : Touched g F (· = c) s s' := by
  constructor
  · intro x _
    by_cases hx : g.Valid x
    · rw [vol_fat _ hx, vol_fat _ hx, h.word hx]
    · simp [vol, hx]
  · intro x i hx hi hne
    refine h.disk _ fun k hk he => hne ?_
    exact (g.dataLba_inj hx hv hi hk he).1

theorem poured_putSector {i : ℕ} (hi : i < g.sectorsPerCluster) (data : Sector) (reached : Bool)
    (hd : s'.disk = putSector s.disk (g.dataLba c i) data reached) (hb : s'.buffer = s.buffer)
    (hbs : s'.bufferSector = s.bufferSector) (hm : s'.entryMayExist = s.entryMayExist) : Poured g c s s' := by
  refine ⟨fun lba hl => ?_, hb, hbs, hm⟩
  rw [hd, putSector, if_neg]
  rintro ⟨-, rfl⟩
  exact hl i hi rfl

theorem Geometry.dataLba_inRange (hf : g.Fits dev) (hv : g.Valid c) {i : ℕ} (hi : i < g.sectorsPerCluster) :
    dev.inRange (g.dataLba c i) 1 := by
  have hlt := g.dataLba_lt hv hi
  exact hf.inRange (by omega)

theorem writeData_wp (hf : g.Fits dev) (hv : g.Valid c) {i : ℕ} (hi : i < g.sectorsPerCluster) (data : Sector) :
    wp (dev.writeSector (g.clusterLba c i) data)
      (fun _ s' => Poured g c s s' ∧ s'.disk = putSector s.disk (g.dataLba c i) data true ∧ s'.faults = s.faults)
      (fun e s' => Poured g c s s' ∧ (∃ reached, s'.disk = putSector s.disk (g.dataLba c i) data reached) ∧
        Faulted dev.Faulty s e s') s := by
  rw [g.clusterLba_eq hv hi]
  refine writeSector_wp (Geometry.dataLba_inRange hf hv hi) ?_ fun d reached hd => ?_
  · exact ⟨poured_putSector hi data true rfl rfl rfl rfl, rfl, rfl⟩
  · exact ⟨poured_putSector hi data reached rfl rfl rfl rfl, ⟨reached, rfl⟩, hd, d, [], rfl, rfl⟩

theorem writeSectors_wp (hf : g.Fits dev) (hv : g.Valid c) (data : ℕ → Sector) (n i : ℕ)
    (hi : i + n = g.sectorsPerCluster) (s : FatState) :
    wp (writeSectors dev g c data n i)
      (fun _ s' => Poured g c s s' ∧ s'.faults = s.faults ∧
        (∀ k, i ≤ k → k < g.sectorsPerCluster → s'.disk (g.dataLba c k) = data k) ∧
        ∀ k, k < i → s'.disk (g.dataLba c k) = s.disk (g.dataLba c k))
      (fun e s' => Poured g c s s' ∧ Faulted dev.Faulty s e s') s := by
  induction n generalizing i s with
  | zero => exact ⟨⟨fun _ _ => rfl, rfl, rfl, rfl⟩, rfl, fun k hk hk' => by omega, fun _ _ => rfl⟩
  | succ n ih =>
    unfold writeSectors
    rw [wp_bind]
    refine wp_mono (writeData_wp hf hv (by omega) (data i)) (fun _ s₁ h₁ => ?_) fun e s₁ h₁ => ⟨h₁.1, h₁.2.2⟩
    obtain ⟨hp₁, hd₁, hf₁⟩ := h₁
    refine wp_mono (ih (i + 1) (by omega) s₁) (fun _ s₂ h₂ => ?_) fun e s₂ h₂ => ⟨hp₁.trans h₂.1, h₂.2.after hf₁⟩
    obtain ⟨hp₂, hf₂, hnew, hold⟩ := h₂
    refine ⟨hp₁.trans hp₂, hf₂.trans hf₁, fun k hk hk' => ?_, fun k hk => ?_⟩
    · by_cases hki : k = i
      · rw [hold k (by omega), hd₁, hki]
        simp [putSector]
      · exact hnew k (by omega) hk'
    · rw [hold k (by omega), hd₁, putSector, if_neg]
      rintro ⟨-, he⟩
      unfold Geometry.dataLba at he
      omega

/-! ## Claiming -/

structure Claimed (g : Geometry) (c : ℕ) (s s' : FatState) : Prop where
  valid : g.Valid c
  free : (vol g s.disk).fat c = fat32Free
  first : ∀ x, g.Valid x → x < c → (vol g s.disk).fat x ≠ fat32Free
  touched : Touched g (· = c) (· = c) s s'
  eoc : (vol g s'.disk).fat c = fat32EocMax
  zero : ∀ i, i < g.sectorsPerCluster → s'.disk (g.dataLba c i) = Block.zero
  coherent : Coherent g s'
  faults : s'.faults = s.faults
  mayExist : s'.entryMayExist = s.entryMayExist

structure Abandoned (g : Geometry) (s s' : FatState) : Prop where
  touched : Touched g (fun x => (vol g s.disk).fat x = fat32Free) (fun x => (vol g s.disk).fat x = fat32Free) s s'
  sync : Sync g (fun x => (vol g s.disk).fat x ≠ fat32Free) s'
  mayExist : s'.entryMayExist = s.entryMayExist

theorem Quiet.abandoned (h : Quiet g s s') (hc : Coherent g s) : Abandoned g s s' :=
  ⟨h.touched, (h.coherent hc).mono fun _ _ => trivial, h.mayExist⟩

theorem claimCluster_wp (hf : g.Fits dev) (hv : g.Valid c) (hc : Coherent g s)
    (hfree : (vol g s.disk).fat c = fat32Free) (hfirst : ∀ x, g.Valid x → x < c → (vol g s.disk).fat x ≠ fat32Free)
    (hb : s.bufferSector = g.fatSector c) :
    wp (claimCluster dev g c) (fun r s' => r = c ∧ Claimed g c s s')
      (fun e s' => Abandoned g s s' ∧ Faulted dev.Faulty s e s') s := by
  have hmono : ∀ {s₁ : FatState}, Touched g (· = c) (· = c) s s₁ →
      Touched g (fun x => (vol g s.disk).fat x = fat32Free) (fun x => (vol g s.disk).fat x = fat32Free) s s₁ :=
    fun h => h.mono (fun _ hx => hx ▸ hfree) fun _ hx => hx ▸ hfree
  have hsync : ∀ {s₁ : FatState}, Sync g (fun x => x ≠ c) s₁ →
      Sync g (fun x => (vol g s.disk).fat x ≠ fat32Free) s₁ := by
    intro s₁ h
    refine h.mono fun x hx => ?_
    rintro rfl
    exact hx hfree
  have heoc : fat32EocMin ≤ fat32EocMax % 2 ^ 28 := by decide
  unfold claimCluster
  rw [wp_bind, wp_onError]
  refine wp_mono (writeEntry_wp hf hv fat32EocMax hc) (fun _ s₁ h₁ => ?_) fun e s₁ h₁ => ?_
  · obtain ⟨hk₁, hf₁, hs₁, hw₁⟩ := h₁
    have hc₁ : Coherent g s₁ := hs₁.mono fun _ _ => Or.inl trivial
    have hT₁ : Touched g (· = c) (· = c) s s₁ := hk₁.touched fun x hx => ⟨trivial, hx⟩
    have hview : ∀ {s₂ : FatState}, Poured g c s₁ s₂ → view g s₂ c % 2 ^ 28 = fat32EocMax % 2 ^ 28 := by
      intro s₂ h₂
      rw [h₂.view hv, hc₁.words c hv trivial, hw₁]
    rw [wp_bind, wp_onError]
    refine wp_mono (writeSectors_wp hf hv _ _ 0 (by omega) s₁) (fun _ s₂ h₂ => ?_) fun e s₂ h₂ => ?_
    · obtain ⟨hp₂, hf₂, hz, -⟩ := h₂
      refine ⟨rfl, hv, hfree, hfirst, hT₁.trans (hp₂.touched hv), ?_, fun i hi => hz i (by omega) hi, hp₂.sync hc₁,
        hf₂.trans hf₁, hp₂.mayExist.trans hk₁.mayExist⟩
      rw [vol_fat _ hv, hp₂.word hv, hw₁]
      rfl
    · obtain ⟨hp₂, hfault⟩ := h₂
      have hk₃ := rollbackNewChain_kept hf hv
        ((hp₂.sync hc₁).mono fun _ _ => trivial : Sync g (fun x => x ≠ c) s₂) (by simp) (by rw [hview hp₂]; exact heoc)
      refine ⟨⟨hmono ((hT₁.trans (hp₂.touched hv)).trans (hk₃.touched fun x hx => hx)), hsync hk₃.sync,
        ?_⟩, ?_⟩
      · rw [hk₃.mayExist, hp₂.mayExist, hk₁.mayExist]
      · exact (hfault.grow_right hk₃.faults).after hf₁
  · obtain ⟨hk₁, hfault, -, hview⟩ := h₁
    have hshow : view g s₁ c % 2 ^ 28 = fat32EocMax % 2 ^ 28 := by
      rcases hview with ⟨-, hne⟩ | ⟨-, hview⟩
      · exact absurd hb hne
      · exact hview
    have hk₂ := rollbackNewChain_kept hf hv
      (hk₁.sync.mono fun _ hx => ⟨trivial, hx⟩ : Sync g (fun x => x ≠ c) s₁) (by simp) (by rw [hshow]; exact heoc)
    refine ⟨⟨hmono ((hk₁.touched fun x hx => ⟨trivial, hx⟩).trans
      (hk₂.touched fun x hx => hx)), hsync hk₂.sync, ?_⟩, hfault.grow_right hk₂.faults⟩
    rw [hk₂.mayExist, hk₁.mayExist]

def NoneFree (g : Geometry) (V : Volume) : Prop := ∀ x, g.Valid x → V.fat x ≠ fat32Free

theorem allocFrom_wp (hf : g.Fits dev) (n c : ℕ) (hn : c + n = g.clusterCount + 2) (h2 : 2 ≤ c) (s : FatState)
    (hc : Coherent g s) (hfirst : ∀ x, g.Valid x → x < c → (vol g s.disk).fat x ≠ fat32Free) :
    wp (allocFrom dev g n c) (fun r s' => Claimed g r s s')
      (fun e s' => Abandoned g s s' ∧
        (Faulted dev.Faulty s e s' ∨ (e = .full ∧ NoneFree g (vol g s.disk) ∧ Quiet g s s' ∧ s'.faults = s.faults))) s := by
  induction n generalizing c s with
  | zero =>
    unfold allocFrom
    rw [wp_fail]
    refine ⟨(Quiet.refl s).abandoned hc, Or.inr ⟨rfl, fun x hx => hfirst x hx ?_, Quiet.refl s, rfl⟩⟩
    unfold Geometry.Valid at hx
    omega
  | succ n ih =>
    have hv : g.Valid c := ⟨h2, by omega⟩
    unfold allocFrom
    rw [wp_bind]
    refine wp_mono (readEntry_view hf hv) (fun v s₁ h₁ => ?_) fun e s₁ h₁ =>
      ⟨h₁.1.abandoned hc, Or.inl (h₁.2.imp Or.inl)⟩
    obtain ⟨rfl, hq, hf₁, hb, -⟩ := h₁
    rw [hc.words c hv trivial, ← vol_fat _ hv]
    split
    · rename_i hfree
      have hdisk := hq.disk
      refine wp_mono (claimCluster_wp hf hv (hq.coherent hc) (by rw [hdisk]; exact hfree) (by rw [hdisk]; exact hfirst) hb)
        (fun r s₂ h₂ => ?_) fun e s₂ h₂ => ?_
      · obtain ⟨rfl, h₂⟩ := h₂
        exact ⟨hv, hfree, hfirst, hq.touched.trans h₂.touched, h₂.eoc, h₂.zero, h₂.coherent, h₂.faults.trans hf₁,
          h₂.mayExist.trans hq.mayExist⟩
      · obtain ⟨⟨hT, hs, hm⟩, hfault⟩ := h₂
        rw [hdisk] at hT hs
        exact ⟨⟨hq.touched.trans hT, hs, hm.trans hq.mayExist⟩, Or.inl (hfault.after hf₁)⟩
    · rename_i hused
      have hdisk := hq.disk
      refine wp_mono (ih (c + 1) (by omega) (by omega) s₁ (hq.coherent hc) ?_) (fun r s₂ h₂ => ?_) fun e s₂ h₂ => ?_
      · intro x hx hlt
        rw [hdisk]
        by_cases hxc : x = c
        · rw [hxc]
          exact hused
        · exact hfirst x hx (by omega)
      · exact ⟨h₂.valid, hdisk ▸ h₂.free, hdisk ▸ h₂.first, hq.touched.trans h₂.touched, h₂.eoc, h₂.zero, h₂.coherent,
          h₂.faults.trans hf₁, h₂.mayExist.trans hq.mayExist⟩
      · obtain ⟨⟨hT, hs, hm⟩, hend⟩ := h₂
        rw [hdisk] at hT hs hend
        refine ⟨⟨hq.touched.trans hT, hs, hm.trans hq.mayExist⟩, ?_⟩
        rcases hend with hfault | ⟨he, hnone, hq₂, hf₂⟩
        · exact Or.inl (hfault.after hf₁)
        · exact Or.inr ⟨he, hnone, hq.trans hq₂, hf₂.trans hf₁⟩

theorem allocCluster_wp (hf : g.Fits dev) (hc : Coherent g s) :
    wp (allocCluster dev g) (fun r s' => Claimed g r s s')
      (fun e s' => Abandoned g s s' ∧
        (Faulted dev.Faulty s e s' ∨ (e = .full ∧ NoneFree g (vol g s.disk) ∧ Quiet g s s' ∧ s'.faults = s.faults))) s := by
  refine allocFrom_wp hf _ 2 (by omega) (by omega) s hc ?_
  intro x hx hlt
  unfold Geometry.Valid at hx
  omega

end Zonix.Fat
