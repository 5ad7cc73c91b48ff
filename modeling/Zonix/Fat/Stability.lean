import Zonix.Fat.CacheMap

/-! # FAT reads under write failures

A `write_entry` that fails leaves a dirty buffer which need not be on the disk.  `write_entry` and
`unmount` flush such a buffer before they give it up; `read_entry` reads the next sector over it.
What a reader sees of an entry is then the old value on the disk again. -/

namespace Zonix.Fat

open Prog

variable {dev : Device} {g : Geometry} {s s' : FatState} {c x v sector : ℕ}

structure Tracked (g : Geometry) (s : FatState) : Prop where
  sector : s.bufferSector = fatInvalidSector ∨ g.InFat s.bufferSector
  clean : s.bufferDirty = false → ∀ c, g.Valid c → view g s c = fatWord g s.disk c

def SameView (g : Geometry) (s s' : FatState) : Prop := ∀ c, g.Valid c → view g s' c = view g s c

/-- The call takes away no entry that only the buffer holds: a `read_entry` that has to load a sector
finds a buffer in accord with the disk. -/
def MapOp.Safe (g : Geometry) (s : FatState) : MapOp → Prop
  | .read c => g.validCluster c → s.bufferSector ≠ g.fatSector c →
      ∀ x, g.Valid x → view g s x % 2 ^ 28 = fatWord g s.disk x % 2 ^ 28
  | _ => True

/-- Data writes stay in the data area; the FAT accesses may name any cluster. -/
def MapOp.Apart (g : Geometry) : MapOp → Prop
  | .data start blocks count => (MapOp.data start blocks count).Allowed g
  | _ => True

/-- Every call of a run is safe where it is made. -/
def SafeRun (dev : Device) (g : Geometry) (ops : List MapOp) (s : FatState) : Prop :=
  ∀ (k : ℕ) (op : MapOp), ops[k]? = some op → op.Safe g (runMap dev g (ops.take k) s).2

/-- Two successful reads of an entry agree when no call writes it between them. -/
def Stable (ops : List MapOp) (rs : List (Except Error (Option ℕ))) : Prop :=
  ∀ i j c v w : ℕ, i < j → ops[i]? = some (.read c) → rs[i]? = some (.ok (some v)) → ops[j]? = some (.read c) →
    rs[j]? = some (.ok (some w)) → (∀ k x : ℕ, i < k → k < j → ops[k]? ≠ some (.write c x)) → v = w

/-! ## Writing back -/

theorem writeSector_dirty (dev : Device) (lba : ℕ) (data : Sector) (s : FatState) :
    (dev.writeSector lba data s).2.bufferDirty = s.bufferDirty := by
  unfold Device.writeSector Device.write
  split
  · split <;> rfl
  · rfl

theorem writeCopies_dirty (dev : Device) (g : Geometry) (sector : ℕ) (data : Sector) (n i : ℕ) (s : FatState) :
    wp (writeCopies dev g sector data n i) (fun _ s' => s'.bufferDirty = s.bufferDirty)
      (fun _ s' => s'.bufferDirty = s.bufferDirty) s := by
  induction n generalizing i s with
  | zero => exact rfl
  | succ n ih =>
    have hone := wp_left (P := fun s' : FatState => s'.bufferDirty = s.bufferDirty).mpr
      (writeSector_dirty dev (g.copyLba sector i) data s)
    unfold writeCopies
    rw [wp_bind]
    refine wp_mono hone (fun _ s₁ h₁ => ?_) fun _ _ h => h
    exact wp_mono (ih (i + 1) s₁) (fun _ _ h => h.trans h₁) fun _ _ h => h.trans h₁

theorem Stored.sameView {reached : Bool} (h : Stored g s.bufferSector s.buffer reached s s') : SameView g s s' := by
  intro c hc
  unfold view
  rw [h.buffer, h.bufferSector]
  split
  · rfl
  · rename_i hne
    rw [h.word hc, if_neg fun he => hne he.2.symm]

theorem Stored.coherent (h : Stored g s.bufferSector s.buffer true s s') (hc : g.Valid c) :
    view g s' c = fatWord g s'.disk c := by
  unfold view
  rw [h.buffer, h.bufferSector]
  split
  · rename_i he
    rw [h.word hc, if_pos ⟨rfl, he.symm⟩]
  · rfl

theorem Loaded.view (hs : g.InFat sector) (h : Loaded g sector s s') (hc : g.Valid c) :
    view g s' c = fatWord g s.disk c := by
  have hsync : Sync g (fun _ => True) s' := sync_loaded hs h.bufferSector (h.disk ▸ h.buffer)
  rw [hsync.words c hc trivial, h.disk]

theorem Loaded.tracked (hs : g.InFat sector) (h : Loaded g sector s s') : Tracked g s' :=
  ⟨Or.inr (h.bufferSector ▸ hs), fun _ c hc => by rw [h.view hs hc, h.disk]⟩

theorem flushBuffer_view (hf : g.Fits dev) (h : Tracked g s) :
    wp (flushBuffer dev g)
      (fun _ s' => SameView g s s' ∧ ∀ c, g.Valid c → view g s' c = fatWord g s'.disk c)
      (fun _ s' => SameView g s s' ∧ Tracked g s') s := by
  unfold flushBuffer
  rw [wp_bind, wp_state]
  split
  · rename_i hd
    have hin : g.InFat s.bufferSector := h.sector.resolve_left hd.2
    rw [wp_bind]
    refine wp_mono (wp_and (writeCopies_wp hf hin s.buffer s) (writeCopies_dirty dev g s.bufferSector s.buffer
      g.fatCount 0 s)) (fun _ s' hw => ?_) fun e s' hw => ?_
    · rw [wp_update]
      exact ⟨hw.1.1.sameView, fun c hc => hw.1.1.coherent hc⟩
    · obtain ⟨⟨⟨reached, hst⟩, -⟩, hdirty⟩ := hw
      refine ⟨hst.sameView, hst.bufferSector ▸ h.sector, fun hclean => ?_⟩
      rw [hdirty, hd.1] at hclean
      simp at hclean
  · rename_i hd
    refine ⟨fun _ _ => rfl, fun c hc => ?_⟩
    by_cases hinv : s.bufferSector = fatInvalidSector
    · exact (coherent_of_invalid hinv).words c hc trivial
    · exact h.clean (by simpa [hinv] using hd) c hc

section

variable (hf : g.Fits dev) (hnot : ¬dev.ReadFaulty)
include hf hnot

theorem switchSector_view (hs : g.InFat sector) (h : Tracked g s) :
    wp (switchSector dev g sector) (fun _ s' => SameView g s s' ∧ s'.bufferSector = sector)
      (fun _ s' => SameView g s s' ∧ Tracked g s') s := by
  unfold switchSector
  rw [wp_bind, wp_state]
  split
  · rw [wp_bind]
    refine wp_mono (flushBuffer_view hf h) (fun _ s₁ h₁ => ?_) fun _ _ he => he
    refine wp_mono (loadSector_wp hf hs) (fun _ s' hl => ⟨fun c hc => ?_, hl.bufferSector⟩) fun _ _ he => ?_
    · rw [hl.view hs hc, ← h₁.2 c hc, h₁.1 c hc]
    · exact absurd he.2.1 hnot
  · rename_i he
    exact ⟨fun _ _ => rfl, (not_not.mp he).symm⟩

theorem writeEntry_view (c v : ℕ) (h : Tracked g s) :
    wp (writeEntry dev g c v) (fun _ s' => Tracked g s' ∧ ∀ x, g.Valid x → x ≠ c → view g s' x = view g s x)
      (fun _ s' => Tracked g s' ∧ ∀ x, g.Valid x → x ≠ c → view g s' x = view g s x) s := by
  unfold writeEntry
  rw [wp_bind, wp_ensure]
  split
  · rename_i hvalid
    have hc := (g.validCluster_iff c).mp hvalid
    have hin := g.fatSector_inFat hc
    rw [wp_bind]
    refine wp_mono (switchSector_view hf hnot hin h) (fun _ s₁ h₁ => ?_) fun _ s₁ h₁ => ⟨h₁.2, fun x hx _ => h₁.1 x hx⟩
    obtain ⟨hview, hb⟩ := h₁
    rw [wp_bind, wp_update, wp_bind, wp_state, wp_bind]
    have hput : ∀ x, g.Valid x → x ≠ c → view g (s₁.putEntry (entOffset c) v) x = view g s x := by
      intro x hx hne
      rw [(view_putEntry hc hb v hx).1 hne, hview x hx]
    have hsec : (s₁.putEntry (entOffset c) v).bufferSector = g.fatSector c := hb
    refine wp_mono (wp_and (writeCopies_wp hf hin _ _) (writeCopies_dirty dev g _ _ _ _ _)) (fun _ s' hw => ?_)
      fun _ s' hw => ?_
    · have hst := hw.1.1
      rw [← hsec] at hst
      rw [wp_update]
      refine ⟨⟨Or.inr ?_, fun _ x hx => hst.coherent hx⟩, fun x hx hne => (hst.sameView x hx).trans (hput x hx hne)⟩
      exact (hst.bufferSector.trans hsec) ▸ hin
    · obtain ⟨⟨⟨reached, hst⟩, -⟩, hdirty⟩ := hw
      rw [← hsec] at hst
      refine ⟨⟨Or.inr ((hst.bufferSector.trans hsec) ▸ hin), fun hclean => ?_⟩,
        fun x hx hne => (hst.sameView x hx).trans (hput x hx hne)⟩
      rw [hdirty] at hclean
      exact Bool.noConfusion hclean
  · exact ⟨h, fun _ _ _ => rfl⟩

/-! ## Calls -/

theorem readEntry_loads (hc : g.Valid c) :
    wp (readEntry dev g c) (fun v s' => v = view g s c % 2 ^ 28 ∧
      ((s.bufferSector = g.fatSector c ∧ s' = s) ∨
        (s.bufferSector ≠ g.fatSector c ∧ Loaded g (g.fatSector c) s s'))) (fun _ _ => False) s := by
  have hin := g.fatSector_inFat hc
  have hloads : wp (readEntry dev g c) (fun _ s' => (s.bufferSector = g.fatSector c ∧ s' = s) ∨
      (s.bufferSector ≠ g.fatSector c ∧ Loaded g (g.fatSector c) s s')) (fun _ _ => True) s := by
    unfold readEntry
    rw [wp_bind, wp_ensure, if_pos ((g.validCluster_iff c).mpr hc), wp_bind]
    refine wp_mono (fetchSector_wp hf hin) (fun _ s' h => ?_) fun _ _ _ => trivial
    rw [wp_bind, wp_state, wp_pure]
    exact h
  exact wp_mono (wp_and (readEntry_view hf hc) hloads) (fun _ _ h => ⟨h.1.1, h.2⟩) fun _ _ h => hnot h.1.2.1

theorem MapOp.run_read (hc : g.Valid c) (s : FatState) :
    ∃ s', (MapOp.read c).run dev g s = (.ok (some (view g s c % 2 ^ 28)), s') ∧
      ((s.bufferSector = g.fatSector c ∧ s' = s) ∨
        (s.bufferSector ≠ g.fatSector c ∧ Loaded g (g.fatSector c) s s')) := by
  have hwp : wp ((MapOp.read c).run dev g) (fun r s' => r = some (view g s c % 2 ^ 28) ∧
      ((s.bufferSector = g.fatSector c ∧ s' = s) ∨
        (s.bufferSector ≠ g.fatSector c ∧ Loaded g (g.fatSector c) s s'))) (fun _ _ => False) s := by
    unfold MapOp.run
    rw [wp_bind]
    exact wp_mono (readEntry_loads hf hnot hc) (fun v s' h => ⟨by rw [h.1], h.2⟩) fun _ _ h => h
  unfold wp at hwp
  split at hwp
  · rename_i r s' hr
    exact ⟨s', by rw [hr, hwp.1], hwp.2⟩
  · exact hwp.elim

end

theorem MapOp.run_read_invalid (hc : ¬g.Valid c) (s : FatState) :
    (MapOp.read c).run dev g s = (.error .badFs, s) := by
  have hwp : wp ((MapOp.read c).run dev g) (fun _ _ => False) (fun e s' => e = .badFs ∧ s' = s) s := by
    unfold MapOp.run readEntry
    rw [wp_bind, wp_bind, wp_ensure, if_neg fun h => hc ((g.validCluster_iff c).mp h)]
    exact ⟨rfl, rfl⟩
  unfold wp at hwp
  split at hwp
  · exact hwp.elim
  · rename_i e s' hr
    rw [hr, hwp.1, hwp.2]

theorem MapOp.run_tracked (op : MapOp) (hf : g.Fits dev) (hnot : ¬dev.ReadFaulty) (ha : op.Apart g)
    (h : Tracked g s) : Tracked g (op.run dev g s).2 ∧ (op.Safe g s → ∀ x, g.Valid x → (∀ v, op ≠ .write x v) →
      view g (op.run dev g s).2 x % 2 ^ 28 = view g s x % 2 ^ 28) := by
  cases op with
  | read c =>
    by_cases hc : g.Valid c
    · obtain ⟨s', hr, ⟨-, rfl⟩ | ⟨hmiss, hl⟩⟩ := MapOp.run_read hf hnot hc s
      · rw [hr]
        exact ⟨h, fun _ _ _ _ => rfl⟩
      · have hin := g.fatSector_inFat hc
        rw [hr]
        refine ⟨hl.tracked hin, fun hsafe x hx _ => ?_⟩
        rw [hl.view hin hx, hsafe ((g.validCluster_iff c).mpr hc) hmiss x hx]
    · rw [MapOp.run_read_invalid hc s]
      exact ⟨h, fun _ _ _ _ => rfl⟩
  | write c v =>
    have hwp : wp ((MapOp.write c v).run dev g)
        (fun _ s' => Tracked g s' ∧ ∀ x, g.Valid x → x ≠ c → view g s' x = view g s x)
        (fun _ s' => Tracked g s' ∧ ∀ x, g.Valid x → x ≠ c → view g s' x = view g s x) s := by
      unfold MapOp.run
      rw [wp_bind]
      exact wp_mono (writeEntry_view hf hnot c v h) (fun _ _ h => h) fun _ _ h => h
    obtain ⟨ht, hview⟩ := wp_left.mp hwp
    exact ⟨ht, fun _ x hx hne => by rw [hview x hx fun he => hne v (he ▸ rfl)]⟩
  | data start blocks count =>
    obtain ⟨hlow, hhigh⟩ := ha
    have hkeep : ∀ mask, ∀ lba < g.partitionStart + g.dataStart,
        writeAt s.disk start blocks mask count lba = s.disk lba := by
      intro mask lba hl
      rw [writeAt_apply, if_neg (by omega)]
    have hsame : ∀ s' : FatState, s'.buffer = s.buffer → s'.bufferSector = s.bufferSector →
        s'.bufferDirty = s.bufferDirty → (∀ lba < g.partitionStart + g.dataStart, s'.disk lba = s.disk lba) →
        Tracked g s' ∧ ∀ x, g.Valid x → view g s' x = view g s x := by
      intro s' hb hbs hbd hd
      have hview : ∀ x, g.Valid x → view g s' x = view g s x := by
        intro x hx
        unfold view
        rw [hb, hbs, fatWord_data hx hd]
      exact ⟨⟨hbs ▸ h.sector, fun hclean x hx => by
        rw [hview x hx, fatWord_data hx hd, h.clean (hbd ▸ hclean) x hx]⟩, hview⟩
    have hwp : wp ((MapOp.data start blocks count).run dev g)
        (fun _ s' => Tracked g s' ∧ ∀ x, g.Valid x → view g s' x = view g s x)
        (fun _ s' => Tracked g s' ∧ ∀ x, g.Valid x → view g s' x = view g s x) s := by
      unfold MapOp.run
      rw [wp_bind]
      exact write_wp (hf.inRange hhigh) (hsame _ rfl rfl rfl (hkeep fun _ => true)) fun _ mask _ => hsame _ rfl rfl rfl (hkeep mask)
    obtain ⟨ht, hview⟩ := wp_left.mp hwp
    exact ⟨ht, fun _ x hx _ => by rw [hview x hx]⟩

/-! ## Runs -/

variable {ops : List MapOp}

theorem runMap_reply (dev : Device) (g : Geometry) (ops : List MapOp) (s : FatState) (k : ℕ) (op : MapOp)
    (h : ops[k]? = some op) :
    (runMap dev g ops s).1[k]? = some (op.run dev g (runMap dev g (ops.take k) s).2).1 ∧
      (runMap dev g (ops.take (k + 1)) s).2 = (op.run dev g (runMap dev g (ops.take k) s).2).2 := by
  constructor
  · induction ops generalizing s k with
    | nil => simp at h
    | cons op' ops ih =>
      cases k with
      | zero =>
        obtain rfl : op' = op := by simpa using h
        rfl
      | succ k => exact ih _ k (by simpa using h)
  · rw [List.take_add_one, h, Option.toList_some, runMap_snoc]

theorem runMap_tracked (hf : g.Fits dev) (hnot : ¬dev.ReadFaulty) (ops : List MapOp) (ha : ∀ op ∈ ops, op.Apart g)
    (h : Tracked g s) : Tracked g (runMap dev g ops s).2 := by
  induction ops generalizing s with
  | nil => exact h
  | cons op ops ih =>
    exact ih (fun op' hop => ha op' (by simp [hop])) (op.run_tracked hf hnot (ha op (by simp)) h).1

section

variable (hf : g.Fits dev) (hnot : ¬dev.ReadFaulty) (ha : ∀ op ∈ ops, op.Apart g) (h : Tracked g s) (hsafe : SafeRun dev g ops s)
include hf hnot ha h hsafe

theorem runMap_view (hc : g.Valid c) {i : ℕ} (n : ℕ)
    (hn : i + n ≤ ops.length) (hno : ∀ k x : ℕ, i ≤ k → k < i + n → ops[k]? ≠ some (.write c x)) :
    view g (runMap dev g (ops.take (i + n)) s).2 c % 2 ^ 28 = view g (runMap dev g (ops.take i) s).2 c % 2 ^ 28 := by
  induction n with
  | zero => rfl
  | succ n ih =>
    have hlt : i + n < ops.length := by omega
    have hget : ops[i + n]? = some ops[i + n] := List.getElem?_eq_getElem hlt
    have htrack := runMap_tracked hf hnot (ops.take (i + n)) (fun op hop => ha op (List.mem_of_mem_take hop)) h
    have hstep := (MapOp.run_tracked ops[i + n] hf hnot (ha _ (List.getElem_mem hlt)) htrack).2 (hsafe _ _ hget) c hc
      fun v he => hno (i + n) v (by omega) (by omega) (by rw [hget, he])
    rw [← Nat.add_assoc, (runMap_reply dev g ops s (i + n) _ hget).2, hstep]
    exact ih (by omega) fun k x hik hkn => hno k x hik (by omega)

theorem reads_stable : Stable ops (runMap dev g ops s).1 := by
  intro i j c v w hij hi hv hj hw hno
  obtain ⟨hreply, -⟩ := runMap_reply dev g ops s i _ hi
  obtain ⟨hreply', -⟩ := runMap_reply dev g ops s j _ hj
  rw [hreply, Option.some_inj] at hv
  rw [hreply', Option.some_inj] at hw
  have hc : g.Valid c := by
    by_contra hc
    rw [MapOp.run_read_invalid hc] at hv
    simp at hv
  obtain ⟨s₁, hr, -⟩ := MapOp.run_read hf hnot hc (runMap dev g (ops.take i) s).2
  obtain ⟨s₂, hr', -⟩ := MapOp.run_read hf hnot hc (runMap dev g (ops.take j) s).2
  rw [hr] at hv
  rw [hr'] at hw
  obtain rfl := Option.some.inj (Except.ok.inj hv)
  obtain rfl := Option.some.inj (Except.ok.inj hw)
  have hlen : j < ops.length := (List.getElem?_eq_some_iff.mp hj).1
  have hview := runMap_view hf hnot ha h hsafe hc (i := i) (j - i) (by omega) fun k x hik hkj hk => ?_
  · rw [Nat.add_sub_cancel' (Nat.le_of_lt hij)] at hview
    exact hview.symm
  · rcases Nat.eq_or_lt_of_le hik with rfl | hlt
    · rw [hi] at hk
      simp at hk
    · exact hno k x hlt (by omega) hk

end

theorem runMap_append (dev : Device) (g : Geometry) (pre ops : List MapOp) (s : FatState) :
    (runMap dev g (pre ++ ops) s).1 = (runMap dev g pre s).1 ++ (runMap dev g ops (runMap dev g pre s).2).1 := by
  induction pre generalizing s with
  | nil => rfl
  | cons op pre ih => exact congrArg _ (ih _)

theorem runMap_length (dev : Device) (g : Geometry) (ops : List MapOp) (s : FatState) :
    (runMap dev g ops s).1.length = ops.length := by
  induction ops generalizing s with
  | nil => rfl
  | cons op ops ih => exact congrArg _ (ih _)

theorem unstable_of_unsafe (hf : g.Fits dev) (hnot : ¬dev.ReadFaulty) (pre : List MapOp) (c : ℕ)
    (hu : ¬(MapOp.read c).Safe g (runMap dev g pre s).2) :
    ∃ x, ¬Stable (pre ++ [.read x, .read c, .read x])
      (runMap dev g (pre ++ [.read x, .read c, .read x]) s).1 := by
  generalize ht : (runMap dev g pre s).2 = t at hu
  simp only [MapOp.Safe, not_forall] at hu
  obtain ⟨hvalid, hmiss, x, hx, hne⟩ := hu
  have hc := (g.validCluster_iff c).mp hvalid
  have hbuf : t.bufferSector = g.fatSector x := by
    by_contra hb
    rw [view, if_neg hb] at hne
    exact hne rfl
  obtain ⟨t₁, hr₁, hhit | hmiss₁⟩ := MapOp.run_read hf hnot hx t
  · obtain ⟨-, rfl⟩ := hhit
    obtain ⟨t₂, hr₂, hhit | ⟨-, hl⟩⟩ := MapOp.run_read hf hnot hc t₁
    · exact absurd hhit.1 hmiss
    · obtain ⟨t₃, hr₃, -⟩ := MapOp.run_read hf hnot hx t₂
      rw [hl.view (g.fatSector_inFat hc) hx] at hr₃
      refine ⟨x, fun hstable => hne ?_⟩
      have hrun : (runMap dev g [.read x, .read c, .read x] t₁).1 =
          [.ok (some (view g t₁ x % 2 ^ 28)), .ok (some (view g t₁ c % 2 ^ 28)),
            .ok (some (fatWord g t₁.disk x % 2 ^ 28))] := by
        simp only [runMap, hr₁, hr₂, hr₃]
      have hlen := runMap_length dev g pre s
      rw [runMap_append, ht, hrun] at hstable
      refine hstable pre.length (pre.length + 2) x _ _ (by omega) ?_ ?_ ?_ ?_ fun k y hk hk' => ?_
      · simp
      · simp [← hlen]
      · simp
      · simp [← hlen]
      · obtain rfl : k = pre.length + 1 := by omega
        simp
  · exact absurd hbuf hmiss₁.1

/-- On a mounted volume whose device may fail writes, every run of safe calls has stable reads, and a
read that is not safe after some run makes an extension of that run unstable. -/
theorem reads_stable_iff_safe (dev : Device) (g : Geometry) (s₀ s : FatState)
    (hm : mount dev s₀ = (.ok g, s)) (hnot : ¬dev.ReadFaulty) :
    (∀ ops : List MapOp, (∀ op ∈ ops, op.Apart g) → SafeRun dev g ops s → Stable ops (runMap dev g ops s).1) ∧
      ∀ (pre : List MapOp) (c : ℕ), (∀ x, Stable (pre ++ [.read x, .read c, .read x])
        (runMap dev g (pre ++ [.read x, .read c, .read x]) s).1) → (MapOp.read c).Safe g (runMap dev g pre s).2 := by
  obtain ⟨hf, hinv⟩ := wp_ok (mount_empty dev s₀) hm
  have htrack : Tracked g s := ⟨Or.inl hinv, fun _ x hx => (coherent_of_invalid hinv).words x hx trivial⟩
  refine ⟨fun ops ha hsafe => reads_stable hf hnot ha htrack hsafe, fun pre c hstable => ?_⟩
  by_contra hu
  obtain ⟨x, hx⟩ := unstable_of_unsafe hf hnot pre c hu
  exact hx (hstable x)

/-! ## A volume with two FAT sectors -/

def wideGeometry : Geometry where
  __ := sampleGeometry
  totalSectors := 133
  fatSectors := 2
  data_lt := by decide
  partition_lt := by decide
  clusters_le := by decide
  fat_fits := by decide
  root_lt := by decide

def wideBoot : Sector := Block.ofBytes fun i =>
  if i = 0x0C then 0x02 else if i = 0x0D then 1 else if i = 0x0E then 1 else if i = 0x10 then 1
  else if i = 0x20 then 133 else if i = 0x24 then 2 else if i = 0x2C then 2 else if i = 0x42 then 0x29
  else if i = 0x1FE then 0x55 else if i = 0x1FF then 0xAA else 0

def wideDisk : ℕ → Sector
  | 0 => wideBoot
  | 1 => Block.zero.setWord32 8 fat32EocMax
  | _ => Block.zero

def wideState : FatState := ⟨wideDisk, Block.zero, fatInvalidSector, false, false, 0, []⟩

/-- Every write fails and does not reach the disk. -/
def deafDevice : Device where
  blockCount := 133
  readFault _ := none
  writeFault _ := some (.io, fun _ => false)
  blockCount_lt := by decide

theorem wide_mount : mount deafDevice wideState = (.ok wideGeometry, { wideState with served := 2 }) := rfl

theorem deafDevice_reads : ¬deafDevice.ReadFaulty := by
  rintro ⟨i, hi⟩
  simp [deafDevice] at hi

/-- The failed write of entry 3 is visible until the read of entry 130 drops it. -/
def wideOps : List MapOp := [.write 3 7, .read 3, .read 130, .read 3]

theorem reads_unstable : mount deafDevice wideState = (.ok wideGeometry, { wideState with served := 2 }) ∧
    ¬deafDevice.ReadFaulty ∧
    ¬Stable wideOps (runMap deafDevice wideGeometry wideOps { wideState with served := 2 }).1 := by
  have hrun : (runMap deafDevice wideGeometry wideOps { wideState with served := 2 }).1 =
      [.error .io, .ok (some 7), .ok (some 0), .ok (some 0)] := by rfl
  refine ⟨wide_mount, deafDevice_reads, fun hstable => ?_⟩
  rw [hrun] at hstable
  have heq : 7 = 0 := hstable 1 3 3 7 0 (by decide) rfl rfl rfl rfl fun k x hk hk' => by
    obtain rfl : k = 2 := by omega
    simp [wideOps]
  omega

theorem reads_stable_iff_safe_wide : Stable [.write 3 7, .read 3, .read 3]
    (runMap deafDevice wideGeometry [.write 3 7, .read 3, .read 3] { wideState with served := 2 }).1 := by
  refine (reads_stable_iff_safe deafDevice wideGeometry wideState _ wide_mount deafDevice_reads).1 _ ?_ ?_
  · intro op hop
    simp only [List.mem_cons, List.not_mem_nil, or_false] at hop
    rcases hop with rfl | rfl | rfl <;> exact trivial
  · -- both reads find the sector in the buffer
    intro k op hk
    match k with
    | 0 =>
      obtain rfl : MapOp.write 3 7 = op := by simpa using hk
      trivial
    | 1 =>
      obtain rfl : MapOp.read 3 = op := by simpa using hk
      exact fun _ hmiss => absurd rfl hmiss
    | 2 =>
      obtain rfl : MapOp.read 3 = op := by simpa using hk
      exact fun _ hmiss => absurd rfl hmiss
    | k + 3 => simp at hk

end Zonix.Fat
