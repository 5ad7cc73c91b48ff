import Zonix.Fat.Create

/-! # `mkdir` and `create_file` under failing requests

The outcome of the two calls for every pattern of failures: the volume stays sound, and the error
they return is the one that stopped them. -/

namespace Zonix.Fat

open Prog Pointer

variable {dev : Device} {g : Geometry} {s s' : FatState} {c d x : ℕ} {l : List ℕ} {name path : List Byte}

/-- What a call leaves behind: a sound volume with the entries there were.  If no request fails it is
tidy, and no cluster is lost unless the new name looks deleted. -/
structure Preserved (dev : Device) (g : Geometry) (path : List Byte) (s s' : FatState) : Prop where
  sound : Sound g (vol g s'.disk)
  keeps : Keeps g (fun _ => False) (vol g s.disk) (vol g s'.disk)
  tidy : ¬dev.Faulty → Tidy g (vol g s'.disk) ∧ Coherent g s'
  cover : ¬dev.Faulty → (∀ b ∈ path, b ≠ 0xE5) → Covered g (vol g s.disk) → Covered g (vol g s'.disk)

def AlmostFull (g : Geometry) (V : Volume) : Prop :=
  ∀ x y, g.Valid x → g.Valid y → V.fat x = fat32Free → V.fat y = fat32Free → x = y

/-- The error stopped the call: no request failed, or it is the first failure, or the disk is full
and the failures, if any, came later. -/
def FirstError (g : Geometry) (s : FatState) (err : Error) (s' : FatState) : Prop :=
  s'.faults = s.faults ∨ (∃ d rest, err = DevError.error d ∧ s'.faults = s.faults ++ d :: rest) ∨
    (err = .full ∧ AlmostFull g (vol g s.disk))

variable {err : Error}

theorem Faulted.firstError {why : Prop} (h : Faulted why s err s') : FirstError g s err s' :=
  Or.inr (Or.inl h.2)

theorem Quiet.preserved (h : Quiet g s s') (hw : Regular g (vol g s.disk)) (hc : Coherent g s) :
    Preserved dev g path s s' :=
  ⟨h.disk ▸ hw.sound, fun p hp _ => by rw [h.disk]; exact ⟨hp, rfl⟩,
    fun _ => ⟨h.disk ▸ hw.tidy, h.coherent hc⟩, fun _ _ hcov => h.disk ▸ hcov⟩

theorem Touched.preserved {F : ℕ → Prop} (h : Touched g F F s s')
    (hF : ∀ x, Owned g (vol g s.disk) x → ¬F x) (hs : Sound g (vol g s.disk)) (hfault : Faulted dev.Faulty s err s') :
    Preserved dev g path s s' :=
  ⟨((h.agree_free hF).same hs).sound hs, ((h.agree_free hF).same hs).keeps,
    fun hnot => absurd hfault.1 hnot, fun hnot => absurd hfault.1 hnot⟩

theorem rollbackNewChain_fresh (hf : g.Fits dev) (hc : Coherent g s) (hv : g.Valid c)
    (heoc : fat32EocMin ≤ (vol g s.disk).fat c) (hnot : ¬dev.Faulty) :
    Touched g (· = c) (fun _ => False) s (rollbackNewChain dev g c s).2 ∧
      (vol g (rollbackNewChain dev g c s).2.disk).fat c = fat32Free ∧ Coherent g (rollbackNewChain dev g c s).2 ∧
      (rollbackNewChain dev g c s).2.faults = s.faults := by
  refine (wp_left (P := fun s' => Touched g (· = c) (fun _ => False) s s' ∧ (vol g s'.disk).fat c = fat32Free ∧
    Coherent g s' ∧ s'.faults = s.faults)).mp ?_
  unfold rollbackNewChain
  rw [wp_bind, wp_attempt]
  refine wp_mono (freeChain_wp hf (chain_single hv heoc) hc) (fun _ s₁ h₁ => ?_) fun err s₁ h₁ => absurd h₁.2.1 hnot
  exact ⟨h₁.1.mono (fun x hx => by simpa using hx) fun _ h => h, h₁.2.1 c (by simp), h₁.2.2.1, h₁.2.2.2.1⟩

theorem devError_ne_notFound (d : DevError) : d.error ≠ .notFound := by
  cases d <;> decide

structure Absent (g : Geometry) (V : Volume) (d : ℕ) (name : List Byte) : Prop where
  dir : IsDir g V d
  look : ∀ l, Chain g V d l → lookup g V l name = none

theorem ensureAbsent_wp (hf : g.Fits dev) (hc : Coherent g s) (hs : Sound g (vol g s.disk))
    (hd : IsDir g (vol g s.disk) d ∨ d = 0) :
    wp (ensureAbsent dev g d name)
      (fun _ s' => Absent g (vol g s.disk) d name ∧ Quiet g s s' ∧ s'.faults = s.faults)
      (fun err s' => Quiet g s s' ∧ (s'.faults = s.faults ∨ Faulted dev.Faulty s err s')) s := by
  have hrest : ∀ {err s'}, Quiet g s s' → Faulted dev.ReadFaulty s err s' →
      wp (if err = .notFound then pure () else fail err)
        (fun _ s' => Absent g (vol g s.disk) d name ∧ Quiet g s s' ∧ s'.faults = s.faults)
        (fun err s' => Quiet g s s' ∧ (s'.faults = s.faults ∨ Faulted dev.Faulty s err s')) s' := by
    intro err s' hq hfault
    have hne : err ≠ .notFound := by
      obtain ⟨-, f, -, rfl, -⟩ := hfault
      exact devError_ne_notFound f
    rw [if_neg hne]
    exact ⟨hq, Or.inr (hfault.imp Or.inl)⟩
  unfold ensureAbsent
  rw [wp_bind, wp_attempt]
  rcases hd with hd | rfl
  · obtain ⟨l, hl⟩ := hs.dir_chain hd
    have hfind := findEntry_reads hf hl name
    unfold findResult at hfind
    cases hlook : lookup g (vol g s.disk) l name with
    | none =>
      rw [hlook] at hfind
      refine hfind.wp_error hc (fun s₁ hq hfl => ?_) fun err s₁ hq hfault => hrest hq hfault
      exact ⟨⟨hd, fun m hm => hl.unique hm ▸ hlook⟩, hq, hfl⟩
    | some p =>
      rw [hlook] at hfind
      refine hfind.wp_ok hc (fun s₁ hq hfl => ?_) fun err s₁ hq hfault => hrest hq hfault
      exact ⟨hq, Or.inl hfl⟩
  · refine (findEntry_invalid (not_valid_zero g)).wp_error hc (fun s₁ hq hfl => ?_) fun err s₁ hq hfault =>
      hrest hq hfault
    exact ⟨hq, Or.inl hfl⟩

theorem resolveAbsent_wp {m : ℕ → List Byte → FatM Unit} {Q : Unit → FatState → Prop} {E : Error → FatState → Prop}
    (hf : g.Fits dev) (hc : Coherent g s) (hs : Sound g (vol g s.disk))
    (hquiet : ∀ err s', Quiet g s s' → (s'.faults = s.faults ∨ Faulted dev.Faulty s err s') → E err s')
    (hm : ∀ d name s₁, Names g (vol g s.disk) path d name → Absent g (vol g s.disk) d name → Quiet g s s₁ →
      s₁.faults = s.faults → wp (m d name) Q E s₁) :
    wp (do
      let (parent, child) ← resolveParent dev g path
      ensureAbsent dev g parent child
      m parent child) Q E s := by
  obtain ⟨r, hr, hnames⟩ := resolveParent_reads hf hs path
  rw [wp_bind]
  cases r with
  | error err =>
    exact hr.wp_error hc (fun s₁ hq hfl => hquiet err s₁ hq (Or.inl hfl)) fun err s₁ hq hfault =>
      hquiet err s₁ hq (Or.inr (hfault.imp Or.inl))
  | ok parent =>
    obtain ⟨d, name⟩ := parent
    have hn := (hnames d name).mp rfl
    refine hr.wp_ok hc (fun s₁ hq hfl => ?_) fun err s₁ hq hfault => hquiet err s₁ hq (Or.inr (hfault.imp Or.inl))
    have hd := hn.dir
    rw [← hq.disk] at hd
    rw [wp_bind]
    refine wp_mono (ensureAbsent_wp hf (hq.coherent hc) (hq.disk ▸ hs) hd) (fun _ s₂ h₂ => ?_) fun err s₂ h₂ => ?_
    · obtain ⟨habs, hq₂, hf₂⟩ := h₂
      rw [hq.disk] at habs
      exact hm d name s₂ hn habs (hq.trans hq₂) (hf₂.trans hfl)
    · refine hquiet err s₂ (hq.trans h₂.1) ?_
      rcases h₂.2 with h | h
      · exact Or.inl (h.trans hfl)
      · exact Or.inr (h.after hfl)

structure CreatedIn (g : Geometry) (attr : Byte) (path : List Byte) (V U V' : Volume) (d : ℕ) (name : List Byte)
    (cluster : ℕ) (e : FatDirEntry) : Prop where
  names : Names g V path d name
  absent : Absent g V d name
  agree : Agree g V U
  entry : e = makeEntry (make83Name name) attr cluster
  new : NewEntry path attr cluster e
  target : Target g U e
  added : Added g U V' d e

def Created (g : Geometry) (attr : Byte) (path : List Byte) (V V' : Volume) : Prop :=
  ∃ U d name cluster e, CreatedIn g attr path V U V' d name cluster e

structure CreateFailed (dev : Device) (g : Geometry) (path : List Byte) (s : FatState) (err : Error) (s' : FatState) :
    Prop where
  preserved : Preserved dev g path s s'
  first : FirstError g s err s'
  same : ¬dev.Faulty → Same g (vol g s.disk) (vol g s'.disk)

theorem Same.refl (g : Geometry) (V : Volume) : Same g V V :=
  ⟨fun _ _ _ _ hl => hl, fun _ _ _ => ⟨Iff.rfl, fun _ => rfl⟩⟩

theorem Agree.refl (g : Geometry) (V : Volume) : Agree g V V := ⟨fun _ _ => rfl, fun _ _ _ _ _ _ => rfl⟩

theorem Quiet.createFailed (h : Quiet g s s') (hw : Regular g (vol g s.disk)) (hc : Coherent g s)
    (hend : s'.faults = s.faults ∨ Faulted dev.Faulty s err s') : CreateFailed dev g path s err s' := by
  refine ⟨h.preserved hw hc, ?_, fun _ => ?_⟩
  · rcases hend with hend | hend
    · exact Or.inl hend
    · exact hend.firstError
  · rw [h.disk]
    exact Same.refl g _

theorem Faulted.createFailed (h : Faulted dev.Faulty s err s') (hp : Preserved dev g path s s') :
    CreateFailed dev g path s err s' := ⟨hp, h.firstError, fun hnot => absurd h.1 hnot⟩

/-! ## `create_file` -/

theorem createFile_wp (hf : g.Fits dev) (hc : Coherent g s) (hw : Regular g (vol g s.disk))
    (h0 : ∀ b ∈ path, b ≠ 0) :
    wp (createFile dev g path)
      (fun _ s' => Preserved dev g path s s' ∧ Created g attrArchive path (vol g s.disk) (vol g s'.disk))
      (CreateFailed dev g path s) s := by
  refine resolveAbsent_wp (m := fun d name => addDirEntry dev g false d (makeEntry (make83Name name) attrArchive 0))
    hf hc hw.sound (fun _ _ hq hend => hq.createFailed hw hc hend) fun d name s₁ hn habs hq hfl => ?_
  have he := newEntry hn.part h0 (Or.inr rfl) (show 0 < 2 ^ 32 by decide)
  generalize hentry : makeEntry (make83Name name) attrArchive 0 = e at *
  have hdir : e.isDirectory = false := he.isDirectory.trans (by decide)
  have ht : Target g (vol g s.disk) e := ⟨fun hne => absurd he.cluster hne, fun h => by simp [hdir] at h⟩
  have ha : Addable g s₁ d e :=
    ⟨hq.coherent hc, hq.disk ▸ hw.sound, hq.disk ▸ hw.tidy, hq.disk ▸ habs.dir, he.isEnd⟩
  have hadded : ∀ {s' : FatState}, Added g (vol g s.disk) (vol g s'.disk) d e → Sound g (vol g s'.disk) ∧
      Keeps g (fun _ => False) (vol g s.disk) (vol g s'.disk) ∧ Tidy g (vol g s'.disk) ∧
      ((∀ b ∈ path, b ≠ 0xE5) → Covered g (vol g s.disk) → Covered g (vol g s'.disk)) := by
    intro s' h
    obtain ⟨W, l, A, p, B, hst⟩ := h.staged hw.sound ht
    refine ⟨hst.after_sound, hst.after_keeps hw.sound, hst.after_tidy he.name_ne hw.tidy fun h => by simp [hdir] at h,
      fun hpath hcov => hst.after_covered (he.visible hpath) fun x hx hfree hbad => Or.inl (hcov x hx hfree hbad)⟩
  refine wp_mono (addDirEntry_wp false hf ha) (fun _ s₂ h₂ => ?_) fun err s₂ h₂ => ?_
  · rw [hq.disk] at h₂
    obtain ⟨hs, hk, htidy, hcov⟩ := hadded h₂.1
    exact ⟨⟨hs, hk, fun _ => ⟨htidy, h₂.2.1⟩, fun _ => hcov⟩,
      _, d, name, 0, e, hn, habs, Agree.refl g _, hentry.symm, he, ht, h₂.1⟩
  · have hfree : ∀ x, Owned g (vol g s.disk) x → ¬(vol g s.disk).fat x = fat32Free :=
      fun x hx h => not_owned_of_free h hx
    rcases h₂ with ⟨hab, hend⟩ | ⟨-, hfault, hvol⟩
    · have hT := hab.touched
      rw [show s₁.withReport false false = s₁ from rfl] at *
      rw [hq.disk] at hT
      rcases hend with hfault | ⟨rfl, -, hq₂, hf₂⟩
      · have hfault' := hfault.after hfl
        exact hfault'.createFailed ((hq.touched.trans hT).preserved hfree hw.sound hfault')
      · exact (hq.trans hq₂).createFailed hw hc (Or.inl (hf₂.trans hfl))
    · have hfault' := hfault.after hfl
      rw [hq.disk] at hvol
      refine hfault'.createFailed ?_
      rcases hvol with h | h
      · exact ⟨(hadded h).1, (hadded h).2.1, fun hnot => absurd hfault.1 hnot, fun hnot => absurd hfault.1 hnot⟩
      · exact (hq.touched.trans h).preserved hfree hw.sound hfault'

/-! ## `mkdir` -/

structure Prepared (g : Geometry) (d c : ℕ) (s s' : FatState) : Prop where
  valid : g.Valid c
  free : (vol g s.disk).fat c = fat32Free
  touched : Touched g (· = c) (· = c) s s'
  eoc : fat32EocMin ≤ (vol g s'.disk).fat c
  blank : s'.disk (g.dataLba c 0) = dotSector g c d
  zero : ∀ i, i < g.sectorsPerCluster → i ≠ 0 → s'.disk (g.dataLba c i) = Block.zero
  coherent : Coherent g s'
  faults : s'.faults = s.faults

namespace Prepared

theorem not_owned (h : Prepared g d c s s') (x : ℕ) (hx : Owned g (vol g s.disk) x) : ¬x = c := by
  rintro rfl
  exact not_owned_of_free h.free hx

theorem agree (h : Prepared g d c s s') : Agree g (vol g s.disk) (vol g s'.disk) := h.touched.agree_free h.not_owned

theorem free_of_free (h : Prepared g d c s s') {x : ℕ} (hx : (vol g s'.disk).fat x = fat32Free) :
    (vol g s.disk).fat x = fat32Free := by
  have hxc : ¬x = c := by
    rintro rfl
    have heoc := h.eoc
    rw [hx] at heoc
    exact absurd heoc (by decide)
  rw [← h.touched.fat x hxc]
  exact hx

variable {s₂ s₁ : FatState} {e : FatDirEntry}

theorem touched_more (h : Prepared g d c s s')
    (hT : Touched g (fun x => x = c ∨ (vol g s'.disk).fat x = fat32Free)
      (fun x => x = c ∨ (vol g s'.disk).fat x = fat32Free) s' s₂) :
    Touched g (fun x => (vol g s.disk).fat x = fat32Free) (fun x => (vol g s.disk).fat x = fat32Free) s s₂ := by
  have hsub : ∀ x, x = c ∨ (vol g s'.disk).fat x = fat32Free → (vol g s.disk).fat x = fat32Free := by
    rintro x (rfl | hx)
    · exact h.free
    · exact h.free_of_free hx
  exact (h.touched.mono (fun x hx => hsub x (Or.inl hx)) fun x hx => hsub x (Or.inl hx)).trans (hT.mono hsub hsub)

theorem target (h : Prepared g d c s s') (hs : Sound g (vol g s.disk))
    (he : e.cluster = c) : Target g (vol g s'.disk) e := by
  refine ⟨fun _ => he ▸ ⟨h.valid, h.eoc, fun hown => ?_⟩, fun _ => he ▸ (newDir_leaf h.valid h.blank h.zero).1⟩
  exact not_owned_of_free h.free (((h.agree.same hs).owned hs).mp hown)

end Prepared

theorem mkdir_added (hw : Regular g (vol g s.disk)) (h : Prepared g d c s s₁)
    (he : NewEntry path attrDirectory c e) (hadd : Added g (vol g s₁.disk) (vol g s'.disk) d e) :
    Sound g (vol g s'.disk) ∧ Keeps g (fun _ => False) (vol g s.disk) (vol g s'.disk) ∧ Tidy g (vol g s'.disk) ∧
      ((∀ b ∈ path, b ≠ 0xE5) → Covered g (vol g s.disk) → Covered g (vol g s'.disk)) := by
  have hsame := h.agree.same hw.sound
  have hs₁ := hsame.sound hw.sound
  obtain ⟨W, l, A, p, B, hst⟩ := hadd.staged hs₁ (h.target hw.sound he.cluster)
  refine ⟨hst.after_sound, hsame.keeps.trans (hst.after_keeps hs₁),
    hst.after_tidy he.name_ne (h.agree.tidy hw.sound hw.tidy) fun _ _ => he.cluster ▸ (newDir_leaf h.valid h.blank h.zero).2,
    fun hpath hcov => hst.after_covered (he.visible hpath) fun x hx hfree hbad => ?_⟩
  by_cases hxc : x = c
  · right
    refine ⟨he.cluster.trans hxc.symm, ?_⟩
    unfold Geometry.Valid at hx
    omega
  · left
    rw [h.touched.fat x hxc] at hfree hbad
    exact (hsame.owned hw.sound).mpr (hcov x hx hfree hbad)

theorem mkdir_refused (hf : g.Fits dev) (hw : Regular g (vol g s.disk))
    (h : Prepared g d c s s₁) (hr : Refused dev g (s₁.withReport true false) err s₂) :
    CreateFailed dev g path s err (dropUnlessPublished dev g c s₂).2 := by
  obtain ⟨hd₁, -, -, hf₁, hm₁⟩ := report_same s₁ true false
  obtain ⟨⟨hT, hsync, hm⟩, hend⟩ := hr
  have hdrop : dropUnlessPublished dev g c s₂ = rollbackNewChain dev g c s₂ := by
    have hstep : dropUnlessPublished dev g c s₂ = (if s₂.entryMayExist then pure () else rollbackNewChain dev g c) s₂ := rfl
    rw [hstep, hm, hm₁ rfl]
    rfl
  rw [hdrop]
  rw [hd₁] at hsync hend
  have hT₁ : Touched g (fun x => x = c ∨ (vol g s₁.disk).fat x = fat32Free)
      (fun x => x = c ∨ (vol g s₁.disk).fat x = fat32Free) s₁ s₂ := by
    rw [hd₁] at hT
    refine ⟨fun x hx => ?_, fun x i hv hi hx => ?_⟩
    · rw [hT.fat x fun h => hx (Or.inr h), hd₁]
    · rw [hT.data x i hv hi fun h => hx (Or.inr h), hd₁]
  have hused : (vol g s₁.disk).fat c ≠ fat32Free := by
    intro hfree
    have heoc := h.eoc
    rw [hfree] at heoc
    exact absurd heoc (by decide)
  have hcfat : (vol g s₂.disk).fat c = (vol g s₁.disk).fat c := by
    rw [hd₁] at hT
    rw [hT.fat c hused, hd₁]
  have hview : fat32EocMin ≤ view g s₂ c % 2 ^ 28 := by
    rw [hsync.words c h.valid hused, ← vol_fat _ h.valid, hcfat]
    exact h.eoc
  have hroll := rollbackNewChain_kept (P := fun x => (vol g s₁.disk).fat x ≠ fat32Free ∧ x ≠ c) hf h.valid
    (hsync.mono fun x hx => hx.1) (fun hx => hx.2 rfl) hview
  have hT₂ := h.touched_more (hT₁.trans (hroll.touched fun x hx =>
    ⟨fun hfree => hx (Or.inr hfree), fun hxc => hx (Or.inl hxc)⟩))
  have hfree : ∀ x, Owned g (vol g s.disk) x → ¬(vol g s.disk).fat x = fat32Free := fun x hx h => not_owned_of_free h hx
  rcases hend with hfault | ⟨rfl, hnone, hq₂, hf₂⟩
  · have hfault' := (hfault.grow_right hroll.faults).after (hf₁.trans h.faults)
    exact hfault'.createFailed (hT₂.preserved hfree hw.sound hfault')
  · -- the disk is full: without failures the new cluster is free again
    have hc₂ : Coherent g s₂ := hq₂.coherent (report_sync false h.coherent)
    have hsame := (hT₂.agree_free hfree).same hw.sound
    have hback := rollbackNewChain_fresh hf hc₂ h.valid (by rw [hcfat]; exact h.eoc)
    refine ⟨⟨hsame.sound hw.sound, hsame.keeps, fun hnot => ⟨(hw.of_agree (hT₂.agree_free hfree)).tidy, (hback hnot).2.2.1⟩,
      fun hnot _ hcov => hcov.of_agree hw.sound (hT₂.agree_free hfree) fun x => ?_⟩, Or.inr (Or.inr ⟨rfl, ?_⟩), fun _ => hsame⟩
    · obtain ⟨hT₃, hc₃, -⟩ := hback hnot
      by_cases hxc : x = c
      · rw [hxc, hc₃, h.free]
      · rw [hT₃.fat x hxc, hq₂.disk, hd₁, h.touched.fat x hxc]
    · intro x y hx hy hfx hfy
      have hall : ∀ z, g.Valid z → (vol g s.disk).fat z = fat32Free → z = c := by
        intro z hz hfz
        by_contra hzc
        exact hnone z hz (by rw [h.touched.fat z hzc]; exact hfz)
      rw [hall x hx hfx, hall y hy hfy]

theorem mkdir_doubtful (hw : Regular g (vol g s.disk))
    (h : Prepared g d c s s₁) (he : NewEntry path attrDirectory c e) (hr : Doubtful dev g true d e s₁ err s₂) :
    CreateFailed dev g path s err (dropUnlessPublished dev g c s₂).2 := by
  obtain ⟨hm, hfault, hvol⟩ := hr
  have hdrop : (dropUnlessPublished dev g c s₂).2 = s₂ := by
    have hstep : dropUnlessPublished dev g c s₂ = (if s₂.entryMayExist then pure () else rollbackNewChain dev g c) s₂ := rfl
    rw [hstep, hm rfl]
    rfl
  rw [hdrop]
  have hfault' := hfault.after h.faults
  refine hfault'.createFailed ?_
  rcases hvol with hadd | hT
  · exact ⟨(mkdir_added hw h he hadd).1, (mkdir_added hw h he hadd).2.1, fun hnot => absurd hfault.1 hnot,
      fun hnot => absurd hfault.1 hnot⟩
  · exact (h.touched_more (hT.mono (fun _ hx => Or.inr hx) fun _ hx => Or.inr hx)).preserved
      (fun x hx h => not_owned_of_free h hx) hw.sound hfault'

theorem mkdir_wp (hf : g.Fits dev) (hc : Coherent g s) (hw : Regular g (vol g s.disk)) (h0 : ∀ b ∈ path, b ≠ 0) :
    wp (mkdir dev g path)
      (fun _ s' => Preserved dev g path s s' ∧ Created g attrDirectory path (vol g s.disk) (vol g s'.disk))
      (CreateFailed dev g path s) s := by
  refine resolveAbsent_wp (m := fun parent child => do
    let cluster ← allocCluster dev g
    onError (dev.writeSector (g.clusterLba cluster 0) (dotSector g cluster parent)) (rollbackNewChain dev g cluster)
    onError (addDirEntry dev g true parent (makeEntry (make83Name child) attrDirectory cluster))
      (dropUnlessPublished dev g cluster)) hf hc hw.sound (fun _ _ hq hend => hq.createFailed hw hc hend)
    fun d name s₁ hn habs hq hfl => ?_
  have hfree : ∀ x, Owned g (vol g s.disk) x → ¬(vol g s.disk).fat x = fat32Free := fun x hx h => not_owned_of_free h hx
  have hspc := g.sectorsPerCluster_pos
  rw [wp_bind]
  refine wp_mono (allocCluster_wp hf (hq.coherent hc)) (fun c s₂ h₂ => ?_) fun err s₂ h₂ => ?_
  · have hv := h₂.valid
    have hcfree : (vol g s.disk).fat c = fat32Free := hq.disk ▸ h₂.free
    have hT₂ := hq.touched.trans h₂.touched
    have heoc : ∀ {s₃}, Poured g c s₂ s₃ → fat32EocMin ≤ fatWord g s₃.disk c % 2 ^ 28 := by
      intro s₃ h₃
      rw [h₃.word hv, ← vol_fat _ hv, h₂.eoc]
      decide
    rw [wp_bind, wp_onError]
    refine wp_mono (writeData_wp hf hv hspc _) (fun _ s₃ h₃ => ?_) fun err s₃ h₃ => ?_
    · obtain ⟨hp, hdisk, hf₃⟩ := h₃
      have hprep : Prepared g d c s s₃ := by
        refine ⟨hv, hcfree, hT₂.trans (hp.touched hv), ?_, by simp [hdisk, putSector], fun i hi hi0 => ?_,
          hp.sync h₂.coherent, hf₃.trans (h₂.faults.trans hfl)⟩
        · rw [vol_fat _ hv]
          exact heoc hp
        · rw [hdisk, putSector, if_neg, h₂.zero i hi]
          rintro ⟨-, he⟩
          exact hi0 (g.dataLba_inj hv hv hi hspc he).2
      have hsame := hprep.agree.same hw.sound
      have hlt : c < 2 ^ 32 := by
        have hlt := hv.lt_eoc
        unfold fat32EocMin at hlt
        omega
      have he := newEntry hn.part h0 (Or.inl rfl) hlt
      generalize hentry : makeEntry (make83Name name) attrDirectory c = e at *
      have ha : Addable g s₃ d e :=
        ⟨hprep.coherent, hsame.sound hw.sound, hprep.agree.tidy hw.sound hw.tidy, (hsame.isDir d).mpr habs.dir, he.isEnd⟩
      rw [wp_onError]
      refine wp_mono (addDirEntry_wp true hf ha) (fun _ s₄ h₄ => ?_) fun err s₄ h₄ => ?_
      · obtain ⟨hs, hk, htidy, hcov⟩ := mkdir_added hw hprep he h₄.1
        exact ⟨⟨hs, hk, fun _ => ⟨htidy, h₄.2.1⟩, fun _ => hcov⟩,
          _, d, name, c, e, hn, habs, hprep.agree, hentry.symm, he, hprep.target hw.sound he.cluster, h₄.1⟩
      · rcases h₄ with h₄ | h₄
        · exact mkdir_refused hf hw hprep h₄
        · exact mkdir_doubtful hw hprep he h₄
    · obtain ⟨hp, -, hfault⟩ := h₃
      have hroll := rollbackNewChain_kept hf hv ((hp.sync h₂.coherent).mono fun _ _ => trivial : Sync g (fun x => x ≠ c) s₃)
        (by simp) (by rw [(hp.sync h₂.coherent).words c hv trivial]; exact heoc hp)
      have hfault' := (hfault.grow_right hroll.faults).after (h₂.faults.trans hfl)
      have hT := (hT₂.trans (hp.touched hv)).trans (hroll.touched (D := (· = c)) fun x hx => hx)
      refine hfault'.createFailed (hT.preserved (fun x hx => ?_) hw.sound hfault')
      rintro rfl
      exact hfree x hx hcfree
  · obtain ⟨hab, hend⟩ := h₂
    have hT := hab.touched
    rw [hq.disk] at hT
    rcases hend with hfault | ⟨rfl, -, hq₂, hf₂⟩
    · have hfault' := hfault.after hfl
      exact hfault'.createFailed ((hq.touched.trans hT).preserved hfree hw.sound hfault')
    · exact (hq.trans hq₂).createFailed hw hc (Or.inl (hf₂.trans hfl))

/-! ## No dangling references -/

/-- Every visible entry refers to a chain of allocated clusters. -/
def NoDangling (g : Geometry) (V : Volume) : Prop :=
  ∀ p, Visible g V p → (V.at p).cluster ≠ 0 → ∃ l, Chain g V (V.at p).cluster l ∧ ∀ x ∈ l, V.fat x ≠ fat32Free

/-- No cluster is in the chains of two visible entries. -/
def Unshared (g : Geometry) (V : Volume) : Prop :=
  ∀ p q l m, Visible g V p → Visible g V q → p ≠ q → Chain g V (V.at p).cluster l → Chain g V (V.at q).cluster m →
    ∀ x ∈ l, x ∉ m

theorem Sound.noDangling {V : Volume} (h : Sound g V) : NoDangling g V := by
  intro p hp hc
  obtain ⟨l, hl⟩ := h.chain (some p) _ ⟨hp, rfl, hc⟩
  exact ⟨l, hl, fun x hx => (hl.fat_ne hx).1⟩

theorem Sound.unshared {V : Volume} (h : Sound g V) : Unshared g V := by
  intro p q l m hp hq hne hl hm x hx hx'
  have hzero : ∀ {c : ℕ} {l : List ℕ}, Chain g V c l → c ≠ 0 := by
    rintro c l hl rfl
    exact not_valid_zero g hl.start_valid
  have heq := h.disjoint (some p) (some q) l m ⟨_, ⟨hp, rfl, hzero hl⟩, hl⟩ ⟨_, ⟨hq, rfl, hzero hm⟩, hm⟩ x hx hx'
  exact hne (Option.some.inj heq)

/-- `mkdir` and `create_file` on a well-formed volume, for every path without a NUL byte and every
pattern of failing requests. -/
theorem create_noDangling (dev : Device) (g : Geometry) (s : FatState) (path : List Byte) (m : FatM Unit)
    (hm : m = mkdir dev g path ∨ m = createFile dev g path) (hf : g.Fits dev) (hc : Coherent g s)
    (hw : WellFormed g (vol g s.disk)) (h0 : ∀ b ∈ path, b ≠ 0) :
    NoDangling g (vol g (m s).2.disk) ∧ Unshared g (vol g (m s).2.disk) ∧
      ∀ err, (m s).1 = .error err → FirstError g s err (m s).2 := by
  have hwp : wp m (fun _ s' => Preserved dev g path s s') (CreateFailed dev g path s) s := by
    rcases hm with rfl | rfl
    · exact wp_mono (mkdir_wp hf hc hw.toRegular h0) (fun _ _ h => h.1) fun _ _ h => h
    · exact wp_mono (createFile_wp hf hc hw.toRegular h0) (fun _ _ h => h.1) fun _ _ h => h
  unfold wp at hwp
  rcases hms : m s with ⟨r, s'⟩
  rw [hms] at hwp
  cases r with
  | ok a => exact ⟨hwp.sound.noDangling, hwp.sound.unshared, fun err h => by simp at h⟩
  | error e =>
    have hsound := hwp.preserved.sound
    refine ⟨hsound.noDangling, hsound.unshared, fun err h => ?_⟩
    obtain rfl := Except.error.inj h
    exact hwp.first

theorem create_noDangling_sample :
    NoDangling sampleGeometry (vol sampleGeometry (mkdir (tornDevice sampleGeometry) sampleGeometry [slash, 0x62]
      sampleState).2.disk) :=
  (create_noDangling (tornDevice sampleGeometry) sampleGeometry sampleState [slash, 0x62] _ (Or.inl rfl)
    (tornDevice_fits _) (coherent_of_invalid rfl) sample_wellFormed (by decide)).1

end Zonix.Fat
