import Zonix.Fat.Mkdir

/-! # `unlink` and `rmdir`

Both free the chain of the entry before they remove the entry.  Without failing requests the
volume stays well formed; a failure in between leaves a visible entry whose chain is gone. -/

namespace Zonix.Fat

open Prog Pointer Relation

variable {dev : Device} {g : Geometry} {s s' : FatState} {V V' : Volume} {c d x : ℕ} {l : List ℕ} {p : Pos}
  {name path : List Byte}

/-! ## Finding the entry -/

theorem Resolves.unique {d₁ d₂ : ℕ} {parts : List (List Byte)} (h : Resolves g V d parts d₁)
    (h' : Resolves g V d parts d₂) : d₁ = d₂ := by
  induction h with
  | nil d =>
    cases h'
    rfl
  | cons hl hfound _ _ ih =>
    cases h' with
    | cons hl' hfound' _ hrest =>
      rw [← hl.unique hl', hfound] at hfound'
      obtain rfl := Option.some.inj hfound'
      exact ih hrest

structure Found (g : Geometry) (V : Volume) (path : List Byte) (d : ℕ) (l : List ℕ) (name : List Byte) (p : Pos) :
    Prop where
  names : Names g V path d name
  chain : Chain g V d l
  look : lookup g V l name = some p

namespace Found

section

variable (h : Found g V path d l name p)
include h

theorem dir : IsDir g V d := by
  rcases h.names.dir with hd | rfl
  · exact hd
  · exact absurd h.chain.start_valid (not_valid_zero g)

theorem inDir : InDir g V d p := by
  obtain ⟨hmem, hvis, -⟩ := lookup_spec h.look h.names.part.1
  exact ⟨l, h.chain, hmem, hvis⟩

theorem visible : Visible g V p := ⟨d, h.dir, h.inDir⟩

theorem unique {d₂ : ℕ} {l₂ : List ℕ} {name₂ : List Byte} {p₂ : Pos}
    (h₂ : Found g V path d₂ l₂ name₂ p₂) : d = d₂ ∧ name = name₂ ∧ p = p₂ := by
  obtain ⟨parts, hparse, hres, rfl⟩ := h.names.parts
  obtain ⟨parts₂, hparse₂, hres₂, rfl⟩ := h₂.names.parts
  rw [hparse] at hparse₂
  obtain rfl := Except.ok.inj hparse₂
  obtain rfl := hres.unique hres₂
  have hlook := h.look
  rw [h.chain.unique h₂.chain, h₂.look] at hlook
  exact ⟨rfl, rfl, (Option.some.inj hlook).symm⟩

end

end Found

theorem resolveFound_wp {α : Type} {m : ℕ → List Byte → FatDirEntry → FatM α} {Q : α → FatState → Prop}
    {E : Error → FatState → Prop} (hf : g.Fits dev) (hc : Coherent g s) (hs : Sound g (vol g s.disk))
    (hmiss : (¬∃ d l name p, Found g (vol g s.disk) path d l name p) → ∀ err s', Quiet g s s' → E err s')
    (hfault : ∀ err s', dev.ReadFaulty → Quiet g s s' → E err s')
    (hfound : ∀ d l name p s', Found g (vol g s.disk) path d l name p → Quiet g s s' →
      wp (m d name ((vol g s.disk).at p)) Q E s') :
    wp (do
      let (parent, child) ← resolveParent dev g path
      let e ← findEntry dev g parent child
      m parent child e) Q E s := by
  obtain ⟨r, hr, hnames⟩ := resolveParent_reads hf hs path
  rw [wp_bind]
  cases r with
  | error err =>
    refine hr.wp_error hc (fun s₁ hq hfl => hmiss ?_ err s₁ hq) fun err s₁ hq hfl => hfault err s₁ hfl.1 hq
    rintro ⟨d, l, name, p, hfd⟩
    have hbad := (hnames d name).mpr hfd.names
    simp at hbad
  | ok parent =>
    obtain ⟨d, name⟩ := parent
    have hn := (hnames d name).mp rfl
    have huniq : ∀ {d' l' name' p'}, Found g (vol g s.disk) path d' l' name' p' → d' = d ∧ name' = name := by
      intro d' l' name' p' hfd
      have heq := (hnames d' name').mpr hfd.names
      exact ⟨(Prod.mk.inj (Except.ok.inj heq)).1.symm, (Prod.mk.inj (Except.ok.inj heq)).2.symm⟩
    refine hr.wp_ok hc (fun s₁ hq hfl => ?_) fun err s₁ hq hfl => hfault err s₁ hfl.1 hq
    have hc₁ := hq.coherent hc
    rw [wp_bind]
    rcases hn.dir with hd | rfl
    · obtain ⟨l, hl⟩ := hs.dir_chain hd
      have hfind : Reads dev g s₁.disk (findEntry dev g d name) (findResult g (vol g s₁.disk) l name) :=
        findEntry_reads hf (hq.disk ▸ hl) name
      rw [findResult, hq.disk] at hfind
      cases hlook : lookup g (vol g s.disk) l name with
      | none =>
        rw [hlook, ← hq.disk] at hfind
        refine hfind.wp_error hc₁ (fun s₂ hq₂ hf₂ => hmiss ?_ _ s₂ (hq.trans hq₂)) fun err s₂ hq₂ hf₂ =>
          hfault err s₂ hf₂.1 (hq.trans hq₂)
        rintro ⟨d', l', name', p', hfd⟩
        obtain ⟨rfl, rfl⟩ := huniq hfd
        have hbad := hfd.look
        rw [hfd.chain.unique hl, hlook] at hbad
        simp at hbad
      | some p =>
        rw [hlook] at hfind
        rw [← hq.disk] at hfind
        refine hfind.wp_ok hc₁ (fun s₂ hq₂ hf₂ => ?_) fun err s₂ hq₂ hf₂ => hfault err s₂ hf₂.1 (hq.trans hq₂)
        rw [hq.disk]
        exact hfound d l name p s₂ ⟨hn, hl, hlook⟩ (hq.trans hq₂)
    · refine (findEntry_invalid (not_valid_zero g)).wp_error hc₁ (fun s₂ hq₂ hf₂ => hmiss ?_ _ s₂ (hq.trans hq₂))
        fun err s₂ hq₂ hf₂ => hfault err s₂ hf₂.1 (hq.trans hq₂)
      rintro ⟨d', l', name', p', hfd⟩
      obtain ⟨rfl, -⟩ := huniq hfd
      exact not_valid_zero g hfd.chain.start_valid

/-! ## Without failures -/

structure Gone (g : Geometry) (V V' : Volume) (p : Pos) : Prop where
  other : ∀ q, q ≠ p → V'.at q = V.at q
  entry : V'.at p = (V.at p).markDeleted
  fat : ∀ x, (∀ m, Chains g V (some p) m → x ∉ m) → V'.fat x = V.fat x
  free : ∀ x m, Chains g V (some p) m → x ∈ m → V'.fat x = fat32Free

structure Shrunk (g : Geometry) (V V' : Volume) (p : Pos) : Prop where
  regular : Regular g V'
  keeps : ∀ S : Pos → Prop, S p → Keeps g S V V'
  within : Within g V V'
  cover : Covered g V → Covered g V'

theorem Gone.shrunk (h : Gone g V V' p) (hw : Regular g V) (hd : IsDir g V d) (hin : InDir g V d p)
    (hleaf : (V.at p).isDirectory = true → ∀ q, ¬InDir g V (V.at p).cluster q) :
    Shrunk g V V' p := by
  -- first the entry goes, then its chain, which nothing refers to any more
  let W : Volume := ⟨V.fat, V'.slot⟩
  obtain ⟨hkept, hhidden⟩ := markDeleted_hidden (V.at p)
  have hWat : ∀ q, W.at q = V'.at q := fun _ => rfl
  have hret : Retract g V W d p := by
    refine ⟨hd, hin, fun _ => rfl, fun q hq => h.other q hq, ?_, ?_, hleaf⟩
    · rw [hWat, h.entry]
      exact hkept
    · rw [hWat, h.entry]
      exact hhidden
  have hsW := hret.sound hw.sound
  have hout : ∀ x, Owned g W x → ∀ m, Chains g V (some p) m → x ∉ m := fun x hx => ((hret.owned hw.sound).mp hx).2
  have hagree : Agree g W V' := ⟨fun x hx => h.fat x (hout x hx), fun _ _ _ _ _ _ => rfl⟩
  have hrW : Regular g W := ⟨hsW, hret.tidy hw.sound hw.tidy⟩
  refine ⟨hrW.of_agree hagree, fun S hS => (hret.keeps hw.sound hS).trans (hagree.same hsW).keeps,
    (hret.within hw.sound).trans (hagree.same hsW).within, fun hcov x hx hfree hbad => ?_⟩
  have hx' : ∀ m, Chains g V (some p) m → x ∉ m := fun m hm hxm => hfree (h.free x m hm hxm)
  rw [h.fat x hx'] at hfree hbad
  exact ((hagree.same hsW).owned hsW).mpr ((hret.owned hw.sound).mpr ⟨hcov x hx hfree hbad, hx'⟩)

theorem Marked.gone (h : Marked V V' p) (hc : (V.at p).cluster = 0) : Gone g V V' p :=
  ⟨h.other, h.entry, fun x _ => h.fat x, fun x m hm _ => by
    obtain ⟨c, hr, -⟩ := hm
    exact absurd (hr.2.1.symm.trans hc) hr.2.2⟩

theorem InDir.refers (hd : IsDir g V d) (hin : InDir g V d p) (hc : (V.at p).cluster ≠ 0) :
    Refers g V (some p) (V.at p).cluster := ⟨⟨d, hd, hin⟩, rfl, hc⟩

theorem removal_wp (hf : g.Fits dev) (hnot : ¬dev.Faulty) (hc : Coherent g s) (hw : Regular g (vol g s.disk))
    (hfound : Found g (vol g s.disk) path d l name p) (hne : ((vol g s.disk).at p).cluster ≠ 0)
    (hleaf : ((vol g s.disk).at p).isDirectory = true → ∀ q, ¬InDir g (vol g s.disk) ((vol g s.disk).at p).cluster q) :
    wp (do
      freeChain dev g ((vol g s.disk).at p).cluster
      removeDirEntry dev g d name)
      (fun _ s' => Shrunk g (vol g s.disk) (vol g s'.disk) p ∧ Coherent g s')
      (fun _ s' => Shrunk g (vol g s.disk) (vol g s'.disk) p ∧ Coherent g s') s := by
  have hr := hfound.inDir.refers hfound.dir hne
  obtain ⟨m, hm⟩ := hw.sound.chain _ _ hr
  rw [wp_bind]
  refine wp_mono (freeChain_wp hf hm hc) (fun _ s₁ h₁ => ?_) fun err s₁ h₁ => absurd h₁.2.1 hnot
  obtain ⟨hT, hfree, hc₁, -⟩ := h₁
  -- the directory itself is untouched
  obtain ⟨r, hrd⟩ := hfound.dir.refers
  have hne' : d ≠ ((vol g s.disk).at p).cluster := by
    intro he
    have hdir := hw.sound.refers_dir hfound.dir (he ▸ hr)
    exact hleaf hdir p (he ▸ hfound.inDir)
  have hl₁ : Chain g (vol g s₁.disk) d l := by
    refine hfound.chain.congr fun x hx => hT.fat x fun hxm => hne' ?_
    exact hw.sound.start_eq hrd hr hfound.chain hm hx hxm
  have hat : ∀ q, (vol g s₁.disk).at q = (vol g s.disk).at q := fun q => hT.slot (by simp) q.2
  have hlook₁ : lookup g (vol g s₁.disk) l name = some p := by
    rw [← hfound.look]
    unfold lookup
    rw [listing_congr fun q _ => hat q]
    simp only [hat]
  refine wp_mono (removeDirEntry_wp hf hl₁ hc₁ hlook₁) (fun _ s₂ h₂ => ?_) fun err s₂ h₂ => absurd h₂.2.1 hnot
  obtain ⟨hmark, hc₂, -⟩ := h₂
  have hchains : ∀ m', Chains g (vol g s.disk) (some p) m' → m' = m :=
    fun m' hm' => hm'.functional ⟨_, hr, hm⟩
  have hgone : Gone g (vol g s.disk) (vol g s₂.disk) p := by
    refine ⟨fun q hq => by rw [hmark.other q hq, hat], by rw [hmark.entry, hat], fun x hx => ?_, fun x m' hm' hx => ?_⟩
    · rw [hmark.fat, hT.fat x (hx m ⟨_, hr, hm⟩)]
    · rw [hmark.fat]
      exact hfree x (hchains m' hm' ▸ hx)
  exact ⟨hgone.shrunk hw hfound.dir hfound.inDir hleaf, hc₂⟩

/-- The path names a file with a chain. -/
def UnlinkFrees (g : Geometry) (V : Volume) (path : List Byte) : Prop :=
  ∃ d l name p, Found g V path d l name p ∧ (V.at p).isDirectory = false ∧ (V.at p).cluster ≠ 0

/-- The path names a directory with a chain and without visible entries. -/
def RmdirFrees (g : Geometry) (V : Volume) (path : List Byte) : Prop :=
  ∃ d l name p, Found g V path d l name p ∧ (V.at p).isDirectory = true ∧ (V.at p).cluster ≠ 0 ∧
    ∀ q, ¬InDir g V (V.at p).cluster q

def LeadsTo (g : Geometry) (V : Volume) (path : List Byte) (dir : Bool) (p : Pos) : Prop :=
  (V.at p).isDirectory = dir ∧ ∃ d l name, Found g V path d l name p

/-- What a call leaves behind: a sound volume if it frees nothing; if no request fails a regular one
with all entries but those in `S`, and no cluster is lost. -/
structure Removal (dev : Device) (g : Geometry) (frees : Prop) (S : Pos → Prop) (V : Volume) (s' : FatState) : Prop where
  sound : ¬frees → Sound g (vol g s'.disk)
  regular : ¬dev.Faulty → Regular g (vol g s'.disk) ∧ Coherent g s' ∧ Keeps g S V (vol g s'.disk)
  within : ¬dev.Faulty → Within g V (vol g s'.disk)
  cover : ¬dev.Faulty → Covered g V → Covered g (vol g s'.disk)

theorem Quiet.removal {frees : Prop} {S : Pos → Prop} (h : Quiet g s s') (hw : Regular g (vol g s.disk))
    (hc : Coherent g s) : Removal dev g frees S (vol g s.disk) s' :=
  ⟨fun _ => h.disk ▸ hw.sound, fun _ => ⟨h.disk ▸ hw, h.coherent hc, fun p hp _ => by rw [h.disk]; exact ⟨hp, rfl⟩⟩,
    fun _ => by rw [h.disk]; exact (Same.refl g _).within, fun _ hcov => h.disk ▸ hcov⟩

theorem Shrunk.removal {frees : Prop} {S : Pos → Prop} {V : Volume} (h : Shrunk g V (vol g s'.disk) p) (hS : S p)
    (hc : Coherent g s') : Removal dev g frees S V s' :=
  ⟨fun _ => h.regular.sound, fun _ => ⟨h.regular, hc, h.keeps S hS⟩, fun _ => h.within, fun _ => h.cover⟩

theorem unlink_wp (hf : g.Fits dev) (hc : Coherent g s) (hw : Regular g (vol g s.disk)) (path : List Byte) :
    wp (unlink dev g path) (fun _ s' => Removal dev g (UnlinkFrees g (vol g s.disk) path)
        (LeadsTo g (vol g s.disk) path false) (vol g s.disk) s')
      (fun _ s' => Removal dev g (UnlinkFrees g (vol g s.disk) path)
        (LeadsTo g (vol g s.disk) path false) (vol g s.disk) s') s := by
  refine resolveFound_wp (m := fun parent child e => do
    ensure (e.isDirectory = false) .invalid
    freeIfPresent dev g e.cluster
    removeDirEntry dev g parent child) hf hc hw.sound (fun _ _ s₁ hq => hq.removal hw hc)
    (fun _ s₁ _ hq => hq.removal hw hc) fun d l name p s₁ hfound hq => ?_
  rw [wp_bind, wp_ensure]
  split
  · rename_i hfile
    have hc₁ := hq.coherent hc
    rw [← hq.disk] at hw hfound hfile ⊢
    have hleads : LeadsTo g (vol g s₁.disk) path false p := ⟨hfile, d, l, name, hfound⟩
    by_cases hcl : ((vol g s₁.disk).at p).cluster = 0
    · rw [wp_bind, freeIfPresent, if_neg (by omega), wp_pure]
      have hdone : ∀ {s₂ : FatState}, Marked (vol g s₁.disk) (vol g s₂.disk) p →
          Shrunk g (vol g s₁.disk) (vol g s₂.disk) p :=
        fun hmark => (hmark.gone hcl).shrunk hw hfound.dir hfound.inDir fun h => by simp [hfile] at h
      refine wp_mono (removeDirEntry_wp hf hfound.chain hc₁ hfound.look) (fun _ s₂ h₂ => ?_) fun err s₂ h₂ => ?_
      · exact (hdone h₂.1).removal hleads h₂.2.1
      · refine ⟨fun _ => ?_, fun hnot => absurd h₂.2.1 hnot, fun hnot => absurd h₂.2.1 hnot,
          fun hnot => absurd h₂.2.1 hnot⟩
        rcases h₂.1 with h | h
        · exact h ▸ hw.sound
        · exact (hdone h).regular.sound
    · have hfrees : UnlinkFrees g (vol g s₁.disk) path := ⟨d, l, name, p, hfound, hfile, hcl⟩
      obtain ⟨m, hm⟩ := hw.sound.chain _ _ (hfound.inDir.refers hfound.dir hcl)
      rw [freeIfPresent, if_pos hm.start_valid.1]
      by_cases hnot : dev.Faulty
      · refine wp_left.mpr ⟨fun h => absurd hfrees h, fun h => absurd hnot h, fun h => absurd hnot h, fun h => absurd hnot h⟩
      · exact wp_mono (removal_wp hf hnot hc₁ hw hfound hcl fun h => by simp [hfile] at h)
          (fun _ s₂ h₂ => h₂.1.removal hleads h₂.2) fun _ s₂ h₂ => h₂.1.removal hleads h₂.2
  · exact hq.removal hw hc

theorem rmdir_wp (hf : g.Fits dev) (hc : Coherent g s) (hw : Regular g (vol g s.disk)) (path : List Byte) :
    wp (rmdir dev g path) (fun _ s' => Removal dev g (RmdirFrees g (vol g s.disk) path)
        (LeadsTo g (vol g s.disk) path true) (vol g s.disk) s')
      (fun _ s' => Removal dev g (RmdirFrees g (vol g s.disk) path)
        (LeadsTo g (vol g s.disk) path true) (vol g s.disk) s') s := by
  refine resolveFound_wp (m := fun parent child e => do
    ensure (e.isDirectory = true) .invalid
    let empty ← isEmptyDir dev g e.cluster
    ensure (empty = true) .notEmpty
    freeChain dev g e.cluster
    removeDirEntry dev g parent child) hf hc hw.sound (fun _ _ s₁ hq => hq.removal hw hc)
    (fun _ s₁ _ hq => hq.removal hw hc) fun d l name p s₁ hfound hq => ?_
  rw [wp_bind, wp_ensure]
  split
  · rename_i hdir
    have hc₁ := hq.coherent hc
    rw [← hq.disk] at hw hfound hdir ⊢
    rw [wp_bind]
    by_cases hcl : ((vol g s₁.disk).at p).cluster = 0
    · have hbad : Reads dev g s₁.disk (isEmptyDir dev g ((vol g s₁.disk).at p).cluster) (.error .badFs) := by
        unfold isEmptyDir
        exact Reads.bind_error (walkChain_invalid rfl (by rw [hcl]; exact not_valid_zero g))
      exact hbad.wp_error hc₁ (fun s₂ hq₂ _ => hq₂.removal hw hc₁) fun _ s₂ hq₂ _ => hq₂.removal hw hc₁
    · have hr := hfound.inDir.refers hfound.dir hcl
      have hd' : IsDir g (vol g s₁.disk) ((vol g s₁.disk).at p).cluster :=
        hfound.dir.tail ⟨p, hfound.inDir, hdir, rfl, hcl⟩
      obtain ⟨m, hm⟩ := hw.sound.chain _ _ hr
      obtain ⟨empty, hempty, hiff⟩ := isEmptyDir_reads hf hw.tidy hd' hm
      refine hempty.wp_ok hc₁ (fun s₂ hq₂ _ => ?_) fun _ s₂ hq₂ _ => hq₂.removal hw hc₁
      rw [wp_bind, wp_ensure]
      split
      · rename_i htrue
        have hleaf := hiff.mp htrue
        have hc₂ := hq₂.coherent hc₁
        rw [← hq₂.disk] at hw hfound hleaf hdir hcl ⊢
        have hleads : LeadsTo g (vol g s₂.disk) path true p := ⟨hdir, d, l, name, hfound⟩
        have hfrees : RmdirFrees g (vol g s₂.disk) path := ⟨d, l, name, p, hfound, hdir, hcl, hleaf⟩
        by_cases hnot : dev.Faulty
        · refine wp_left.mpr ⟨fun h => absurd hfrees h, fun h => absurd hnot h, fun h => absurd hnot h, fun h => absurd hnot h⟩
        · exact wp_mono (removal_wp hf hnot hc₂ hw hfound hcl fun _ => hleaf)
            (fun _ s₃ h₃ => h₃.1.removal hleads h₃.2) fun _ s₃ h₃ => h₃.1.removal hleads h₃.2
      · exact hq₂.removal hw hc₁
  · exact hq.removal hw hc

/-! ## Torn writes -/

theorem writeSector_torn {lba : ℕ} {data : Sector} (ht : Torn dev) (hr : dev.inRange lba 1) :
    wp (dev.writeSector lba data) (fun _ _ => False)
      (fun _ s' => ∃ d, s' = { s.serve.fault d with disk := putSector s.disk lba data true }) s := by
  obtain ⟨d, reached, hw, hreach⟩ := ht.writes s.served
  have hput : writeAt s.disk lba (fun _ => data) reached 1 = putSector s.disk lba data true := by
    funext a
    rw [writeAt_apply, putSector]
    by_cases ha : a = lba
    · simp [ha, hreach]
    · rw [if_neg (by omega), if_neg (by simp [ha])]
  unfold wp Device.writeSector Device.write
  rw [if_pos hr, hw]
  exact ⟨d, by rw [hput]⟩

theorem writeCopies_torn {sector : ℕ} (ht : Torn dev) (hf : g.Fits dev) (hs : g.InFat sector) (data : Sector) :
    wp (writeCopies dev g sector data g.fatCount 0) (fun _ _ => False)
      (fun _ s' => Stored g sector data true s s' ∧ ∃ rest, s'.faults = s.faults ++ rest) s := by
  obtain ⟨n, hn⟩ : ∃ n, g.fatCount = n + 1 := ⟨g.fatCount - 1, by have := g.fatCount_pos; omega⟩
  rw [hn]
  unfold writeCopies
  rw [wp_bind]
  refine wp_mono (writeSector_torn ht (Geometry.copyLba_inRange hf hs (by omega))) (fun _ _ h => h.elim) fun _ s₁ h₁ => ?_
  obtain ⟨d, rfl⟩ := h₁
  refine ⟨⟨fun lba _ => ?_, rfl, rfl, rfl⟩, [d], rfl⟩
  rw [← g.copyLba_zero hs]

theorem writeEntry_torn (ht : Torn dev) (hf : g.Fits dev) (hv : g.Valid c) (hc : Coherent g s)
    (hclean : s.bufferDirty = false) (v : ℕ) :
    wp (writeEntry dev g c v) (fun _ _ => False)
      (fun _ s' => (vol g s'.disk).fat c = v % 2 ^ 28 ∧ Touched g (· = c) (fun _ => False) s s') s := by
  have hin := g.fatSector_inFat hv
  have hwrite : ∀ s₁ : FatState, s₁.disk = s.disk → Coherent g s₁ → s₁.bufferSector = g.fatSector c →
      wp (do
        update fun s => s.putEntry (entOffset c) v
        let s ← state
        writeCopies dev g (g.fatSector c) s.buffer g.fatCount 0
        update fun s => { s with bufferDirty := false }) (fun _ _ => False)
        (fun _ s' => (vol g s'.disk).fat c = v % 2 ^ 28 ∧ Touched g (· = c) (fun _ => False) s s') s₁ := by
    intro s₁ hd₁ hc₁ hb₁
    have hview : ∀ x, g.Valid x → x ≠ c → view g (s₁.putEntry (entOffset c) v) x =
        fatWord g (s₁.putEntry (entOffset c) v).disk x := by
      intro x hx hxc
      rw [(view_putEntry hv hb₁ v hx).1 hxc]
      exact hc₁.words x hx trivial
    rw [wp_bind, wp_update, wp_bind, wp_state, wp_bind]
    refine wp_mono (writeCopies_torn ht hf hin _) (fun _ _ h => h.elim) fun _ s₂ h₂ => ?_
    obtain ⟨hst, hgrow⟩ := h₂
    obtain ⟨hshow, hword⟩ := hst.putEntry hv hb₁
    rw [if_pos rfl] at hword
    have hk : Kept g (fun x => x ≠ c) (s₁.putEntry (entOffset c) v) s₂ := hst.kept hin hb₁ hview hgrow
    have hT : Touched g (· = c) (fun _ => False) (s₁.putEntry (entOffset c) v) s₂ := hk.touched fun x hx => hx
    refine ⟨by rw [vol_fat _ hv, hword, hshow], ⟨fun x hx => ?_, fun x i hx hi hD => ?_⟩⟩
    · rw [← hd₁]
      exact hT.fat x hx
    · rw [← hd₁]
      exact hT.data x i hx hi hD
  unfold writeEntry
  rw [wp_bind, wp_ensure, if_pos ((g.validCluster_iff c).mpr hv), wp_bind]
  unfold switchSector
  rw [wp_bind, wp_state]
  split
  · have hflush : wp (flushBuffer dev g) (fun _ s' => s' = s) (fun _ _ => False) s := by
      unfold flushBuffer
      rw [wp_bind, wp_state, if_neg (by simp [hclean])]
      exact rfl
    rw [wp_bind]
    refine wp_mono hflush (fun _ s₁ h₁ => ?_) fun _ _ h => h.elim
    subst h₁
    refine wp_mono (loadSector_wp hf hin) (fun _ s₂ h₂ => ?_) fun _ _ h => absurd h.2.1 ht.reads
    exact hwrite s₂ h₂.disk ((h₂.quiet hin).coherent hc) h₂.bufferSector
  · rename_i he
    exact hwrite s rfl hc (not_not.mp he).symm

theorem freeChain_torn (ht : Torn dev) (hf : g.Fits dev) (hl : Chain g (vol g s.disk) c l) (hc : Coherent g s)
    (hclean : s.bufferDirty = false) :
    wp (freeChain dev g c) (fun _ _ => False)
      (fun _ s' => (vol g s'.disk).fat c = fat32Free ∧ Touched g (· = c) (fun _ => False) s s') s := by
  have hv := hl.start_valid
  unfold freeChain
  rw [wp_bind]
  refine walkChain_wp hf (I := fun _ _ s₁ => Quiet g s s₁) (l := l) ?_ () (Quiet.refl s)
  constructor
  · intro done acc s₁ hq
    exact ⟨hq.coherent hc, hq.disk ▸ hl⟩
  · intro done acc s₁ s₂ hq hq' _
    exact hq.trans hq'
  · intro done acc s₁ err s₂ _ _ hfault
    exact absurd hfault.1 ht.reads
  · intro done x rest acc s₁ _ _ hq
    exact hq
  · intro done rest acc s₁ _ _ hq
    unfold freeLoop
    rw [if_pos hv.lt_eoc, wp_bind]
    refine (reads_entry hf hv).wp_ok (hq.coherent hc) (fun s₂ hq₂ _ => ?_) fun _ _ _ hfault => absurd hfault.1 ht.reads
    rw [wp_bind]
    have hq' := hq.trans hq₂
    refine wp_mono (writeEntry_torn ht hf hv (hq'.coherent hc) (hq'.dirty.trans hclean) fat32Free) (fun _ _ h => h.elim)
      fun _ s₃ h₃ => ⟨h₃.1, hq'.touched.trans h₃.2⟩

/-! ## Dangling references -/

theorem visible_of_cut (hs : Sound g V) (hd : IsDir g V d) (hin : InDir g V d p) (hc : (V.at p).cluster ≠ 0)
    (hleaf : (V.at p).isDirectory = true → ∀ q, ¬InDir g V (V.at p).cluster q)
    (hfat : ∀ x, x ≠ (V.at p).cluster → V'.fat x = V.fat x) (hat : ∀ q, V'.at q = V.at q) : Visible g V' p := by
  have hr := hin.refers hd hc
  obtain ⟨m, hm⟩ := hs.chain _ _ hr
  have hkeep : ∀ {b q}, IsDir g V b → InDir g V b q → InDir g V' b q := by
    intro b q hb hq
    have hne : b ≠ (V.at p).cluster := by
      rintro rfl
      exact hleaf (hs.refers_dir hb hr) q hq
    obtain ⟨k, hk, hmem, hvis⟩ := hq
    obtain ⟨r, hrb⟩ := hb.refers
    refine ⟨k, hk.congr fun x hx => hfat x fun hxc => hne ?_, ?_, hat q ▸ hvis⟩
    · exact hs.start_eq hrb hr hk hm hx (hxc ▸ hm.mem_start)
    · rw [listing_congr fun q _ => hat q]
      exact hmem
  have hdir : ∀ b, IsDir g V b → IsDir g V' b := by
    intro b hb
    induction hb with
    | refl => exact IsDir.root
    | tail hb hchild ih =>
      obtain ⟨q, hq, hrest⟩ := hchild
      rw [← hat q] at hrest
      exact ih.tail ⟨q, hkeep hb hq, hrest⟩
  exact ⟨d, hdir d hd, hkeep hd hin⟩

theorem not_noDangling_of_cut (hs : Sound g (vol g s.disk)) (hfound : Found g (vol g s.disk) path d l name p)
    (hc : ((vol g s.disk).at p).cluster ≠ 0)
    (hleaf : ((vol g s.disk).at p).isDirectory = true → ∀ q, ¬InDir g (vol g s.disk) ((vol g s.disk).at p).cluster q)
    (hfree : (vol g s'.disk).fat ((vol g s.disk).at p).cluster = fat32Free)
    (hT : Touched g (· = ((vol g s.disk).at p).cluster) (fun _ => False) s s') :
    ¬NoDangling g (vol g s'.disk) := by
  intro hno
  have hat : ∀ q, (vol g s'.disk).at q = (vol g s.disk).at q := fun q => hT.slot (by simp) q.2
  have hvis := visible_of_cut hs hfound.dir hfound.inDir hc hleaf (fun x hx => hT.fat x hx) hat
  obtain ⟨m, hm, -⟩ := hno p hvis (by rw [hat]; exact hc)
  rw [hat] at hm
  exact (hm.fat_ne hm.mem_start).1 hfree

section

variable (ht : Torn dev) (hf : g.Fits dev) (hc : Coherent g s) (hclean : s.bufferDirty = false) (hw : WellFormed g (vol g s.disk))
include ht hf hc hclean hw

theorem unlink_torn (hfrees : UnlinkFrees g (vol g s.disk) path) :
    ¬NoDangling g (vol g (unlink dev g path s).2.disk) := by
  obtain ⟨d, l, name, p, hfound, hfile, hcl⟩ := hfrees
  have hleaf : ((vol g s.disk).at p).isDirectory = true → ∀ q, ¬InDir g (vol g s.disk) ((vol g s.disk).at p).cluster q :=
    fun h => by simp [hfile] at h
  suffices hwp : wp (unlink dev g path) (fun _ s' => ¬NoDangling g (vol g s'.disk))
      (fun _ s' => ¬NoDangling g (vol g s'.disk)) s from wp_left.mp hwp
  refine resolveFound_wp (m := fun parent child e => do
    ensure (e.isDirectory = false) .invalid
    freeIfPresent dev g e.cluster
    removeDirEntry dev g parent child) hf hc hw.sound (fun h => absurd ⟨d, l, name, p, hfound⟩ h)
    (fun _ _ h => absurd h ht.reads) fun d' l' name' p' s₁ hfound' hq => ?_
  obtain ⟨-, -, rfl⟩ := hfound.unique hfound'
  obtain ⟨m, hm⟩ := hw.sound.chain _ _ (hfound.inDir.refers hfound.dir hcl)
  rw [wp_bind, wp_ensure, if_pos hfile, wp_bind, freeIfPresent, if_pos hm.start_valid.1]
  have hm₁ : Chain g (vol g s₁.disk) ((vol g s.disk).at p).cluster m := by
    rw [hq.disk]
    exact hm
  refine wp_mono (freeChain_torn ht hf hm₁ (hq.coherent hc) (hq.dirty.trans hclean)) (fun _ _ h => h.elim)
    fun _ s₂ h₂ => ?_
  exact not_noDangling_of_cut hw.sound hfound hcl hleaf h₂.1 (hq.touched.trans h₂.2)

theorem rmdir_torn (hfrees : RmdirFrees g (vol g s.disk) path) :
    ¬NoDangling g (vol g (rmdir dev g path s).2.disk) := by
  obtain ⟨d, l, name, p, hfound, hdir, hcl, hleaf⟩ := hfrees
  suffices hwp : wp (rmdir dev g path) (fun _ s' => ¬NoDangling g (vol g s'.disk))
      (fun _ s' => ¬NoDangling g (vol g s'.disk)) s from wp_left.mp hwp
  refine resolveFound_wp (m := fun parent child e => do
    ensure (e.isDirectory = true) .invalid
    let empty ← isEmptyDir dev g e.cluster
    ensure (empty = true) .notEmpty
    freeChain dev g e.cluster
    removeDirEntry dev g parent child) hf hc hw.sound (fun h => absurd ⟨d, l, name, p, hfound⟩ h)
    (fun _ _ h => absurd h ht.reads) fun d' l' name' p' s₁ hfound' hq => ?_
  obtain ⟨-, -, rfl⟩ := hfound.unique hfound'
  have hd' : IsDir g (vol g s.disk) ((vol g s.disk).at p).cluster :=
    hfound.dir.tail ⟨p, hfound.inDir, hdir, rfl, hcl⟩
  obtain ⟨m, hm⟩ := hw.sound.chain _ _ (hfound.inDir.refers hfound.dir hcl)
  obtain ⟨empty, hempty, hiff⟩ := isEmptyDir_reads hf hw.tidy hd' hm
  rw [wp_bind, wp_ensure, if_pos hdir, wp_bind]
  have hempty₁ : Reads dev g s₁.disk (isEmptyDir dev g ((vol g s.disk).at p).cluster) (.ok empty) := by
    rw [hq.disk]
    exact hempty
  refine hempty₁.wp_ok (hq.coherent hc) (fun s₂ hq₂ _ => ?_) fun _ _ _ h => absurd h.1 ht.reads
  have hq' := hq.trans hq₂
  rw [wp_bind, wp_ensure, if_pos (hiff.mpr hleaf), wp_bind]
  have hm₂ : Chain g (vol g s₂.disk) ((vol g s.disk).at p).cluster m := by
    rw [hq'.disk]
    exact hm
  refine wp_mono (freeChain_torn ht hf hm₂ (hq'.coherent hc) (hq'.dirty.trans hclean)) (fun _ _ h => h.elim)
    fun _ s₃ h₃ => ?_
  exact not_noDangling_of_cut hw.sound hfound hcl (fun _ => hleaf) h₃.1 (hq'.touched.trans h₃.2)

end

/-- With a clean cache `unlink` and `rmdir` keep every reference intact, whatever requests fail,
exactly on the paths for which they free nothing. -/
theorem removal_noDangling_iff (g : Geometry) (s : FatState) (path : List Byte) (hclean : s.bufferDirty = false)
    (hc : Coherent g s) (hw : WellFormed g (vol g s.disk)) :
    ((∀ dev, g.Fits dev → NoDangling g (vol g (unlink dev g path s).2.disk)) ↔
      ¬UnlinkFrees g (vol g s.disk) path) ∧
    ((∀ dev, g.Fits dev → NoDangling g (vol g (rmdir dev g path s).2.disk)) ↔
      ¬RmdirFrees g (vol g s.disk) path) := by
  have ht := tornDevice_torn g
  have hf := tornDevice_fits g
  refine ⟨⟨fun h hfrees => unlink_torn ht hf hc hclean hw hfrees (h _ hf), fun h dev hdev => ?_⟩,
    ⟨fun h hfrees => rmdir_torn ht hf hc hclean hw hfrees (h _ hf), fun h dev hdev => ?_⟩⟩
  · have hr : Removal dev g (UnlinkFrees g (vol g s.disk) path) (LeadsTo g (vol g s.disk) path false) (vol g s.disk)
        (unlink dev g path s).2 := wp_left.mp (unlink_wp hdev hc hw.toRegular path)
    exact (hr.sound h).noDangling
  · have hr : Removal dev g (RmdirFrees g (vol g s.disk) path) (LeadsTo g (vol g s.disk) path true) (vol g s.disk)
        (rmdir dev g path s).2 := wp_left.mp (rmdir_wp hdev hc hw.toRegular path)
    exact (hr.sound h).noDangling

theorem sample_found : Found sampleGeometry (vol sampleGeometry sampleState.disk) [slash, 0x41] 2 [2] [0x41] (2, 0) :=
  ⟨⟨Or.inl IsDir.root, [[0x41]], by decide, .nil _, rfl⟩, chain_single (by decide) (by decide), by decide⟩

/-- The file "A" of the sample volume: its only cluster is free on the disk, its entry still there. -/
theorem unlink_dangling_sample :
    ¬NoDangling sampleGeometry (vol sampleGeometry (unlink (tornDevice sampleGeometry) sampleGeometry [slash, 0x41]
      sampleState).2.disk) :=
  unlink_torn (tornDevice_torn _) (tornDevice_fits _) (coherent_of_invalid rfl) rfl sample_wellFormed
    ⟨2, [2], [0x41], (2, 0), sample_found, by decide, by decide⟩

/-- `rmdir` of the file frees nothing. -/
theorem removal_noDangling_sample :
    NoDangling sampleGeometry (vol sampleGeometry (rmdir (tornDevice sampleGeometry) sampleGeometry [slash, 0x41]
      sampleState).2.disk) := by
  refine (removal_noDangling_iff sampleGeometry sampleState [slash, 0x41] rfl (coherent_of_invalid rfl)
    sample_wellFormed).2.mpr ?_ _ (tornDevice_fits _)
  rintro ⟨d, l, name, p, hfound, hdir, -⟩
  obtain ⟨-, -, rfl⟩ := sample_found.unique hfound
  revert hdir
  decide

end Zonix.Fat
