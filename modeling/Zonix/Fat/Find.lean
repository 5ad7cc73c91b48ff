import Zonix.Fat.Names
import Zonix.Fat.Runs

/-! # Finding what was created

What `mkdir` and `create_file` do to later lookups, on a device that serves every request. -/

namespace Zonix.Fat

open Prog Pointer

variable {dev : Device} {g : Geometry} {s s' : FatState} {V W V' : Volume} {c d : ℕ} {l : List ℕ} {p q : Pos}
  {name path : List Byte} {A B : List Pos}

/-! ## Lookups -/

theorem find?_unique {α : Type} {f : α → Bool} {a : α} {l : List α} (ha : a ∈ l) (hfa : f a = true)
    (h : ∀ b ∈ l, f b = true → b = a) : l.find? f = some a := by
  cases hfind : l.find? f with
  | none =>
    have hnone := List.find?_eq_none.mp hfind a ha
    exact absurd hfa hnone
  | some b => rw [h b (List.mem_of_find?_eq_some hfind) (List.find?_some hfind)]

theorem find?_same {α : Type} {f f' : α → Bool} {l : List α} (h : ∀ a ∈ l, f' a = f a) : l.find? f' = l.find? f := by
  induction l with
  | nil => rfl
  | cons a l ih => rw [List.find?_cons, List.find?_cons, h a (by simp), ih fun b hb => h b (by simp [hb])]

theorem lookup_eq {m : List ℕ} (hlist : listing g V' l = listing g V m) (hat : ∀ p ∈ listing g V m, V'.at p = V.at p) :
    lookup g V' l name = lookup g V m name := by
  unfold lookup
  rw [hlist]
  exact find?_same fun p hp => by rw [hat p hp]

theorem SameList.lookup (h : SameList g V V') (hd : IsDir g V d) (hl : Chain g V d l) :
    ∃ l', Chain g V' d l' ∧ (∀ name, lookup g V' l' name = lookup g V l name) ∧
      ∀ p ∈ listing g V l, V'.at p = V.at p := by
  obtain ⟨l', hl', hlist, hat⟩ := h.list d l hd hl
  exact ⟨l', hl', fun name => lookup_eq hlist hat, hat⟩

theorem hidden_unmatched {e : FatDirEntry} (hv : e.isVisible = false) (hn : GoodName name) :
    (e.isValid && decide (e.entryName = name)) = false := by
  unfold FatDirEntry.isVisible at hv
  cases hvalid : e.isValid with
  | false => simp
  | true =>
    have hdot : e.isDot = true := by simpa [hvalid] using hv
    have hbad := FatDirEntry.isDot_entryName hdot
    have hne : e.entryName ≠ name := by
      rintro rfl
      exact hbad hn
    simp [hne]

namespace Placed

theorem lookup_new (h : Placed g V V' d l A p B) (hnone : Fat.lookup g V l name = none)
    (hvalid : (V'.at p).isValid = true) (hname : (V'.at p).entryName = name) : Fat.lookup g V' l name = some p := by
  refine find?_unique (h.mem_listing.mpr (Or.inr rfl)) (by simp [hvalid, hname]) fun q hq hmatch => ?_
  by_contra hqp
  have hqV := (h.mem_listing.mp hq).resolve_right hqp
  rw [h.at_listing hqV hqp] at hmatch
  exact absurd hmatch (List.find?_eq_none.mp hnone q hqV)

theorem lookup_old (h : Placed g V V' d l A p B) (hn : GoodName name) (hq : Fat.lookup g V l name = some q)
    (hne : (V'.at p).entryName ≠ name) : Fat.lookup g V' l name = some q := by
  have hsame : ∀ q ∈ listing g V l, ((V'.at q).isValid && decide ((V'.at q).entryName = name)) =
      ((V.at q).isValid && decide ((V.at q).entryName = name)) := by
    intro q hq
    by_cases hqp : q = p
    · rw [hqp, hidden_unmatched h.hidden hn]
      simp [hne]
    · rw [h.at_listing hq hqp]
  unfold Fat.lookup at hq ⊢
  rcases h.listing_cases with ⟨hold, hnew, -⟩ | ⟨-, hend⟩
  · rw [hnew, List.find?_append, ← hold, find?_same hsame, hq]
    rfl
  · rw [(listing_congr_end hend).1, find?_same hsame, hq]

end Placed

/-! ## Paths -/

structure KeepsLookup (g : Geometry) (V V' : Volume) : Prop where
  isDir : ∀ d, IsDir g V d → IsDir g V' d
  look : ∀ d l name q, IsDir g V d → Chain g V d l → GoodName name → lookup g V l name = some q →
    ∃ l', Chain g V' d l' ∧ lookup g V' l' name = some q ∧ V'.at q = V.at q

theorem SameList.keepsLookup (h : SameList g V V') : KeepsLookup g V V' := by
  refine ⟨fun d hd => (h.isDir d).mpr hd, fun d l name q hd hl hn hq => ?_⟩
  obtain ⟨l', hl', hlook, hat⟩ := h.lookup hd hl
  exact ⟨l', hl', (hlook name).trans hq, hat q (lookup_spec hq hn).1⟩

theorem KeepsLookup.trans (h : KeepsLookup g V W) (h' : KeepsLookup g W V') : KeepsLookup g V V' := by
  refine ⟨fun d hd => h'.isDir d (h.isDir d hd), fun d l name q hd hl hn hq => ?_⟩
  obtain ⟨m, hm, hlook, hat⟩ := h.look d l name q hd hl hn hq
  obtain ⟨m', hm', hlook', hat'⟩ := h'.look d m name q (h.isDir d hd) hm hn hlook
  exact ⟨m', hm', hlook', hat'.trans hat⟩

theorem Publish.keepsLookup (h : Publish g V V' d l A p B) (hs : Sound g V)
    (hnone : lookup g V l (V'.at p).entryName = none) : KeepsLookup g V V' := by
  refine ⟨fun e he => (h.isDir hs e).mpr (Or.inl he), fun e m name q he hm hn hq => ?_⟩
  refine ⟨m, h.chain_same.mpr hm, ?_⟩
  have hin : InDir g V e q := ⟨m, hm, (lookup_spec hq hn).1, (lookup_spec hq hn).2.1⟩
  refine ⟨?_, h.at_inDir hs he hin⟩
  by_cases hed : e = d
  · obtain rfl := hed
    obtain rfl := h.chain.unique hm
    refine h.toPlaced.lookup_old hn hq fun hname => ?_
    rw [hname, hq] at hnone
    simp at hnone
  · have hslot := h.at_other hs he hm hed
    rw [lookup_eq (listing_congr hslot) fun q hq => hslot q (mem_of_listing hq), hq]

theorem Resolves.keep {parts : List (List Byte)} {d d' : ℕ} (h : Resolves g V d parts d') (hk : KeepsLookup g V V')
    (hparts : ∀ part ∈ parts, GoodName part) (hd : IsDir g V d ∨ d = 0) :
    Resolves g V' d parts d' ∧ (IsDir g V d' ∨ d' = 0) := by
  induction h with
  | nil d => exact ⟨.nil d, hd⟩
  | @cons d d' l part p parts chain found isDirectory rest ih =>
    have hdir : IsDir g V d := by
      rcases hd with hd | rfl
      · exact hd
      · exact absurd chain.start_valid (not_valid_zero g)
    have hgood := hparts part (by simp)
    obtain ⟨hmem, hvis, -⟩ := lookup_spec found hgood
    obtain ⟨l', hl', hlook, hat⟩ := hk.look d l part p hdir chain hgood found
    have hchild : IsDir g V (V.at p).cluster ∨ (V.at p).cluster = 0 := by
      by_cases hc : (V.at p).cluster = 0
      · exact Or.inr hc
      · exact Or.inl (hdir.tail ⟨p, ⟨l, chain, hmem, hvis⟩, isDirectory, rfl, hc⟩)
    obtain ⟨hres, hlast⟩ := ih (fun part hpart => hparts part (by simp [hpart])) hchild
    exact ⟨.cons hl' hlook (hat ▸ isDirectory) (hat ▸ hres), hlast⟩

theorem Names.keep (h : Names g V path d name) (hk : KeepsLookup g V V') : Names g V' path d name := by
  obtain ⟨parts, hparse, hres, hname⟩ := h.parts
  obtain ⟨hne, hmem⟩ := parsePath_mem hparse
  have hgood : ∀ part ∈ parts.dropLast, GoodName part := fun part hp => (hmem part (List.mem_of_mem_dropLast hp)).1
  obtain ⟨hres', -⟩ := hres.keep hk hgood (Or.inl IsDir.root)
  refine ⟨?_, parts, hparse, hres', hname⟩
  rcases h.dir with hd | hd
  · exact Or.inl (hk.isDir d hd)
  · exact Or.inr hd

theorem Found.keep (h : Found g V path d l name p) (hk : KeepsLookup g V V') :
    ∃ l', Found g V' path d l' name p ∧ V'.at p = V.at p := by
  obtain ⟨l', hl', hlook, hat⟩ := hk.look d l name p h.dir h.chain h.names.part.1 h.look
  exact ⟨l', ⟨h.names.keep hk, hl', hlook⟩, hat⟩

/-! ## The calls themselves -/

theorem Reads.result {α : Type} {m : FatM α} {r : Except Error α} (h : Reads dev g s.disk m r) (hc : Coherent g s)
    (hnot : ¬dev.Faulty) : (m s).1 = r := by
  have hrun := h s rfl hc
  unfold wp at hrun
  rcases hms : m s with ⟨r', s'⟩
  rw [hms] at hrun
  cases r' with
  | ok a => exact hrun.1.symm
  | error e =>
    rcases hrun.2 with ⟨hr, -⟩ | hfault
    · exact hr.symm
    · exact absurd (Or.inl hfault.1) hnot

theorem findFile_reads {disk : ℕ → Sector} (hf : g.Fits dev) (hs : Sound g (vol g disk))
    (h : Found g (vol g disk) path d l name p) :
    Reads dev g disk (findFile dev g path) (.ok ((vol g disk).at p)) := by
  obtain ⟨r, hr, hnames⟩ := resolveParent_reads hf hs path
  rw [(hnames d name).mpr h.names] at hr
  have hfind := findEntry_reads hf h.chain name
  rw [findResult, h.look] at hfind
  rw [findFile_eq]
  exact Reads.bind hr hfind

/-- `find_file` returns the entry in the slot `p`. -/
def ResolvesTo (dev : Device) (g : Geometry) (s : FatState) (path : List Byte) (p : Pos) : Prop :=
  (∃ d l name, Found g (vol g s.disk) path d l name p) ∧ (findFile dev g path s).1 = .ok ((vol g s.disk).at p)

theorem Found.resolvesTo (h : Found g (vol g s.disk) path d l name p) (hf : g.Fits dev) (hnot : ¬dev.Faulty)
    (hs : Healthy g s) : ResolvesTo dev g s path p :=
  ⟨⟨d, l, name, h⟩, (findFile_reads hf hs.regular.sound h).result hs.coherent hnot⟩

theorem exists_resolvesTo {e : FatDirEntry} (hf : g.Fits dev) (hnot : ¬dev.Faulty) (hs : Healthy g s)
    (h : (findFile dev g path s).1 = .ok e) : ∃ p, ResolvesTo dev g s path p ∧ (vol g s.disk).at p = e := by
  obtain ⟨-, d, l, name, p, hfound, hat⟩ := wp_fst (findFile_wp hf hs.coherent hs.regular.sound) h
  exact ⟨p, hfound.resolvesTo hf hnot hs, hat⟩

theorem exists_reads {disk : ℕ → Sector} (hf : g.Fits dev) (hs : Sound g (vol g disk))
    (h : Found g (vol g disk) path d l name p) (m : ℕ → List Byte → FatM Unit) :
    Reads dev g disk (do
      let (parent, child) ← resolveParent dev g path
      ensureAbsent dev g parent child
      m parent child) (.error .exists) := by
  obtain ⟨r, hr, hnames⟩ := resolveParent_reads hf hs path
  rw [(hnames d name).mpr h.names] at hr
  have hfind := findEntry_reads hf h.chain name
  rw [findResult, h.look] at hfind
  have habs : Reads dev g disk (ensureAbsent dev g d name) (.error .exists) := by
    intro s hd hc
    subst hd
    unfold ensureAbsent
    rw [wp_bind, wp_attempt]
    refine hfind.wp_ok hc (fun s₁ hq hfl => ⟨hq, Or.inl ⟨rfl, hfl⟩⟩) fun err s₁ hq hfault => ?_
    have hne : err ≠ .notFound := by
      obtain ⟨-, f, -, rfl, -⟩ := hfault
      exact devError_ne_notFound f
    dsimp only
    rw [if_neg hne]
    exact ⟨hq, Or.inr hfault⟩
  exact Reads.bind hr (Reads.bind_error habs)

/-! ## Displayed names -/

/-- No two visible entries of a directory show the same name. -/
def Distinct (g : Geometry) (V : Volume) : Prop :=
  ∀ d p q, IsDir g V d → InDir g V d p → InDir g V d q → (V.at p).getFilename = (V.at q).getFilename → p = q

theorem Distinct.within (h : Distinct g V) (hw : Within g V V') : Distinct g V' := by
  intro d p q hd hp hq heq
  obtain ⟨hdV, hpV, hatp⟩ := hw d p hd hp
  obtain ⟨-, hqV, hatq⟩ := hw d q hd hq
  rw [hatp, hatq] at heq
  exact h d p q hdV hpV hqV heq

/-- The last component of the path is an 8.3 name. -/
def LastFits83 (path : List Byte) : Prop := ∀ parts, parsePath path = .ok parts → Fits83 (parts.getLastD [])

theorem Printable.clean (h : Printable path) (hpart : PartOf path name) : Clean name := by
  intro b hb
  obtain ⟨a, ha, rfl⟩ := hpart.2 b hb
  obtain ⟨hlo, hhi⟩ := h a ha
  refine ⟨?_, ?_, toUpper_idem a⟩
  · unfold toUpper
    split <;> bv_omega
  · unfold toUpper space
    split <;> bv_omega

structure Entered (g : Geometry) (V V' : Volume) (d : ℕ) (name : List Byte) (e : FatDirEntry) (W : Volume) (l : List ℕ)
    (A : List Pos) (p : Pos) (B : List Pos) : Prop where
  lists : SameList g V W
  sound : Sound g W
  publish : Publish g W V' d l A p B
  entry : V'.at p = e
  absent : lookup g W l name = none

theorem CreatedIn.entered {attr : Byte} {U : Volume} {cluster : ℕ} {e : FatDirEntry} (hs : Sound g V)
    (hp : Printable path) (h : CreatedIn g attr path V U V' d name cluster e) :
    ∃ W l A p B, Entered g V V' d name e W l A p B := by
  obtain ⟨W, l, A, p, B, hst⟩ := h.added.staged ((h.agree.same hs).sound hs) h.target
  have hlists := (h.agree.sameList hs).trans hst.lists
  have hpub := hst.publish (h.new.visible hp.ne.2)
  obtain ⟨m, hm⟩ := hs.dir_chain h.absent.dir
  obtain ⟨m', hm', hlook, -⟩ := hlists.lookup h.absent.dir hm
  obtain rfl := hm'.unique hpub.chain
  exact ⟨W, m', A, p, B, hlists, hst.sound, hpub, hst.entry, (hlook name).trans (h.absent.look m hm)⟩

namespace Entered

variable {e : FatDirEntry}

section

variable (h : Entered g V V' d name e W l A p B)
include h

theorem visible_iff (hs : Sound g V) :
    Visible g V' q ↔ Visible g V q ∨ q = p := by
  rw [h.publish.visible_iff h.sound]
  refine or_congr ⟨?_, fun hq => (h.lists.keeps (S := fun _ => False) hs q hq fun h => h).1⟩ Iff.rfl
  intro hq
  obtain ⟨b, hb, hin⟩ := hq
  have hbV := (h.lists.isDir b).mp hb
  exact ⟨b, hbV, (h.lists.inDir hs hbV q).1.mp hin⟩

theorem not_visible (hs : Sound g V) : ¬Visible g V p := by
  intro hp
  obtain ⟨b, -, hin⟩ := (h.lists.keeps (S := fun _ => False) hs p hp fun h => h).1
  exact h.publish.not_inDir hin

theorem keepsLookup (hname : e.entryName = name) : KeepsLookup g V V' := by
  refine h.lists.keepsLookup.trans (h.publish.keepsLookup h.sound ?_)
  rw [h.entry, hname]
  exact h.absent

theorem lookup_new (hname : e.entryName = name) :
    lookup g V' l name = some p := by
  have hvis := h.publish.visible
  refine h.publish.toPlaced.lookup_new h.absent ?_ (by rw [h.entry, hname])
  unfold FatDirEntry.isVisible at hvis
  exact (Bool.and_eq_true_iff.mp hvis).1

theorem distinct (hs : Sound g V) (hname : e.entryName = name)
    (hd : Distinct g V) : Distinct g V' := by
  have hdW : Distinct g W := hd.within fun b r hb hin =>
    have hbV := (h.lists.isDir b).mp hb
    have hinV := (h.lists.inDir hs hbV r).1.mp hin
    ⟨hbV, hinV, (h.lists.inDir hs hbV r).2 hinV⟩
  have hother : ∀ r, InDir g W d r → (W.at r).getFilename ≠ (V'.at p).getFilename := by
    intro r hin hsame
    obtain ⟨m, hm, hmem, hvis⟩ := hin
    obtain rfl := hm.unique h.publish.chain
    have hentry : (W.at r).entryName = name := by
      unfold FatDirEntry.entryName
      rw [hsame, h.entry]
      exact hname
    refine absurd ?_ (List.find?_eq_none.mp h.absent r hmem)
    unfold FatDirEntry.isVisible at hvis
    simp [(Bool.and_eq_true_iff.mp hvis).1, hentry]
  intro b r r' hb hr hr' heq
  rcases (h.publish.isDir h.sound b).mp hb with hbW | ⟨hdir, rfl, hc⟩
  · rcases (h.publish.inDir h.sound hbW r).mp hr with hrW | ⟨rfl, rfl⟩
    · rcases (h.publish.inDir h.sound hbW r').mp hr' with hrW' | ⟨rfl, rfl⟩
      · rw [h.publish.at_inDir h.sound hbW hrW, h.publish.at_inDir h.sound hbW hrW'] at heq
        exact hdW b r r' hbW hrW hrW' heq
      · rw [h.publish.at_inDir h.sound hbW hrW] at heq
        exact absurd heq (hother r hrW)
    · rcases (h.publish.inDir h.sound hbW r').mp hr' with hrW' | ⟨-, rfl⟩
      · rw [h.publish.at_inDir h.sound hbW hrW'] at heq
        exact absurd heq.symm (hother r' hrW')
      · rfl
  · exact absurd hr (h.publish.not_inDir_target hdir hc)

end

end Entered

/-! ## Creation and lookup -/

/-- `mkdir` or `create_file`. -/
def Call.create (dir : Bool) (path : List Byte) : Call := if dir then .mkdir path else .createFile path

def newAttr (dir : Bool) : Byte := if dir then attrDirectory else attrArchive

/-- After a successful call: the path leads to the new entry, every other path to where it led, a
second call is refused, and displayed names stay distinct. -/
structure FindsCreated (dev : Device) (g : Geometry) (dir : Bool) (path : List Byte) (s s' : FatState) : Prop where
  found : ∃ p, ResolvesTo dev g s' path p ∧ ¬Visible g (vol g s.disk) p ∧ ((vol g s'.disk).at p).isDirectory = dir
  others : ∀ path' e, (findFile dev g path' s).1 = .ok e → ∃ p, ResolvesTo dev g s path' p ∧
    ResolvesTo dev g s' path' p ∧ (vol g s.disk).at p = e ∧ (vol g s'.disk).at p = e
  again : ∀ dir', ((Call.create dir' path).run dev g s').1 = .error .exists
  distinct : Distinct g (vol g s.disk) → Distinct g (vol g s'.disk)

theorem create_wp (dir : Bool) (hf : g.Fits dev) (hs : Healthy g s) (h0 : ∀ b ∈ path, b ≠ 0) :
    wp ((Call.create dir path).run dev g)
      (fun _ s' => Preserved dev g path s s' ∧ Created g (newAttr dir) path (vol g s.disk) (vol g s'.disk))
      (CreateFailed dev g path s) s := by
  cases dir with
  | true => exact mkdir_wp hf hs.coherent hs.regular h0
  | false => exact createFile_wp hf hs.coherent hs.regular h0

theorem create_again (dir : Bool) (hf : g.Fits dev) (hnot : ¬dev.Faulty) (hs : Healthy g s)
    (h : Found g (vol g s.disk) path d l name p) : ((Call.create dir path).run dev g s).1 = .error .exists := by
  cases dir with
  | true =>
    have hreads : Reads dev g s.disk (mkdir dev g path) (.error .exists) :=
      exists_reads hf hs.regular.sound h fun parent child => do
        let cluster ← allocCluster dev g
        onError (dev.writeSector (g.clusterLba cluster 0) (dotSector g cluster parent)) (rollbackNewChain dev g cluster)
        onError (addDirEntry dev g true parent (makeEntry (make83Name child) attrDirectory cluster))
          (dropUnlessPublished dev g cluster)
    exact hreads.result hs.coherent hnot
  | false =>
    have hreads : Reads dev g s.disk (createFile dev g path) (.error .exists) :=
      exists_reads hf hs.regular.sound h fun parent child =>
        addDirEntry dev g false parent (makeEntry (make83Name child) attrArchive 0)
    exact hreads.result hs.coherent hnot

theorem findsCreated_iff (dir : Bool) (hf : g.Fits dev) (hnot : ¬dev.Faulty) (hs : Healthy g s) (hp : Printable path)
    (hok : ((Call.create dir path).run dev g s).1 = .ok ()) :
    FindsCreated dev g dir path s ((Call.create dir path).run dev g s).2 ↔ LastFits83 path := by
  obtain ⟨hpres, U, d, name, cluster, e, hin⟩ := wp_fst (create_wp dir hf hs hp.ne.1) hok
  generalize ((Call.create dir path).run dev g s).2 = s' at *
  have hsound := hs.regular.sound
  have hs' : Healthy g s' := ⟨⟨hpres.sound, (hpres.tidy hnot).1⟩, (hpres.tidy hnot).2⟩
  obtain ⟨W, l, A, p, B, hent⟩ := hin.entered hsound hp
  have hclean := hp.clean hin.names.part
  have hfits : e.entryName = name ↔ Fits83 name := by
    rw [hin.entry]
    exact (entryName_make83 hclean _ _).2
  have hlast : ∀ parts, parsePath path = .ok parts → parts.getLastD [] = name := by
    intro parts hparse
    obtain ⟨parts', hparse', -, rfl⟩ := hin.names.parts
    rw [hparse] at hparse'
    rw [Except.ok.inj hparse']
  constructor
  · -- the path can only lead to the new slot if nothing was cut from the name
    intro h parts hparse
    obtain ⟨q, ⟨⟨d', l', name', hfound⟩, -⟩, hnew, -⟩ := h.found
    have hqp : q = p := ((hent.visible_iff hsound).mp hfound.visible).resolve_left hnew
    obtain ⟨parts', hparse', -, hname'⟩ := hfound.names.parts
    have hshown := (lookup_spec hfound.look hfound.names.part.1).2.2
    rw [hqp, hent.entry, hname', hlast parts' hparse'] at hshown
    rw [hlast parts hparse]
    exact hfits.mp hshown
  · intro hfit
    obtain ⟨parts, hparse, -, -⟩ := hin.names.parts
    have hname : e.entryName = name := hfits.mpr (hlast parts hparse ▸ hfit parts hparse)
    have hkeep := hent.keepsLookup hname
    have hchain : Chain g (vol g s'.disk) d l := hent.publish.chain_same.mpr hent.publish.chain
    have hfound : Found g (vol g s'.disk) path d l name p := ⟨hin.names.keep hkeep, hchain, hent.lookup_new hname⟩
    refine ⟨⟨p, hfound.resolvesTo hf hnot hs', hent.not_visible hsound, ?_⟩, fun path' e' hres => ?_,
      fun dir' => create_again dir' hf hnot hs' hfound, hent.distinct hsound hname⟩
    · rw [hent.entry, hin.new.isDirectory]
      cases dir <;> rfl
    · obtain ⟨q, hq, hat⟩ := exists_resolvesTo hf hnot hs hres
      obtain ⟨d', l', name', hold⟩ := hq.1
      obtain ⟨m, hnew, hat'⟩ := hold.keep hkeep
      exact ⟨q, hq, hnew.resolvesTo hf hnot hs', hat, hat'.trans hat⟩

/-- The last component of a creating call is an 8.3 name. -/
def Call.Fits83 : Call → Prop
  | .mkdir path => LastFits83 path
  | .createFile path => LastFits83 path
  | _ => True

def runCalls (dev : Device) (g : Geometry) (s : FatState) (calls : List Call) : FatState :=
  calls.foldl (fun s c => (c.run dev g s).2) s

theorem create_distinct (dir : Bool) (hf : g.Fits dev) (hnot : ¬dev.Faulty) (hs : Healthy g s) (hp : Printable path)
    (hfit : LastFits83 path) (hd : Distinct g (vol g s.disk)) :
    Distinct g (vol g ((Call.create dir path).run dev g s).2.disk) := by
  rcases hrun : (Call.create dir path).run dev g s with ⟨r, s'⟩
  cases r with
  | ok a =>
    have hiff := findsCreated_iff dir hf hnot hs hp (congrArg Prod.fst hrun)
    rw [hrun] at hiff
    exact (hiff.mpr hfit).distinct hd
  | error err => exact hd.within ((wp_error (create_wp dir hf hs hp.ne.1) hrun).same hnot).within

theorem Call.run_distinct (call : Call) (hf : g.Fits dev) (hnot : ¬dev.Faulty) (hs : Healthy g s)
    (hp : Printable call.relpath) (hfit : call.Fits83) (hd : Distinct g (vol g s.disk)) :
    Distinct g (vol g (call.run dev g s).2.disk) := by
  cases call with
  | mkdir path => exact create_distinct true hf hnot hs hp hfit hd
  | createFile path => exact create_distinct false hf hnot hs hp hfit hd
  | unlink path => exact hd.within ((wp_left.mp (unlink_wp hf hs.coherent hs.regular path)).within hnot)
  | rmdir path => exact hd.within ((wp_left.mp (rmdir_wp hf hs.coherent hs.regular path)).within hnot)

theorem runCalls_distinct (hf : g.Fits dev) (hnot : ¬dev.Faulty) (calls : List Call) (hs : Healthy g s)
    (hcalls : ∀ c ∈ calls, Printable c.relpath ∧ c.Fits83) (hd : Distinct g (vol g s.disk)) :
    Distinct g (vol g (runCalls dev g s calls).disk) := by
  induction calls generalizing s with
  | nil => exact hd
  | cons c calls ih =>
    obtain ⟨hp, hfit⟩ := hcalls c (by simp)
    exact ih (c.run_done hf hnot hs hp.ne.1).healthy (fun c' hc => hcalls c' (by simp [hc])) (c.run_distinct hf hnot hs hp hfit hd)

/-- A call that succeeds is followed by the lookups one expects exactly when its last component is an
8.3 name, and under such calls displayed names stay distinct. -/
theorem create_then_find_iff (dev : Device) (g : Geometry) (s : FatState) (hf : g.Fits dev) (hnot : ¬dev.Faulty)
    (hc : Coherent g s) (hw : WellFormed g (vol g s.disk)) :
    (∀ dir path, Printable path → ((Call.create dir path).run dev g s).1 = .ok () →
      (FindsCreated dev g dir path s ((Call.create dir path).run dev g s).2 ↔ LastFits83 path)) ∧
    ∀ calls : List Call, (∀ c ∈ calls, Printable c.relpath ∧ c.Fits83) → Distinct g (vol g s.disk) →
      Distinct g (vol g (runCalls dev g s calls).disk) := by
  have hs : Healthy g s := ⟨hw.toRegular, hc⟩
  exact ⟨fun dir path hp hok => findsCreated_iff dir hf hnot hs hp hok,
    fun calls hcalls hd => runCalls_distinct hf hnot calls hs hcalls hd⟩

/-- The nine characters "ABCDEFGHI" are published as "ABCDEFGH.I". -/
theorem create_then_find_sample :
    (Call.run (steadyDevice sampleGeometry) sampleGeometry (.create false
        [slash, 0x41, 0x42, 0x43, 0x44, 0x45, 0x46, 0x47, 0x48, 0x49]) sampleState).1 = .ok () ∧
      ¬FindsCreated (steadyDevice sampleGeometry) sampleGeometry false
        [slash, 0x41, 0x42, 0x43, 0x44, 0x45, 0x46, 0x47, 0x48, 0x49] sampleState
        (Call.run (steadyDevice sampleGeometry) sampleGeometry (.create false
          [slash, 0x41, 0x42, 0x43, 0x44, 0x45, 0x46, 0x47, 0x48, 0x49]) sampleState).2 := by
  refine ⟨rfl, fun h => ?_⟩
  have hs : Healthy sampleGeometry sampleState := ⟨sample_wellFormed.toRegular, coherent_of_invalid rfl⟩
  have hfit := (findsCreated_iff false (steadyDevice_fits _) (steadyDevice_steady _) hs (by unfold Printable; decide) rfl).mp h
    _ rfl
  revert hfit
  decide

theorem create_then_find_iff_sample :
    FindsCreated (steadyDevice sampleGeometry) sampleGeometry true [slash, 0x62] sampleState
      (Call.run (steadyDevice sampleGeometry) sampleGeometry (.create true [slash, 0x62]) sampleState).2 := by
  refine ((create_then_find_iff (steadyDevice sampleGeometry) sampleGeometry sampleState (steadyDevice_fits _)
    (steadyDevice_steady _) (coherent_of_invalid rfl) sample_wellFormed).1 true [slash, 0x62]
    (by unfold Printable; decide) rfl).mpr fun parts hparse => ?_
  obtain rfl : [[0x42]] = parts := Except.ok.inj hparse
  decide

end Zonix.Fat
