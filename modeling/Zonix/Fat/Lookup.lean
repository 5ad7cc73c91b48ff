import Zonix.Fat.Scan
import Zonix.Fat.Update

/-! # Names

`find_entry` finds the first valid entry of that name before the end of the directory; a path
resolves component by component along visible directory entries. -/

namespace Zonix.Fat

open Prog Pointer

variable {dev : Device} {g : Geometry} {s s' : FatState} {disk : ℕ → Sector} {V : Volume} {c d x start : ℕ}
  {l : List ℕ} {p : Pos} {name : List Byte} {parts : List (List Byte)}

def lookup (g : Geometry) (V : Volume) (l : List ℕ) (name : List Byte) : Option Pos :=
  (listing g V l).find? fun p => (V.at p).isValid && decide ((V.at p).entryName = name)

variable {e : FatDirEntry}

theorem searchSlot_none (h : searchSlot name e = none) :
    e.isEnd = false ∧ (e.isValid && decide (e.entryName = name)) = false := by
  unfold searchSlot at h
  split at h
  · simp at h
  · rename_i hend
    refine ⟨by simpa using hend, ?_⟩
    split at h
    · rename_i hvalid
      have hinv : e.isValid = false := by simpa using hvalid
      simp [hinv]
    · split at h
      · simp at h
      · rename_i hname
        simp [hname]

variable {here : Bool} {k : ℕ} {path : List Byte}

theorem searchSlot_some (h : searchSlot name e = some here) :
    e.isEnd = !here ∧ (here = true → (e.isValid && decide (e.entryName = name)) = true) := by
  unfold searchSlot at h
  split at h
  · rename_i hend
    obtain rfl := Option.some.inj h
    exact ⟨hend, by simp⟩
  · rename_i hend
    split at h
    · simp at h
    · rename_i hvalid
      split at h
      · rename_i hname
        obtain rfl := Option.some.inj h
        refine ⟨by simpa using hend, fun _ => ?_⟩
        simpa [hname] using hvalid
      · simp at h

theorem searchSector_none {sector : Sector}
    (h : ∀ j, j < entriesPerSector → (searchSlot name (sector.entry j)).isSome = false) :
    searchSector name sector = none := by
  unfold searchSector
  rw [List.findSome?_eq_none_iff]
  intro j hj
  have hnone := h j (List.mem_range.mp hj)
  rw [Option.isSome_eq_false_iff, Option.isNone_iff_eq_none] at hnone
  rw [hnone]
  rfl

theorem searchSector_some {sector : Sector} {j : ℕ} (hj : j < entriesPerSector)
    (hmin : ∀ k, k < j → searchSlot name (sector.entry k) = none)
    (h : searchSlot name (sector.entry j) = some here) :
    searchSector name sector = some (if here then some j else none) := by
  obtain ⟨n, hn⟩ : ∃ n, entriesPerSector = j + (1 + n) := ⟨entriesPerSector - j - 1, by omega⟩
  unfold searchSector
  rw [hn, List.range_add, List.findSome?_append]
  have hfirst : (List.range j).findSome? (fun k =>
      (searchSlot name (sector.entry k)).map fun here => if here then some k else none) = none := by
    rw [List.findSome?_eq_none_iff]
    intro k hk
    rw [hmin k (List.mem_range.mp hk)]
    rfl
  rw [hfirst, List.range_add]
  simp [h]

theorem lookup_miss (h : ∀ p ∈ positions g l, (searchSlot name (V.at p)).isSome = false) :
    lookup g V l name = none := by
  unfold lookup
  rw [List.find?_eq_none]
  intro p hp
  have hnone := h p (mem_of_listing hp)
  rw [Option.isSome_eq_false_iff, Option.isNone_iff_eq_none] at hnone
  simp [(searchSlot_none hnone).2]

section

variable {A B : List Pos} {i j : ℕ}

theorem FirstHit.none_before (h : FirstHit g V l (fun e => (searchSlot name e).isSome) A x i j B) {q : Pos}
    (hq : q ∈ A) : searchSlot name (V.at q) = none := by
  have hnone := h.before q hq
  rwa [Option.isSome_eq_false_iff, Option.isNone_iff_eq_none] at hnone

theorem FirstHit.sector_before {pred : FatDirEntry → Bool} (h : FirstHit g (vol g disk) l pred A x i j B)
    (hv : g.Valid x) (hk : k < j) : pred ((disk (g.dataLba x i)).entry k) = false := by
  rw [← vol_slot disk hv h.sector (Nat.lt_trans hk h.slot)]
  exact h.within k hk

theorem FirstHit.searchSector (h : FirstHit g (vol g disk) l (fun e => (searchSlot name e).isSome) A x i j B)
    (hv : g.Valid x) (hs : searchSlot name ((vol g disk).at (x, entriesPerSector * i + j)) = some here) :
    searchSector name (disk (g.dataLba x i)) = some (if here then some j else none) := by
  rw [Volume.at, vol_slot disk hv h.sector h.slot] at hs
  refine searchSector_some h.slot (fun k hk => ?_) hs
  have hnone := h.sector_before hv hk
  rwa [Option.isSome_eq_false_iff, Option.isNone_iff_eq_none] at hnone

theorem FirstHit.lookup (h : FirstHit g V l (fun e => (searchSlot name e).isSome) A x i j B)
    (hs : searchSlot name (V.at (x, entriesPerSector * i + j)) = some here) :
    lookup g V l name = if here then some (x, entriesPerSector * i + j) else none := by
  have hA : ∀ q ∈ A, (V.at q).isEnd = false := fun q hq => (searchSlot_none (h.none_before hq)).1
  have hfind : A.find? (fun p => (V.at p).isValid && decide ((V.at p).entryName = name)) = none := by
    rw [List.find?_eq_none]
    intro q hq
    simp [(searchSlot_none (h.none_before hq)).2]
  obtain ⟨hend, hmatch⟩ := searchSlot_some hs
  unfold Fat.lookup
  cases here with
  | false =>
    rw [listing_split h.split hA (by simp [hend]), hfind]
    rfl
  | true =>
    rw [listing, h.split, List.takeWhile_append_of_pos (fun q hq => by simp [hA q hq]), List.find?_append, hfind,
      List.takeWhile_cons_of_pos (by simp [hend]), List.find?_cons, hmatch rfl]
    rfl

end

/-- What `find_entry` answers. -/
def findResult (g : Geometry) (V : Volume) (l : List ℕ) (name : List Byte) : Except Error FatDirEntry :=
  match lookup g V l name with
  | some p => .ok (V.at p)
  | none => .error .notFound

theorem findEntry_reads (hf : g.Fits dev) (hl : Chain g (vol g disk) start l) (name : List Byte) :
    Reads dev g disk (findEntry dev g start name) (findResult g (vol g disk) l name) := by
  intro s hd hc
  obtain rfl := hd
  unfold findEntry
  rw [wp_bind]
  have hskip : Skips (fun _ sector => pure ((searchSector name sector).map fun slot => slot.map sector.entry))
      fun e => (searchSlot name e).isSome := by
    intro lba sector h
    dsimp only
    rw [searchSector_none h]
    rfl
  refine scanDir_wp hf hl hc hskip (fun e s₁ hq hfault => ⟨hq, Or.inr hfault⟩) ?_ ?_
  · intro hnone s₁ hq hfl
    refine ⟨hq, Or.inl ⟨?_, hfl⟩⟩
    rw [findResult, lookup_miss hnone]
  · intro A x i j B hfirst s₁ hq hfl
    have hv := hl.valid x hfirst.mem
    obtain ⟨here, hhere⟩ := Option.isSome_iff_exists.mp hfirst.hit
    rw [hfirst.searchSector hv hhere, wp_pure]
    refine ⟨_, rfl, ?_⟩
    have hlookup := hfirst.lookup hhere
    cases here with
    | false =>
      refine ⟨hq, Or.inl ⟨?_, hfl⟩⟩
      rw [findResult, hlookup]
      rfl
    | true =>
      refine ⟨?_, hq, hfl⟩
      rw [findResult, hlookup]
      simp [Volume.at, vol_slot s.disk hv hfirst.sector hfirst.slot]

theorem findEntry_invalid (hv : ¬g.Valid start) :
    Reads dev g disk (findEntry dev g start name) (.error .badFs) := by
  unfold findEntry scanDir
  exact Reads.bind_error (walkChain_invalid rfl hv)

/-! ## Names in entries and in paths -/

def GoodName (name : List Byte) : Prop := name ≠ [dot] ∧ name ≠ [dot, dot]

theorem rawName_byte {i : ℕ} (h : e.rawName = dotName k) (hi : i < 11) :
    e.byte i = (dotName k).getD i 0 := by
  rw [← h, FatDirEntry.rawName, List.getD_eq_getElem?_getD]
  simp [hi]

theorem FatDirEntry.isDot_skipped (h : e.isDot = true) : e.skipped = true := by
  unfold FatDirEntry.isDot at h
  unfold FatDirEntry.skipped FatDirEntry.name
  rcases Bool.or_eq_true_iff.mp h with h | h
  · have hraw := of_decide_eq_true h
    rw [rawName_byte hraw (by omega), rawName_byte hraw (by omega), rawName_byte hraw (by omega)]
    decide
  · have hraw := of_decide_eq_true h
    rw [rawName_byte hraw (by omega), rawName_byte hraw (by omega), rawName_byte hraw (by omega)]
    decide

theorem FatDirEntry.isDot_entryName (h : e.isDot = true) : ¬GoodName e.entryName := by
  have hname : ∀ k, e.rawName = dotName k →
      e.entryName = (((((List.range 8).map fun i => (dotName k).getD i 0).takeWhile (· != 0x20)) ++
        if (dotName k).getD 8 0 != 0x20 then
          0x2E :: (((List.range 3).map fun i => (dotName k).getD (8 + i) 0).takeWhile (· != 0x20))
        else []).takeWhile (· != 0)).map toUpper := by
    intro k hk
    have h8 : (List.range 8).map (FatDirEntry.name e) = (List.range 8).map fun i => (dotName k).getD i 0 :=
      List.map_congr_left fun i hi => rawName_byte hk (by have := List.mem_range.mp hi; omega)
    have h3 : (List.range 3).map (FatDirEntry.ext e) = (List.range 3).map fun i => (dotName k).getD (8 + i) 0 :=
      List.map_congr_left fun i hi => rawName_byte hk (by have := List.mem_range.mp hi; omega)
    have h0 : FatDirEntry.ext e 0 = (dotName k).getD 8 0 := rawName_byte hk (by omega)
    unfold FatDirEntry.entryName FatDirEntry.getFilename
    rw [h8, h3, h0]
    split <;> simp
  intro hgood
  unfold FatDirEntry.isDot at h
  rcases Bool.or_eq_true_iff.mp h with h | h
  · exact hgood.1 ((hname 1 (of_decide_eq_true h)).trans (by decide))
  · exact hgood.2 ((hname 2 (of_decide_eq_true h)).trans (by decide))

theorem lookup_spec (h : lookup g V l name = some p) (hn : GoodName name) :
    p ∈ listing g V l ∧ (V.at p).isVisible = true ∧ (V.at p).entryName = name := by
  have hmem := List.mem_of_find?_eq_some h
  have hpred := List.find?_some h
  simp only [Bool.and_eq_true, decide_eq_true_eq] at hpred
  refine ⟨hmem, ?_, hpred.2⟩
  unfold FatDirEntry.isVisible
  cases hdot : (V.at p).isDot with
  | false => simp [hpred.1]
  | true => exact absurd (hpred.2 ▸ hn) (FatDirEntry.isDot_entryName hdot)

def PartOf (path part : List Byte) : Prop := GoodName part ∧ ∀ b ∈ part, ∃ a ∈ path, b = toUpper a

theorem splitParts_mem (fuel : ℕ) (rest : List Byte) (parts out : List (List Byte))
    (hsub : ∀ b ∈ rest, b ∈ path) (hin : ∀ part ∈ parts, PartOf path part)
    (h : splitParts fuel rest parts = .ok out) : ∀ part ∈ out, PartOf path part := by
  induction fuel generalizing rest parts with
  | zero =>
    cases rest with
    | nil =>
      obtain rfl := Except.ok.inj h
      exact hin
    | cons ch rest => simp [splitParts] at h
  | succ fuel ih =>
    cases rest with
    | nil =>
      obtain rfl := Except.ok.inj h
      exact hin
    | cons ch rest =>
      unfold splitParts at h
      split at h
      · simp at h
      · rename_i part rest' hnext
        have hpart : (∀ b ∈ part, ∃ a ∈ path, b = toUpper a) ∧ ∀ b ∈ rest', b ∈ path := by
          unfold nextPart at hnext
          dsimp only at hnext
          split at hnext
          · obtain ⟨rfl, rfl⟩ := Prod.mk.inj (Option.some.inj hnext)
            constructor
            · intro b hb
              obtain ⟨a, ha, rfl⟩ := List.mem_map.mp hb
              exact ⟨a, hsub a ((List.takeWhile_sublist _).subset ha), rfl⟩
            · intro b hb
              exact hsub b ((List.dropWhile_sublist _).subset ((List.dropWhile_sublist _).subset hb))
          · simp at hnext
        split at h
        · exact ih rest' parts hpart.2 hin h
        · rename_i hdot
          split at h
          · exact ih rest' _ hpart.2 (fun q hq => hin q (List.mem_of_mem_dropLast hq)) h
          · rename_i hdots
            split at h
            · refine ih rest' _ hpart.2 (fun q hq => ?_) h
              rcases List.mem_append.mp hq with hq | hq
              · exact hin q hq
              · rw [List.mem_singleton.mp hq]
                exact ⟨⟨hdot, hdots⟩, hpart.1⟩
            · simp at h

theorem parsePath_mem (h : parsePath path = .ok parts) :
    parts ≠ [] ∧ ∀ part ∈ parts, PartOf path part := by
  unfold parsePath at h
  dsimp only at h
  split at h
  · simp at h
  · split at h
    · simp at h
    · rename_i out hout
      split at h
      · simp at h
      · rename_i hne
        obtain rfl := Except.ok.inj h
        refine ⟨hne, splitParts_mem _ _ [] _ (fun b hb => (List.dropWhile_sublist _).subset hb) (by simp) hout⟩

/-! ## Paths -/

/-- The directory that a list of components leads to.  Its cluster is 0 when the last one is a
directory without a chain. -/
inductive Resolves (g : Geometry) (V : Volume) : ℕ → List (List Byte) → ℕ → Prop
  | nil (d : ℕ) : Resolves g V d [] d
  | cons {d d' : ℕ} {l : List ℕ} {part : List Byte} {p : Pos} {parts : List (List Byte)} (chain : Chain g V d l)
      (found : lookup g V l part = some p) (isDirectory : (V.at p).isDirectory = true)
      (rest : Resolves g V (V.at p).cluster parts d') : Resolves g V d (part :: parts) d'

theorem not_valid_zero (g : Geometry) : ¬g.Valid 0 := fun h => absurd h.1 (by omega)

theorem resolveDirs_reads (hf : g.Fits dev) (hs : Sound g (vol g disk)) (parts : List (List Byte))
    (hparts : ∀ part ∈ parts, GoodName part) (d : ℕ) (hd : IsDir g (vol g disk) d ∨ d = 0) :
    ∃ r, Reads dev g disk (resolveDirs dev g d parts) r ∧ ∀ d', r = .ok d' ↔
      Resolves g (vol g disk) d parts d' ∧ (IsDir g (vol g disk) d' ∨ d' = 0) := by
  induction parts generalizing d with
  | nil =>
    refine ⟨.ok d, Reads.pure, fun d' => ⟨fun h => ?_, fun h => ?_⟩⟩
    · obtain rfl := Except.ok.inj h
      exact ⟨.nil d, hd⟩
    · cases h.1
      rfl
  | cons part parts ih =>
    unfold resolveDirs
    rcases hd with hd | rfl
    · obtain ⟨l, hl⟩ := hs.dir_chain hd
      have hfind := findEntry_reads hf hl part
      cases hlook : lookup g (vol g disk) l part with
      | none =>
        rw [findResult, hlook] at hfind
        refine ⟨_, Reads.bind_error hfind, fun d' => ⟨fun h => by simp at h, fun h => ?_⟩⟩
        obtain ⟨hr, -⟩ := h
        cases hr with
        | cons hl' hfound =>
          rw [← hl.unique hl', hlook] at hfound
          simp at hfound
      | some p =>
        rw [findResult, hlook] at hfind
        cases hdir : ((vol g disk).at p).isDirectory with
        | false =>
          refine ⟨_, Reads.bind hfind (Reads.bind_error (Reads.ensure_not (by simp [hdir]))),
            fun d' => ⟨fun h => by simp at h, fun h => ?_⟩⟩
          obtain ⟨hr, -⟩ := h
          cases hr with
          | cons hl' hfound hdir' =>
            rw [← hl.unique hl', hlook] at hfound
            obtain rfl := Option.some.inj hfound
            simp [hdir] at hdir'
        | true =>
          have hgood := hparts part (by simp)
          obtain ⟨hmem, hvis, -⟩ := lookup_spec hlook hgood
          have hchild : IsDir g (vol g disk) ((vol g disk).at p).cluster ∨ ((vol g disk).at p).cluster = 0 := by
            by_cases hc : ((vol g disk).at p).cluster = 0
            · exact Or.inr hc
            · exact Or.inl (hd.tail ⟨p, ⟨l, hl, hmem, hvis⟩, hdir, rfl, hc⟩)
          obtain ⟨r, hr, hiff⟩ := ih (fun q hq => hparts q (by simp [hq])) _ hchild
          refine ⟨r, Reads.bind hfind (Reads.bind (Reads.ensure hdir) hr), fun d' => (hiff d').trans ?_⟩
          constructor
          · intro h
            exact ⟨.cons hl hlook hdir h.1, h.2⟩
          · intro h
            obtain ⟨hres, hd'⟩ := h
            cases hres with
            | cons hl' hfound _ hrest =>
              rw [← hl.unique hl', hlook] at hfound
              obtain rfl := Option.some.inj hfound
              exact ⟨hrest, hd'⟩
    · refine ⟨_, Reads.bind_error (findEntry_invalid (not_valid_zero g)), fun d' => ⟨fun h => by simp at h, fun h => ?_⟩⟩
      obtain ⟨hr, -⟩ := h
      cases hr with
      | cons hl' => exact absurd hl'.start_valid (not_valid_zero g)

structure Names (g : Geometry) (V : Volume) (path : List Byte) (d : ℕ) (name : List Byte) : Prop where
  dir : IsDir g V d ∨ d = 0
  parts : ∃ parts, parsePath path = .ok parts ∧ Resolves g V g.rootCluster parts.dropLast d ∧
    name = parts.getLastD []

theorem Names.part (h : Names g V path d name) : PartOf path name := by
  obtain ⟨parts, hparse, -, rfl⟩ := h.parts
  obtain ⟨hne, hmem⟩ := parsePath_mem hparse
  rw [List.getLastD_eq_getLast?, List.getLast?_eq_some_getLast hne]
  exact hmem _ (List.getLast_mem hne)

theorem resolveParent_reads (hf : g.Fits dev) (hs : Sound g (vol g disk)) (path : List Byte) :
    ∃ r, Reads dev g disk (resolveParent dev g path) r ∧
      ∀ d name, r = .ok (d, name) ↔ Names g (vol g disk) path d name := by
  unfold resolveParent pathParts
  cases hparse : parsePath path with
  | error e =>
    refine ⟨.error e, Reads.bind_error Reads.fail, fun d name => ⟨fun h => by simp at h, fun h => ?_⟩⟩
    obtain ⟨parts, hparts, -⟩ := h.parts
    simp [hparse] at hparts
  | ok parts =>
    obtain ⟨hne, hmem⟩ := parsePath_mem hparse
    obtain ⟨r, hr, hiff⟩ := resolveDirs_reads hf hs parts.dropLast
      (fun q hq => (hmem q (List.mem_of_mem_dropLast hq)).1) g.rootCluster (Or.inl IsDir.root)
    cases r with
    | error e =>
      refine ⟨.error e, Reads.bind Reads.pure (Reads.bind_error hr), fun d name => ⟨fun h => by simp at h, fun h => ?_⟩⟩
      obtain ⟨hd, parts', hparts, hres, -⟩ := h
      rw [hparse] at hparts
      obtain rfl := Except.ok.inj hparts
      have hbad := (hiff d).mpr ⟨hres, hd⟩
      simp at hbad
    | ok d =>
      refine ⟨.ok (d, parts.getLastD []), Reads.bind Reads.pure (Reads.bind hr Reads.pure), fun d' name => ⟨fun h => ?_,
        fun h => ?_⟩⟩
      · obtain ⟨rfl, rfl⟩ := Prod.mk.inj (Except.ok.inj h)
        obtain ⟨hres, hd⟩ := (hiff d).mp rfl
        exact ⟨hd, parts, hparse, hres, rfl⟩
      · obtain ⟨hd, parts', hparts, hres, rfl⟩ := h
        rw [hparse] at hparts
        obtain rfl := Except.ok.inj hparts
        rw [Except.ok.inj ((hiff d').mpr ⟨hres, hd⟩)]

/-! ## Empty directories -/

theorem Tidy.slot_before (ht : Tidy g V) (hd : IsDir g V d) (hl : Chain g V d l) (hx : x ∈ l) {m : ℕ}
    (hk : k < g.slots) (hend : (V.slot x k).isEnd = false) (hm : m < k) : (V.slot x m).isEnd = false := by
  obtain ⟨l₁, l₂, rfl⟩ := List.append_of_mem hx
  obtain ⟨B, hB⟩ := positions_split (x := x) l₁ l₂ hk
  cases hcase : (V.slot x m).isEnd with
  | false => rfl
  | true =>
    have hdrop : ((positions g l₁ ++ (List.range k).map fun i => (x, i)).dropWhile
        fun p => !(V.at p).isEnd) ≠ [] := by
      rw [Ne, List.dropWhile_eq_nil_iff]
      intro hall
      have hbad := hall (x, m) (by simp [hm])
      simp [Volume.at, hcase] at hbad
    have hmem : (x, k) ∈ (positions g (l₁ ++ x :: l₂)).dropWhile fun p => !(V.at p).isEnd := by
      rw [hB, List.dropWhile_append, if_neg (by simpa using hdrop)]
      simp
    have hbad := ht.ends d _ hd hl _ hmem
    simp [Volume.at, hend] at hbad

theorem Tidy.mem_listing (ht : Tidy g V) (hd : IsDir g V d) (hl : Chain g V d l) (hp : p ∈ positions g l)
    (hend : (V.at p).isEnd = false) : p ∈ listing g V l := by
  rw [← List.takeWhile_append_dropWhile (p := fun p => !(V.at p).isEnd) (l := positions g l)] at hp
  rcases List.mem_append.mp hp with hp | hp
  · exact hp
  · have hbad := ht.ends d l hd hl p hp
    simp [hend] at hbad

theorem FatDirEntry.isEnd_of_valid (h : e.isValid = true) : e.isEnd = false := by
  cases hend : e.isEnd with
  | false => rfl
  | true => simp [FatDirEntry.isValid, hend] at h

theorem occupied_iff (ht : Tidy g V) (hd : IsDir g V d) (hl : Chain g V d l) :
    (∃ p ∈ positions g l, ((V.at p).isValid && !(V.at p).skipped) = true) ↔ ∃ p, InDir g V d p := by
  constructor
  · rintro ⟨p, hp, hocc⟩
    simp only [Bool.and_eq_true, Bool.not_eq_true'] at hocc
    refine ⟨p, l, hl, ht.mem_listing hd hl hp (FatDirEntry.isEnd_of_valid hocc.1), ?_⟩
    unfold FatDirEntry.isVisible
    cases hdot : (V.at p).isDot with
    | false => simp [hocc.1]
    | true =>
      have hbad := FatDirEntry.isDot_skipped hdot
      simp [hocc.2] at hbad
  · rintro ⟨p, l', hl', hmem, hvis⟩
    obtain rfl := hl.unique hl'
    simp only [FatDirEntry.isVisible, Bool.and_eq_true, Bool.not_eq_true'] at hvis
    refine ⟨p, mem_of_listing hmem, ?_⟩
    cases hskip : (V.at p).skipped with
    | false => simp [hvis.1]
    | true =>
      have hname : (V.at p).name 0 = 0x2E := by
        simp only [FatDirEntry.skipped, Bool.or_eq_true, Bool.and_eq_true, beq_iff_eq] at hskip
        rcases hskip with h | h
        · exact h.1
        · exact h.1.1
      have hdot := ht.dots d l hd hl p hmem hvis.1 hname
      simp [hvis.2] at hdot

theorem scanSectors_occupied (disk : ℕ → Sector) (hf : g.Fits dev) (hx : g.Valid x) (n i : ℕ) (hi : i + n = g.sectorsPerCluster) :
    ∃ r, Reads dev g disk (scanSectors dev g x (fun _ sector => pure (if occupied sector then some () else none)) n i)
      (.ok r) ∧ (r = none ↔ ∀ k, i ≤ k → k < g.sectorsPerCluster → occupied (disk (g.dataLba x k)) = false) := by
  induction n generalizing i with
  | zero => exact ⟨none, Reads.pure, by simp; omega⟩
  | succ n ih =>
    obtain ⟨r, hr, hiff⟩ := ih (i + 1) (by omega)
    unfold scanSectors
    cases hocc : occupied (disk (g.dataLba x i)) with
    | true =>
      refine ⟨some (), Reads.bind (reads_sector hf hx (by omega)) ?_, ?_⟩
      · rw [if_pos hocc]
        exact Reads.bind Reads.pure Reads.pure
      · simp only [reduceCtorEq, false_iff]
        intro hall
        have hbad := hall i (Nat.le_refl i) (by omega)
        simp [hocc] at hbad
    | false =>
      refine ⟨r, Reads.bind (reads_sector hf hx (by omega)) ?_, hiff.trans ⟨fun hall k hk hlt => ?_, fun hall k hk => ?_⟩⟩
      · rw [if_neg (by simp [hocc])]
        exact Reads.bind Reads.pure hr
      · rcases Nat.eq_or_lt_of_le hk with rfl | hk
        · exact hocc
        · exact hall k hk hlt
      · exact hall k (by omega)

theorem isEmptyDir_occupied (hf : g.Fits dev) (hl : Chain g (vol g disk) d l) :
    ∃ b, Reads dev g disk (isEmptyDir dev g d) (.ok b) ∧
      (b = true ↔ ∀ x ∈ l, ∀ i, i < g.sectorsPerCluster → occupied (disk (g.dataLba x i)) = false) := by
  have hdec : ∃ b, b = true ↔ ∀ x ∈ l, ∀ i, i < g.sectorsPerCluster → occupied (disk (g.dataLba x i)) = false := by
    by_cases h : ∀ x ∈ l, ∀ i, i < g.sectorsPerCluster → occupied (disk (g.dataLba x i)) = false
    · exact ⟨true, by simpa using h⟩
    · exact ⟨false, by simpa using h⟩
  obtain ⟨b, hb⟩ := hdec
  refine ⟨b, ?_, hb⟩
  intro s hdisk hc
  obtain rfl := hdisk
  unfold isEmptyDir
  rw [wp_bind]
  refine walkChain_wp hf (l := l) (I := fun done acc s₁ => Quiet g s s₁ ∧ s₁.faults = s.faults ∧
    (acc = true → ∀ x ∈ done, ∀ i, i < g.sectorsPerCluster → occupied (s.disk (g.dataLba x i)) = false) ∧
    (acc = false → b = false)) ?_ true ⟨Quiet.refl s, rfl, by simp, by simp⟩
  constructor
  · intro done acc s₁ h₁
    exact ⟨h₁.1.coherent hc, h₁.1.disk ▸ hl⟩
  · intro done acc s₁ s₂ h₁ hq hfl
    exact ⟨h₁.1.trans hq, hfl.trans h₁.2.1, h₁.2.2⟩
  · intro done acc s₁ e s₂ h₁ hq hfault
    exact ⟨h₁.1.trans hq, Or.inr (hfault.after h₁.2.1)⟩
  · intro done x rest acc s₁ hsplit hacc h₁
    obtain ⟨hq₁, hf₁, hdone, -⟩ := h₁
    have hmem : x ∈ l := by simp [hsplit]
    obtain ⟨r, hr, hiff⟩ := scanSectors_occupied s₁.disk hf (hl.valid x hmem) g.sectorsPerCluster 0 (by omega)
    rw [hq₁.disk] at hiff
    rw [wp_bind]
    refine hr.wp_ok (hq₁.coherent hc) (fun s₂ hq hfl => ?_) fun e s₂ hq hfault =>
      ⟨hq₁.trans hq, Or.inr (hfault.after hf₁)⟩
    cases r with
    | none =>
      refine ⟨hq₁.trans hq, hfl.trans hf₁, fun _ y hy i hi => ?_, by simp⟩
      rcases List.mem_append.mp hy with hy | hy
      · exact hdone hacc y hy i hi
      · rw [List.mem_singleton.mp hy]
        exact hiff.mp rfl i (Nat.zero_le i) hi
    | some u =>
      refine ⟨hq₁.trans hq, hfl.trans hf₁, by simp, fun _ => ?_⟩
      cases b with
      | false => rfl
      | true => exact absurd (hiff.mpr fun i _ hi => hb.mp rfl x hmem i hi) (by simp)
  · intro done rest acc s₁ hsplit hend h₁
    obtain ⟨hq₁, hf₁, hdone, hfalse⟩ := h₁
    refine ⟨?_, hq₁, hf₁⟩
    cases acc with
    | false => rw [hfalse rfl]
    | true =>
      obtain rfl : rest = [] := by simpa using hend
      rw [List.append_nil] at hsplit
      rw [hb.mpr (hsplit ▸ hdone rfl)]

theorem Tidy.occupied_iff (ht : Tidy g (vol g disk)) (hd : IsDir g (vol g disk) d) (hl : Chain g (vol g disk) d l) :
    (∃ x ∈ l, ∃ i, i < g.sectorsPerCluster ∧ occupied (disk (g.dataLba x i)) = true) ↔
      ∃ p ∈ positions g l, (((vol g disk).at p).isValid && !((vol g disk).at p).skipped) = true := by
  constructor
  · rintro ⟨x, hx, i, hi, hocc⟩
    unfold occupied at hocc
    obtain ⟨e, he, hit⟩ := List.any_eq_true.mp hocc
    obtain ⟨j, hj, rfl⟩ := List.mem_map.mp ((List.takeWhile_sublist _).subset he)
    have hj := List.mem_range.mp hj
    refine ⟨(x, entriesPerSector * i + j), mem_positions.mpr ⟨hx, slot_lt hi hj⟩, ?_⟩
    rw [Volume.at, vol_slot disk (hl.valid x hx) hi hj]
    exact hit
  · rintro ⟨p, hp, hit⟩
    obtain ⟨hx, hk⟩ := mem_positions.mp hp
    obtain ⟨i, j, hi, hj, hpos⟩ := slot_split hk
    have hv := hl.valid p.1 hx
    rw [Volume.at, hpos] at hit
    have hend := FatDirEntry.isEnd_of_valid (Bool.and_eq_true_iff.mp hit).1
    refine ⟨p.1, hx, i, hi, ?_⟩
    unfold occupied
    rw [List.any_eq_true]
    refine ⟨(disk (g.dataLba p.1 i)).entry j, ?_, by rw [← vol_slot disk hv hi hj]; exact hit⟩
    obtain ⟨n, hn⟩ : ∃ n, entriesPerSector = j + 1 + n := ⟨entriesPerSector - j - 1, by omega⟩
    unfold Block.entries
    rw [hn, List.range_add, List.map_append, List.takeWhile_append_of_pos]
    · exact List.mem_append_left _ (List.mem_map.mpr ⟨j, by simp, rfl⟩)
    · intro e he
      obtain ⟨k, hk', rfl⟩ := List.mem_map.mp he
      have hkj : k < j + 1 := List.mem_range.mp hk'
      rw [← vol_slot disk hv hi (by omega)]
      by_cases hkeq : k = j
      · rw [hkeq, hend]
        rfl
      · rw [ht.slot_before hd hl hx (slot_lt hi hj) hend (by omega)]
        rfl

theorem isEmptyDir_reads (hf : g.Fits dev) (ht : Tidy g (vol g disk)) (hd : IsDir g (vol g disk) d)
    (hl : Chain g (vol g disk) d l) :
    ∃ b, Reads dev g disk (isEmptyDir dev g d) (.ok b) ∧ (b = true ↔ ∀ p, ¬InDir g (vol g disk) d p) := by
  obtain ⟨b, hb, hiff⟩ := isEmptyDir_occupied hf hl
  refine ⟨b, hb, hiff.trans ?_⟩
  rw [← not_exists, ← occupied_iff ht hd hl, ← ht.occupied_iff hd hl]
  simp

end Zonix.Fat
