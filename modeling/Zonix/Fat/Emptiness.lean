import Zonix.Fat.AddListed

/-! # The emptiness test of `rmdir`

`rmdir` and `read_dir` of `kernel/fs/fat/fat_dir.cpp` on any volume.  `rmdir` leaves the loop over
one sector at an end mark and goes on with the next sector, and it tells the two entries every
directory has by the first bytes of the raw name; `read_dir` stops at the first end mark, and its
visitors see the name as it is displayed. -/

namespace Zonix.Fat

open Prog

variable {dev : Device} {g : Geometry} {s s' : FatState} {V V' : Volume} {d start n : ℕ} {l m : List ℕ}
  {e : FatDirEntry} {name : List Byte} {pred : FatDirEntry → Bool}

/-! ## A scan from any start -/

structure Passed (g : Geometry) (V : Volume) (start : ℕ) (pred : FatDirEntry → Bool) (n : ℕ) : Prop where
  valid : ∀ k < n, g.Valid (link V start k)
  miss : ∀ k < n, ∀ q < g.slots, pred (V.slot (link V start k) q) = false

structure HitAt (g : Geometry) (V : Volume) (start : ℕ) (pred : FatDirEntry → Bool) (n i j : ℕ) : Prop
    extends Passed g V start pred n where
  here : g.Valid (link V start n)
  sector : i < g.sectorsPerCluster
  slot : j < entriesPerSector
  hit : pred (V.slot (link V start n) (entriesPerSector * i + j)) = true
  first : ∀ k < entriesPerSector * i + j, pred (V.slot (link V start n) k) = false

theorem Passed.snoc (h : Passed g V start pred n) (hv : g.Valid (link V start n))
    (hmiss : ∀ q < g.slots, pred (V.slot (link V start n) q) = false) : Passed g V start pred (n + 1) := by
  constructor
  · intro k hk
    rcases Nat.lt_succ_iff_lt_or_eq.mp hk with hk | rfl
    · exact h.valid k hk
    · exact hv
  · intro k hk
    rcases Nat.lt_succ_iff_lt_or_eq.mp hk with hk | rfl
    · exact h.miss k hk
    · exact hmiss

section Rule

variable {β : Type} {search : ℕ → Sector → FatM (Option β)} {Q : Flow Unit β → FatState → Prop}
  {E : Error → FatState → Prop}

structure ScanInv (dev : Device) (g : Geometry) (start : ℕ) (search : ℕ → Sector → FatM (Option β))
    (pred : FatDirEntry → Bool) (s : FatState) (Q : Flow Unit β → FatState → Prop) (E : Error → FatState → Prop) :
    Prop where
  skips : Skips search pred
  fault : ∀ e s', Quiet g s s' → Faulted dev.ReadFaulty s e s' → E e s'
  ended : ∀ n s', Passed g (vol g s.disk) start pred n → fat32EocMin ≤ link (vol g s.disk) start n →
    Quiet g s s' → Q (.next ()) s'
  refused : ∀ n s', Passed g (vol g s.disk) start pred n → Broken g (vol g s.disk) start n →
    Quiet g s s' → E .badFs s'
  hit : ∀ n i j s', HitAt g (vol g s.disk) start pred n i j → Quiet g s s' → s'.faults = s.faults →
    wp (search (g.clusterLba (link (vol g s.disk) start n) i) (s'.disk (g.dataLba (link (vol g s.disk) start n) i)))
      (fun r s'' => ∃ b, r = some b ∧ Q (.stop b) s'') E s'

theorem scan_from (hf : g.Fits dev) (hc : Coherent g s) (hI : ScanInv dev g start search pred s Q E)
    (fuel n : ℕ) (ch : ClusterChain) (s₁ : FatState) (hw : Walked g (vol g s.disk) start n ch)
    (hp : Passed g (vol g s.disk) start pred n) (hfuel : g.clusterCount - n < fuel) (hq₁ : Quiet g s s₁)
    (hf₁ : s₁.faults = s.faults) :
    wp (walk dev g (fun _ => true) (fun _ cluster => do
      match ← scanSectors dev g cluster search g.sectorsPerCluster 0 with
      | some result => pure (.stop result)
      | none => pure (.next ())) fuel ch ()) Q E s₁ := by
  induction fuel generalizing n ch s₁ with
  | zero => exact absurd hfuel (Nat.not_lt_zero _)
  | succ fuel ih =>
    obtain ⟨r, hr, ha⟩ := next_answers hf hw
    rw [← hq₁.disk] at hr
    unfold walk
    rw [if_pos rfl, wp_bind]
    cases ha with
    | @yielded ch' hw' =>
      have hv : g.Valid (link (vol g s.disk) start n) := hw'.valid n (Nat.lt_succ_self n)
      have hne : link (vol g s.disk) start n ≠ 0 := by
        have hge := hv.1
        omega
      refine hr.wp_ok (hq₁.coherent hc) (fun s₂ hq₂ hf₂ => ?_) fun e s₂ hq₂ hfault =>
        hI.fault e s₂ (hq₁.trans hq₂) (hfault.after hf₁)
      have hq₂ := hq₁.trans hq₂
      dsimp only
      rw [if_neg hne, wp_bind, wp_bind]
      refine scanSectors_wp hf hv (hq₂.coherent hc) hI.skips
        (fun e s₃ hq₃ hfault => hI.fault e s₃ (hq₂.trans hq₃) (hfault.after (hf₂.trans hf₁))) ?_ ?_
      · intro hnone s₃ hq₃ hf₃
        rw [hq₂.disk] at hnone
        have hbound := hw'.bound
        rw [wp_pure]
        exact ih (n + 1) ch' s₃ hw' (hp.snoc hv hnone) (by omega) (hq₂.trans hq₃) (hf₃.trans (hf₂.trans hf₁))
      · intro i j hi hj hit hmin s₃ hq₃ hf₃
        rw [hq₂.disk] at hit hmin
        have hq₃' := hq₂.trans hq₃
        have hone := hI.hit n i j s₃ ⟨hp, hv, hi, hj, hit, hmin⟩ hq₃' (hf₃.trans (hf₂.trans hf₁))
        rw [hq₃.disk] at hone
        refine wp_mono hone (fun r s₄ h₄ => ?_) fun _ _ h => h
        obtain ⟨b, rfl, h₄⟩ := h₄
        exact ⟨rfl, h₄⟩
    | ended ch' h0 hend =>
      refine hr.wp_ok (hq₁.coherent hc) (fun s₂ hq₂ hf₂ => ?_) fun e s₂ hq₂ hfault =>
        hI.fault e s₂ (hq₁.trans hq₂) (hfault.after hf₁)
      exact hI.ended n s₂ hp hend (hq₁.trans hq₂)
    | refused hb =>
      exact hr.wp_error (hq₁.coherent hc) (fun s₂ hq₂ _ => hI.refused n s₂ hp hb (hq₁.trans hq₂))
        fun e s₂ hq₂ hfault => hI.fault e s₂ (hq₁.trans hq₂) (hfault.after hf₁)

theorem scanDir_any (pred : FatDirEntry → Bool) (hf : g.Fits dev) (hc : Coherent g s) (hI : ScanInv dev g start search pred s Q E) :
    wp (scanDir dev g start search) Q E s :=
  scan_from hf hc hI _ 0 _ s (walked_new start) ⟨fun k hk => by omega, fun k hk => by omega⟩ (by omega)
    (Quiet.refl s) rfl

end Rule

section Unique

variable {i j n' i' j' : ℕ}

section

variable (h : HitAt g V start pred n i j) (hp : Passed g V start pred n')
include h hp

theorem HitAt.le_of_passed : n' ≤ n := by
  by_contra hlt
  have hmiss := hp.miss n (by omega) _ (slot_lt h.sector h.slot)
  simp [h.hit] at hmiss

theorem HitAt.valid_of_passed :
    g.Valid (link V start n') := by
  rcases Nat.lt_or_eq_of_le (h.le_of_passed hp) with hlt | rfl
  · exact h.valid n' hlt
  · exact h.here

theorem HitAt.not_ended :
    ¬fat32EocMin ≤ link V start n' :=
  Nat.not_le.mpr (h.valid_of_passed hp).lt_eoc

theorem HitAt.not_broken :
    ¬Broken g V start n' := by
  rintro (⟨hbad, -⟩ | ⟨k, hk, hrep⟩)
  · exact hbad (h.valid_of_passed hp)
  · have hle := h.le_of_passed hp
    have hshift := link_shift hrep (n - n')
    rw [Nat.add_sub_cancel' hle] at hshift
    have hmiss := h.miss (k + (n - n')) (by omega) _ (slot_lt h.sector h.slot)
    rw [← hshift] at hmiss
    simp [h.hit] at hmiss

end

theorem HitAt.unique (h : HitAt g V start pred n i j) (h' : HitAt g V start pred n' i' j') :
    n' = n ∧ entriesPerSector * i' + j' = entriesPerSector * i + j := by
  obtain rfl : n' = n := Nat.le_antisymm (h.le_of_passed h'.toPassed) (h'.le_of_passed h.toPassed)
  refine ⟨rfl, Nat.le_antisymm ?_ ?_⟩
  · by_contra hlt
    have hmiss := h'.first _ (Nat.lt_of_not_le hlt)
    simp [h.hit] at hmiss
  · by_contra hlt
    have hmiss := h.first _ (Nat.lt_of_not_le hlt)
    simp [h'.hit] at hmiss

structure CutAt (g : Geometry) (V : Volume) (start : ℕ) (pred : FatDirEntry → Bool) (n : ℕ) : Prop
    extends Passed g V start pred (n + 1) where
  free : link V start (n + 1) = fat32Free

theorem CutAt.not_hit (h : CutAt g V start pred n) : ¬HitAt g V start pred n' i' j' := by
  intro hhit
  have hv := hhit.valid_of_passed h.toPassed
  rw [h.free] at hv
  exact not_valid_zero g hv

theorem CutAt.not_ended (h : CutAt g V start pred n) (hp : Passed g V start pred n') :
    ¬fat32EocMin ≤ link V start n' := by
  intro hend
  rcases Nat.lt_trichotomy n' (n + 1) with hlt | rfl | hlt
  · exact Nat.not_le.mpr (h.valid n' hlt).lt_eoc hend
  · rw [h.free] at hend
    exact absurd hend (by decide)
  · have hv := hp.valid (n + 1) hlt
    rw [h.free] at hv
    exact not_valid_zero g hv

theorem HitAt.congr (h : HitAt g V start pred n i j) (hslot : ∀ x k, V'.slot x k = V.slot x k)
    (hlink : ∀ k ≤ n, link V' start k = link V start k) : HitAt g V' start pred n i j := by
  refine ⟨⟨fun k hk => ?_, fun k hk q hq => ?_⟩, ?_, h.sector, h.slot, ?_, fun k hk => ?_⟩
  · rw [hlink k (Nat.le_of_lt hk)]
    exact h.valid k hk
  · rw [hlink k (Nat.le_of_lt hk), hslot]
    exact h.miss k hk q hq
  · rw [hlink n (Nat.le_refl n)]
    exact h.here
  · rw [hlink n (Nat.le_refl n), hslot]
    exact h.hit
  · rw [hlink n (Nat.le_refl n), hslot]
    exact h.first k hk

theorem link_congr {k : ℕ} (hfat : ∀ q < k, V'.fat (link V start q) = V.fat (link V start q)) :
    link V' start k = link V start k := by
  induction k with
  | zero => rfl
  | succ k ih => rw [link_succ, link_succ, ih fun q hq => hfat q (by omega), hfat k (Nat.lt_succ_self k)]

theorem HitAt.after_free (h : HitAt g V start pred n i j) (hslot : ∀ x k, V'.slot x k = V.slot x k)
    (hkept : ∀ x, x ∉ m → V'.fat x = V.fat x) (hfreed : ∀ x ∈ m, V'.fat x = fat32Free) :
    ((∀ k < n, link V start k ∉ m) ∧ HitAt g V' start pred n i j) ∨
      ((∃ k < n, link V start k ∈ m) ∧ ∃ k, CutAt g V' start pred k) := by
  by_cases hmeet : ∃ k < n, link V start k ∈ m
  · right
    refine ⟨hmeet, ?_⟩
    classical
    -- the first link that was freed
    obtain ⟨hk, hmem⟩ := Nat.find_spec hmeet
    have hmin : ∀ q < Nat.find hmeet, link V start q ∉ m := by
      intro q hq hm
      exact Nat.find_min hmeet hq ⟨by omega, hm⟩
    generalize Nat.find hmeet = k at hk hmem hmin
    have hsame : ∀ q ≤ k, link V' start q = link V start q :=
      fun q hq => link_congr fun r hr => hkept _ (hmin r (by omega))
    refine ⟨k, ⟨fun q hq => ?_, fun q hq a ha => ?_⟩, ?_⟩
    · rw [hsame q (by omega)]
      exact h.valid q (by omega)
    · rw [hsame q (by omega), hslot]
      exact h.miss q (by omega) a ha
    · rw [link_succ, hsame k (Nat.le_refl k)]
      exact hfreed _ hmem
  · left
    have hapart : ∀ k < n, link V start k ∉ m := fun k hk hm => hmeet ⟨k, hk, hm⟩
    exact ⟨hapart, h.congr hslot fun k hk => link_congr fun q hq => hkept _ (hapart q (by omega))⟩

end Unique

/-! ## The functions that scan -/

theorem HitAt.searchSector {disk : ℕ → Sector} {i j : ℕ} {here : Bool}
    (h : HitAt g (vol g disk) start (fun a => (searchSlot name a).isSome) n i j)
    (hs : searchSlot name ((vol g disk).slot (link (vol g disk) start n) (entriesPerSector * i + j)) = some here) :
    searchSector name (disk (g.dataLba (link (vol g disk) start n) i)) = some (if here then some j else none) := by
  rw [vol_slot disk h.here h.sector h.slot] at hs
  refine searchSector_some h.slot (fun k hk => ?_) hs
  have hnone := h.first (entriesPerSector * i + k) (by omega)
  rw [vol_slot disk h.here h.sector (Nat.lt_trans hk h.slot)] at hnone
  rwa [Option.isSome_eq_false_iff, Option.isNone_iff_eq_none] at hnone

/-- The slot that `find_entry` found. -/
def FoundAt (g : Geometry) (V : Volume) (start : ℕ) (name : List Byte) (e : FatDirEntry) (n i j : ℕ) : Prop :=
  HitAt g V start (fun a => (searchSlot name a).isSome) n i j ∧
    V.slot (link V start n) (entriesPerSector * i + j) = e ∧ searchSlot name e = some true

theorem findEntry_any (hf : g.Fits dev) (hc : Coherent g s) (start : ℕ) (name : List Byte) :
    wp (findEntry dev g start name)
      (fun e s' => Quiet g s s' ∧ ∃ n i j, FoundAt g (vol g s.disk) start name e n i j)
      (fun _ s' => Quiet g s s') s := by
  unfold findEntry
  rw [wp_bind]
  refine scanDir_any (fun a => (searchSlot name a).isSome) hf hc ⟨fun lba sector h => ?_, fun e s' hq _ => hq,
    fun n s' _ _ hq => hq, fun n s' _ _ hq => hq, fun n i j s' hhit hq _ => ?_⟩
  · rw [searchSector_none h]
    rfl
  · obtain ⟨here, hhere⟩ := Option.isSome_iff_exists.mp hhit.hit
    rw [hq.disk, hhit.searchSector hhere]
    cases here with
    | false => exact ⟨none, rfl, hq⟩
    | true =>
      refine ⟨_, rfl, hq, n, i, j, hhit, ?_, ?_⟩
      · rw [vol_slot s.disk hhit.here hhit.sector hhit.slot]
      · rw [← vol_slot s.disk hhit.here hhit.sector hhit.slot]
        exact hhere

theorem resolveDirs_any (hf : g.Fits dev) (hc : Coherent g s) (cluster : ℕ) (parts : List (List Byte)) :
    wp (resolveDirs dev g cluster parts) (fun _ s' => Quiet g s s') (fun _ s' => Quiet g s s') s := by
  induction parts generalizing cluster s with
  | nil => exact Quiet.refl s
  | cons part parts ih =>
    unfold resolveDirs
    rw [wp_bind]
    refine wp_mono (findEntry_any hf hc cluster part) (fun e s₁ h₁ => ?_) fun _ _ h => h
    rw [wp_bind, wp_ensure]
    split
    · exact wp_mono (ih (h₁.1.coherent hc) e.cluster) (fun _ s₂ hq => h₁.1.trans hq) fun _ s₂ hq => h₁.1.trans hq
    · exact h₁.1

theorem resolveParent_any (hf : g.Fits dev) (hc : Coherent g s) (path : List Byte) :
    wp (resolveParent dev g path) (fun _ s' => Quiet g s s') (fun _ s' => Quiet g s s') s := by
  unfold resolveParent pathParts
  rw [wp_bind]
  cases parsePath path with
  | error e => exact Quiet.refl s
  | ok parts =>
    dsimp only
    rw [wp_pure, wp_bind]
    exact wp_mono (resolveDirs_any hf hc _ _) (fun _ s₁ hq => hq) fun _ s₁ hq => hq

theorem removeDirEntry_hit {i j : ℕ} (hf : g.Fits dev) (hnot : ¬dev.Faulty) (hc : Coherent g s)
    (h : FoundAt g (vol g s.disk) start name e n i j) :
    wp (removeDirEntry dev g start name)
      (fun _ s' => Marked (vol g s.disk) (vol g s'.disk) (link (vol g s.disk) start n, entriesPerSector * i + j))
      (fun _ _ => False) s := by
  obtain ⟨hhit, he, hname⟩ := h
  rw [← he] at hname
  unfold removeDirEntry
  rw [wp_bind]
  refine scanDir_any _ hf hc ⟨removeInSector_skips dev name, fun e s' _ hfault => hnot (Or.inl hfault.1),
    fun n' s' hp hend _ => (hhit.not_ended hp hend).elim, fun n' s' hp hb _ => hhit.not_broken hp hb,
    fun n' i' j' s' hhit' hq _ => ?_⟩
  obtain ⟨rfl, hpos⟩ := hhit.unique hhit'
  have hsearch := hhit'.searchSector (by rw [hpos]; exact hname)
  rw [if_pos rfl] at hsearch
  rw [hq.disk]
  unfold removeInSector
  rw [hsearch]
  dsimp only
  rw [wp_bind]
  refine wp_mono (writeData_wp hf hhit'.here hhit'.sector _) (fun _ s₂ h₂ => ?_) fun e s₂ h₂ => absurd h₂.2.2.1 hnot
  obtain ⟨-, hd, -⟩ := h₂
  rw [hq.disk] at hd
  rw [← hpos]
  exact ⟨_, rfl, marked_of_write hhit'.here hhit'.sector hhit'.slot hd⟩

theorem removeDirEntry_cut (hf : g.Fits dev) (hnot : ¬dev.Faulty) (hc : Coherent g s)
    (h : CutAt g (vol g s.disk) start (fun a => (searchSlot name a).isSome) n) :
    wp (removeDirEntry dev g start name) (fun _ _ => False) (fun err _ => err = .badFs) s := by
  unfold removeDirEntry
  rw [wp_bind]
  exact scanDir_any _ hf hc ⟨removeInSector_skips dev name, fun e s' _ hfault => absurd (Or.inl hfault.1) hnot,
    fun n' s' hp hend _ => (h.not_ended hp hend).elim, fun _ _ _ _ _ => rfl,
    fun n' i' j' s' hhit _ _ => (h.not_hit hhit).elim⟩

/-! ## What the two loops look at -/

/-- The name as a C string, as a visitor of `read_dir` displays it. -/
def FatDirEntry.displayed (e : FatDirEntry) : List Byte := e.getFilename.takeWhile (· != 0)

def FatDirEntry.isProper (e : FatDirEntry) : Bool := e.displayed != [dot] && e.displayed != [dot, dot]

/-- The entries that `rmdir` looks at: those before the end mark of their own sector. -/
def counted (g : Geometry) (V : Volume) (l : List ℕ) : List FatDirEntry :=
  l.flatMap fun c => (List.range g.sectorsPerCluster).flatMap fun i =>
    shown ((List.range' (entriesPerSector * i) entriesPerSector).map (V.slot c))

def Counts (g : Geometry) (V : Volume) (l : List ℕ) : Prop := ∃ a ∈ counted g V l, a.skipped = false

def Shows (g : Geometry) (V : Volume) (l : List ℕ) : Prop := ∃ a ∈ listed g V l, a.isProper = true

theorem occupied_shown (sector : Sector) :
    occupied sector = true ↔ ∃ a ∈ shown sector.entries, a.skipped = false := by
  unfold occupied shown
  simp only [List.any_eq_true, List.mem_filter, Bool.and_eq_true, Bool.not_eq_true', and_assoc]

theorem counts_iff {disk : ℕ → Sector} (hl : ∀ x ∈ l, g.Valid x) : Counts g (vol g disk) l ↔
    ∃ x ∈ l, ∃ i, i < g.sectorsPerCluster ∧ occupied (disk (g.dataLba x i)) = true := by
  unfold Counts counted
  constructor
  · rintro ⟨a, ha, hskip⟩
    obtain ⟨x, hx, ha⟩ := List.mem_flatMap.mp ha
    obtain ⟨i, hi, ha⟩ := List.mem_flatMap.mp ha
    have hi := List.mem_range.mp hi
    refine ⟨x, hx, i, hi, (occupied_shown _).mpr ⟨a, ?_, hskip⟩⟩
    rw [entries_eq disk (hl x hx) hi]
    exact ha
  · rintro ⟨x, hx, i, hi, hocc⟩
    obtain ⟨a, ha, hskip⟩ := (occupied_shown _).mp hocc
    rw [entries_eq disk (hl x hx) hi] at ha
    exact ⟨a, List.mem_flatMap.mpr ⟨x, hx, List.mem_flatMap.mpr ⟨i, List.mem_range.mpr hi, ha⟩⟩, hskip⟩

theorem isEmptyDir_counts {disk : ℕ → Sector} (hf : g.Fits dev) (hl : Chain g (vol g disk) d l) :
    ∃ b, Reads dev g disk (isEmptyDir dev g d) (.ok b) ∧ (b = true ↔ ¬Counts g (vol g disk) l) := by
  obtain ⟨b, hb, hiff⟩ := isEmptyDir_occupied hf hl
  refine ⟨b, hb, hiff.trans ?_⟩
  rw [counts_iff hl.valid]
  simp

/-! ## The whole function -/

structure Removed (g : Geometry) (V V' : Volume) (parent : ℕ) (child : List Byte) (e : FatDirEntry) (m : List ℕ) :
    Prop where
  freed : ∀ x ∈ m, V'.fat x = fat32Free
  kept : ∀ x, x ∉ m → V'.fat x = V.fat x
  entry : ∃ n i j, FoundAt g V parent child e n i j ∧
    V'.at (link V parent n, entriesPerSector * i + j) = e.markDeleted ∧
    ∀ q, q ≠ (link V parent n, entriesPerSector * i + j) → V'.at q = V.at q

/-- The way through the parent to the entry has no cluster of `m` before the one with the entry. -/
def Apart (g : Geometry) (V : Volume) (parent : ℕ) (child : List Byte) (m : List ℕ) : Prop :=
  ∀ n i j, HitAt g V parent (fun a => (searchSlot child a).isSome) n i j → ∀ k < n, link V parent k ∉ m

theorem freeThenRemove_steps {parent i j : ℕ} {child : List Byte} (hf : g.Fits dev) (hnot : ¬dev.Faulty)
    (hc : Coherent g s) (hm : Chain g (vol g s.disk) e.cluster m)
    (hfound : FoundAt g (vol g s.disk) parent child e n i j) :
    wp (do freeChain dev g e.cluster; removeDirEntry dev g parent child)
      (fun _ s' => Apart g (vol g s.disk) parent child m ∧ Removed g (vol g s.disk) (vol g s'.disk) parent child e m)
      (fun err _ => err = .badFs ∧ ¬Apart g (vol g s.disk) parent child m) s := by
  rw [wp_bind]
  refine wp_mono (freeChain_wp hf hm hc) (fun _ s₁ h₁ => ?_) fun err s₁ h₁ => absurd h₁.2.1 hnot
  obtain ⟨hT, hfreed, hc₁, -⟩ := h₁
  have hkept : ∀ x, x ∉ m → (vol g s₁.disk).fat x = (vol g s.disk).fat x := fun x hx => hT.fat x hx
  have hslot : ∀ x k, (vol g s₁.disk).slot x k = (vol g s.disk).slot x k := fun x k => hT.slot (by simp) k
  rcases hfound.1.after_free hslot hkept hfreed with ⟨hapart, hhit⟩ | ⟨hmeet, k, hcut⟩
  · have hlink : link (vol g s₁.disk) parent n = link (vol g s.disk) parent n :=
      link_congr fun q hq => hkept _ (hapart q hq)
    have hfound₁ : FoundAt g (vol g s₁.disk) parent child e n i j :=
      ⟨hhit, by rw [hlink, hslot]; exact hfound.2.1, hfound.2.2⟩
    refine wp_mono (removeDirEntry_hit hf hnot hc₁ hfound₁) (fun _ s₂ hmark => ?_) fun _ _ h => h.elim
    rw [hlink] at hmark
    refine ⟨fun n' i' j' h' k hk => ?_, fun x hx => ?_, fun x hx => ?_, n, i, j, hfound, ?_, fun q hq => ?_⟩
    · rw [(hfound.1.unique h').1] at hk
      exact hapart k hk
    · rw [hmark.fat, hfreed x hx]
    · rw [hmark.fat, hkept x hx]
    · rw [hmark.entry, Volume.at, hslot, hfound.2.1]
    · rw [hmark.other q hq, Volume.at, hslot, Volume.at]
  · refine wp_mono (removeDirEntry_cut hf hnot hc₁ hcut) (fun _ _ h => h.elim) fun err s₂ herr => ⟨herr, fun hapart => ?_⟩
    obtain ⟨k, hk, hmem⟩ := hmeet
    exact hapart n i j hfound.1 k hk hmem

theorem rmdir_steps {path child : List Byte} {parent : ℕ} {s₁ s₂ : FatState} (hf : g.Fits dev) (hnot : ¬dev.Faulty)
    (hc : Coherent g s) (hres : resolveParent dev g path s = (.ok (parent, child), s₁))
    (hfind : findEntry dev g parent child s₁ = (.ok e, s₂)) (hdir : e.isDirectory = true)
    (hm : Chain g (vol g s.disk) e.cluster m) :
    wp (rmdir dev g path)
      (fun _ s' => ¬Counts g (vol g s.disk) m ∧ Apart g (vol g s.disk) parent child m ∧
        Removed g (vol g s.disk) (vol g s'.disk) parent child e m)
      (fun err _ => (err = .notEmpty ∧ Counts g (vol g s.disk) m) ∨
        (err = .badFs ∧ ¬Counts g (vol g s.disk) m ∧ ¬Apart g (vol g s.disk) parent child m)) s := by
  have hq₁ := wp_ok (resolveParent_any hf hc path) hres
  obtain ⟨hq₂, n, i, j, hfound⟩ := wp_ok (findEntry_any hf (hq₁.coherent hc) parent child) hfind
  rw [hq₁.disk] at hfound
  have hq₂ := hq₁.trans hq₂
  obtain ⟨empty, hempty, hiff⟩ := isEmptyDir_counts hf hm
  unfold rmdir
  rw [wp_bind, wp_of_ok hres, wp_bind, wp_of_ok hfind, wp_bind, wp_ensure, if_pos hdir, wp_bind]
  rw [← hq₂.disk] at hempty
  refine hempty.wp_ok (hq₂.coherent hc) (fun s₃ hq₃ _ => ?_) fun err s₃ _ hfault => absurd (Or.inl hfault.1) hnot
  have hq₃ := hq₂.trans hq₃
  rw [wp_bind, wp_ensure]
  split
  · rename_i htrue
    have hsteps := freeThenRemove_steps hf hnot (hq₃.coherent hc) (by rw [hq₃.disk]; exact hm)
      (by rw [hq₃.disk]; exact hfound)
    rw [hq₃.disk] at hsteps
    exact wp_mono hsteps (fun _ s₄ h₄ => ⟨hiff.mp htrue, h₄⟩) fun err s₄ h₄ => Or.inr ⟨h₄.1, hiff.mp htrue, h₄.2⟩
  · rename_i hfalse
    refine Or.inl ⟨rfl, ?_⟩
    by_contra hcounts
    exact hfalse (hiff.mpr hcounts)

/-- `read_dir` lists an entry whose displayed name is neither "." nor "..". -/
def ListsProper (dev : Device) (g : Geometry) (c : ℕ) (s : FatState) : Prop :=
  ∃ es, Lists dev g c s es ∧ ∃ a ∈ es, a.isProper = true

/-- `rmdir` refuses the directory exactly if `read_dir` lists such an entry, and removes it otherwise. -/
structure RmdirAgrees (dev : Device) (g : Geometry) (path : List Byte) (parent : ℕ) (child : List Byte)
    (e : FatDirEntry) (m : List ℕ) (s : FatState) : Prop where
  refuses : (rmdir dev g path s).1 = .error .notEmpty ↔ ListsProper dev g e.cluster s
  removes : ¬ListsProper dev g e.cluster s → (rmdir dev g path s).1 = .ok () ∧
    Removed g (vol g s.disk) (vol g (rmdir dev g path s).2.disk) parent child e m

theorem listsProper_iff (hf : g.Fits dev) (hnot : ¬dev.Faulty) (hc : Coherent g s)
    (hl : Chain g (vol g s.disk) d l) : ListsProper dev g d s ↔ Shows g (vol g s.disk) l := by
  have hlists := lists_listed hf hnot hc hl
  constructor
  · rintro ⟨es, hes, ha⟩
    rw [← hlists.unique hes] at ha
    exact ha
  · intro h
    exact ⟨_, hlists, h⟩

/-- The directory "D" in clusters 3 and 4, with its own two entries in cluster 3; `stale` tells
whether an old entry is left behind the end mark, in cluster 4. -/
def nestedDisk (stale : Bool) : ℕ → Sector
  | 0 => sampleBoot
  | 1 => ((Block.zero.setWord32 8 fat32EocMax).setWord32 12 4).setWord32 16 fat32EocMax
  | 2 => Block.zero.setEntry 0 (makeEntry ([0x44], []) attrDirectory 3)
  | 3 => (Block.zero.setEntry 0 (makeEntry ([dot], []) attrDirectory 3)).setEntry 1
      (makeEntry ([dot, dot], []) attrDirectory 0)
  | 4 => if stale then Block.zero.setEntry 0 (makeEntry ([0x43], []) attrArchive 0) else Block.zero
  | _ => Block.zero

def nestedState (stale : Bool) : FatState := ⟨nestedDisk stale, Block.zero, fatInvalidSector, false, false, 0, []⟩

/-- The entry of "D". -/
def nestedEntry (stale : Bool) : FatDirEntry := (nestedDisk stale 2).entry 0

theorem nested_chain (stale : Bool) :
    Chain sampleGeometry (vol sampleGeometry (nestedState stale).disk) (nestedEntry stale).cluster [3, 4] := by
  cases stale <;> exact ⟨by simp, by decide, fat32EocMax, by decide, by decide, by decide, rfl⟩

theorem nested_resolve (stale : Bool) :
    resolveParent (steadyDevice sampleGeometry) sampleGeometry [0x44] (nestedState stale) =
      (.ok (2, [0x44]), nestedState stale) := rfl

theorem nested_find (stale : Bool) :
    findEntry (steadyDevice sampleGeometry) sampleGeometry 2 [0x44] (nestedState stale) =
      (.ok (nestedEntry stale), { nestedState stale with served := 1 }) := by
  cases stale <;> rfl

end Zonix.Fat
