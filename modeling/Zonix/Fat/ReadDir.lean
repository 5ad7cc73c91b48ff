import Zonix.Fat.Entries

/-! # Listing a directory

`FatInfo::read_dir` of `kernel/fs/fat/fat_dir.cpp`.  A visitor folds the valid entries up to the
first end mark and may stop early; the one that collects them gives the listing of a directory. -/

namespace Zonix.Fat

open Prog

variable (dev : Device) (g : Geometry) {α : Type}

/-- The loop over entries: the visitor's state and the number of entries visited.  `visit` says
whether to stop. -/
def visitEntries (visit : α → FatDirEntry → α × Bool) : List FatDirEntry → α × ℕ → Flow (α × ℕ) (α × ℕ)
  | [], acc => .next acc
  | e :: es, acc =>
    if e.isEnd then .stop acc
    else if !e.isValid then visitEntries visit es acc
    else if (visit acc.1 e).2 then .stop ((visit acc.1 e).1, acc.2)
    else visitEntries visit es ((visit acc.1 e).1, acc.2 + 1)

def visitSectors (visit : α → FatDirEntry → α × Bool) (cluster : ℕ) :
    ℕ → ℕ → α × ℕ → FatM (Flow (α × ℕ) (α × ℕ))
  | 0, _, acc => pure (.next acc)
  | n + 1, i, acc => do
    let sector ← dev.readSector (g.clusterLba cluster i)
    match visitEntries visit sector.entries acc with
    | .stop acc => pure (.stop acc)
    | .next acc => visitSectors visit cluster n (i + 1) acc

def Flow.result : Flow α α → α
  | .next acc => acc
  | .stop acc => acc

def readDir (start : ℕ) (visit : α → FatDirEntry → α × Bool) (init : α) : FatM (α × ℕ) := do
  let flow ← walkChain dev g start (fun _ => true)
    (fun acc cluster => visitSectors dev g visit cluster g.sectorsPerCluster 0 acc) (init, 0)
  pure flow.result

def collect (es : List FatDirEntry) (e : FatDirEntry) : List FatDirEntry × Bool := (es ++ [e], false)

variable {dev} {g} {V : Volume} {disk : ℕ → Sector} {c d : ℕ} {l : List ℕ}

theorem visitEntries_append (visit : α → FatDirEntry → α × Bool) (es es' : List FatDirEntry) (acc : α × ℕ) :
    visitEntries visit (es ++ es') acc = match visitEntries visit es acc with
      | .next acc => visitEntries visit es' acc
      | .stop acc => .stop acc := by
  induction es generalizing acc with
  | nil => rfl
  | cons e es ih =>
    rw [List.cons_append, visitEntries, visitEntries]
    split
    · rfl
    · split
      · exact ih acc
      · split
        · rfl
        · exact ih _

def slotsOf (g : Geometry) (V : Volume) (l : List ℕ) : List FatDirEntry := (positions g l).map V.at

theorem slotsOf_append (l₁ l₂ : List ℕ) : slotsOf g V (l₁ ++ l₂) = slotsOf g V l₁ ++ slotsOf g V l₂ := by
  unfold slotsOf
  rw [positions_append, List.map_append]

theorem entries_eq (disk : ℕ → Sector) {i : ℕ} (hv : g.Valid c) (hi : i < g.sectorsPerCluster) :
    (disk (g.dataLba c i)).entries =
      (List.range' (entriesPerSector * i) entriesPerSector).map ((vol g disk).slot c) := by
  unfold Block.entries
  rw [List.range'_eq_map_range, List.map_map]
  refine List.map_congr_left fun j hj => ?_
  exact (vol_slot disk hv hi (List.mem_range.mp hj)).symm

theorem visitSectors_reads (visit : α → FatDirEntry → α × Bool) (disk : ℕ → Sector) (hf : g.Fits dev) (hv : g.Valid c) (n i : ℕ) (hi : i + n = g.sectorsPerCluster)
    (acc : α × ℕ) : Reads dev g disk (visitSectors dev g visit c n i acc)
      (.ok (visitEntries visit
        ((List.range' (entriesPerSector * i) (entriesPerSector * n)).map ((vol g disk).slot c)) acc)) := by
  induction n generalizing i acc with
  | zero => exact Reads.pure
  | succ n ih =>
    have hsplit : List.range' (entriesPerSector * i) (entriesPerSector * (n + 1)) =
        List.range' (entriesPerSector * i) entriesPerSector ++
          List.range' (entriesPerSector * (i + 1)) (entriesPerSector * n) := by
      rw [Nat.mul_succ, Nat.mul_succ, Nat.add_comm (entriesPerSector * n), List.range'_append_1]
    unfold visitSectors
    refine Reads.bind (reads_sector hf hv (by omega)) ?_
    rw [hsplit, List.map_append, visitEntries_append, ← entries_eq disk hv (by omega)]
    cases visitEntries visit (disk (g.dataLba c i)).entries acc with
    | stop acc => exact Reads.pure
    | next acc => exact ih (i + 1) (by omega) acc

theorem slotsOf_single (g : Geometry) (V : Volume) (c : ℕ) :
    slotsOf g V [c] = (List.range' (entriesPerSector * 0) (entriesPerSector * g.sectorsPerCluster)).map (V.slot c) := by
  unfold slotsOf positions Geometry.slots
  rw [Nat.mul_zero, ← List.range_eq_range', List.flatMap_singleton, List.map_map]
  rfl

theorem readDir_reads (hf : g.Fits dev) (hl : Chain g (vol g disk) d l) (visit : α → FatDirEntry → α × Bool)
    (init : α) :
    Reads dev g disk (readDir dev g d visit init) (.ok (visitEntries visit (slotsOf g (vol g disk) l) (init, 0)).result) := by
  intro s hd hc
  obtain rfl := hd
  unfold readDir
  rw [wp_bind]
  refine walkChain_wp hf (l := l) (I := fun done acc s₁ => Quiet g s s₁ ∧ s₁.faults = s.faults ∧
    visitEntries visit (slotsOf g (vol g s.disk) done) (init, 0) = .next acc) ?_ (init, 0) ⟨Quiet.refl s, rfl, rfl⟩
  constructor
  · intro done acc s₁ h₁
    exact ⟨h₁.1.coherent hc, h₁.1.disk ▸ hl⟩
  · intro done acc s₁ s₂ h₁ hq hfl
    exact ⟨h₁.1.trans hq, hfl.trans h₁.2.1, h₁.2.2⟩
  · intro done acc s₁ e s₂ h₁ hq hfault
    exact ⟨h₁.1.trans hq, Or.inr (hfault.after h₁.2.1)⟩
  · intro done x rest acc s₁ hsplit _ h₁
    obtain ⟨hq₁, hf₁, hdone⟩ := h₁
    have hx : g.Valid x := hl.valid x (by simp [hsplit])
    have hread := visitSectors_reads visit s₁.disk hf hx g.sectorsPerCluster 0 (by omega) acc
    rw [← slotsOf_single, hq₁.disk] at hread
    have hmore := visitEntries_append visit (slotsOf g (vol g s.disk) done) (slotsOf g (vol g s.disk) [x])
      (init, 0)
    rw [← slotsOf_append, hdone] at hmore
    rw [← hq₁.disk] at hread
    refine hread.wp_ok (hq₁.coherent hc) (fun s₂ hq hfl => ?_) fun e s₂ hq hfault =>
      ⟨hq₁.trans hq, Or.inr (hfault.after hf₁)⟩
    rw [hq₁.disk]
    cases hflow : visitEntries visit (slotsOf g (vol g s.disk) [x]) acc with
    | next acc' => exact ⟨hq₁.trans hq, hfl.trans hf₁, hmore.trans hflow⟩
    | stop acc' =>
      dsimp only
      rw [wp_pure]
      refine ⟨?_, hq₁.trans hq, hfl.trans hf₁⟩
      have hall : slotsOf g (vol g s.disk) l = slotsOf g (vol g s.disk) (done ++ [x]) ++ slotsOf g (vol g s.disk) rest := by
        rw [← slotsOf_append, hsplit]
        simp
      rw [hall, visitEntries_append, hmore.trans hflow]
  · intro done rest acc s₁ hsplit hend h₁
    obtain rfl : rest = [] := by simpa using hend
    rw [List.append_nil] at hsplit
    rw [wp_pure, hsplit, h₁.2.2]
    exact ⟨rfl, h₁.1, h₁.2.1⟩

/-! ## The entries listed -/

def shown (es : List FatDirEntry) : List FatDirEntry := (es.takeWhile fun e => !e.isEnd).filter FatDirEntry.isValid

def listed (g : Geometry) (V : Volume) (l : List ℕ) : List FatDirEntry := shown (slotsOf g V l)

theorem shown_end {e : FatDirEntry} (he : e.isEnd = true) (es : List FatDirEntry) : shown (e :: es) = [] := by
  simp [shown, he]

theorem shown_cons {e : FatDirEntry} (he : e.isEnd = false) (es : List FatDirEntry) :
    shown (e :: es) = if e.isValid then e :: shown es else shown es := by
  simp [shown, he, List.filter_cons]

theorem shown_append {es : List FatDirEntry} (h : ∀ e ∈ es, e.isEnd = false) (es' : List FatDirEntry) :
    shown (es ++ es') = es.filter FatDirEntry.isValid ++ shown es' := by
  unfold shown
  rw [List.takeWhile_append_of_pos (fun e he => by simp [h e he]), List.filter_append]

theorem visitEntries_collect (es : List FatDirEntry) (acc : List FatDirEntry × ℕ) :
    (visitEntries collect es acc).result = (acc.1 ++ shown es, acc.2 + (shown es).length) := by
  induction es generalizing acc with
  | nil => simp [visitEntries, Flow.result, shown]
  | cons e es ih =>
    unfold visitEntries
    cases hend : e.isEnd with
    | true => simp [shown_end hend, Flow.result]
    | false =>
      rw [shown_cons hend]
      cases hvalid : e.isValid with
      | false => simp [ih]
      | true =>
        simp [ih, collect]
        omega

theorem readDir_listed (hf : g.Fits dev) (hl : Chain g (vol g disk) d l) :
    Reads dev g disk (readDir dev g d collect []) (.ok (listed g (vol g disk) l, (listed g (vol g disk) l).length)) := by
  have hread := readDir_reads hf hl collect []
  rw [visitEntries_collect] at hread
  simpa [listed] using hread

end Zonix.Fat
