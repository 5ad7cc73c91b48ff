import Zonix.Fat.Runs

/-! # Open files

`FatFile` and `FatFileSystem` of `kernel/fs/fat/fat_vfs.cpp`: a handle carries its own copy of the
directory entry, and every other call may come between two uses of it. -/

namespace Zonix.Fat

open Prog Pointer

variable {dev : Device} {g : Geometry} {s s' : FatState} {l : List ℕ} {V V' : Volume}

/-- `entry` is the copy that the code keeps.  `origin`, the slot it was copied from, is a record for
the statements here; the code has no such field. -/
structure FatFile where
  entry : FatDirEntry
  origin : Pos

namespace FatFile

/-- The sizes that `is_valid` admits. -/
def InBounds (size offset : ℕ) : Prop := size ≤ 0xFFFFFFFF ∧ offset ≤ 0xFFFFFFFF

instance (size offset : ℕ) : Decidable (InBounds size offset) := inferInstanceAs (Decidable (_ ∧ _))

def io (dev : Device) (g : Geometry) (f : FatFile) (writeback scratch : Bool) (buf : ℕ → Byte) (size offset : ℕ) :
    FatM (ℕ × (ℕ → Byte)) := do
  ensure (InBounds size offset) .invalid
  doFileIo dev g scratch f.entry buf offset size writeback

def read (dev : Device) (g : Geometry) (f : FatFile) (scratch : Bool) (buf : ℕ → Byte) (size offset : ℕ) :
    FatM (ℕ × (ℕ → Byte)) := f.io dev g false scratch buf size offset

def write (dev : Device) (g : Geometry) (f : FatFile) (scratch : Bool) (buf : ℕ → Byte) (size offset : ℕ) :
    FatM (ℕ × (ℕ → Byte)) := f.io dev g true scratch buf size offset

end FatFile

/-- `FatFileSystem::open`: the entry for the new handle; `mem` tells whether it can be allocated. -/
def openFile (dev : Device) (g : Geometry) (mem : Bool) (relpath : List Byte) : FatM FatDirEntry := do
  ensure (relpath ≠ []) .invalid
  let e ← findFile dev g relpath
  ensure (e.isDirectory = false) .invalid
  ensure (mem = true) .noMem
  pure e

/-! ## Sessions -/

inductive Request where
  | open (relpath : List Byte) (mem : Bool)
  | close (handle : ℕ)
  | read (handle : ℕ) (scratch : Bool) (buf : ℕ → Byte) (size offset : ℕ)
  | write (handle : ℕ) (scratch : Bool) (buf : ℕ → Byte) (size offset : ℕ)
  | call (c : Call)

/-- The volume and the handles; a closed handle leaves its place empty. -/
structure Session where
  fat : FatState
  files : List (Option FatFile)

def Session.file (σ : Session) (handle : ℕ) : Option FatFile := (σ.files[handle]?).join

inductive Step (dev : Device) (g : Geometry) : Session → Request → Session → Prop
  | opened {σ : Session} {relpath : List Byte} {mem : Bool} {e : FatDirEntry} {s' : FatState} {d : ℕ} {l : List ℕ}
      {name : List Byte} {p : Pos} (run : openFile dev g mem relpath σ.fat = (.ok e, s'))
      (found : Found g (vol g σ.fat.disk) relpath d l name p) :
      Step dev g σ (.open relpath mem) ⟨s', σ.files ++ [some ⟨e, p⟩]⟩
  | refused {σ : Session} {relpath : List Byte} {mem : Bool} {err : Error} {s' : FatState}
      (run : openFile dev g mem relpath σ.fat = (.error err, s')) : Step dev g σ (.open relpath mem) ⟨s', σ.files⟩
  | close {σ : Session} {handle : ℕ} : Step dev g σ (.close handle) ⟨σ.fat, σ.files.set handle none⟩
  | read {σ : Session} {handle : ℕ} {f : FatFile} {scratch : Bool} {buf : ℕ → Byte} {size offset : ℕ}
      (file : σ.file handle = some f) : Step dev g σ (.read handle scratch buf size offset)
        ⟨(f.read dev g scratch buf size offset σ.fat).2, σ.files⟩
  | write {σ : Session} {handle : ℕ} {f : FatFile} {scratch : Bool} {buf : ℕ → Byte} {size offset : ℕ}
      (file : σ.file handle = some f) : Step dev g σ (.write handle scratch buf size offset)
        ⟨(f.write dev g scratch buf size offset σ.fat).2, σ.files⟩
  | call {σ : Session} {c : Call} (path : ∀ b ∈ c.relpath, b ≠ 0) :
      Step dev g σ (.call c) ⟨(c.run dev g σ.fat).2, σ.files⟩

/-- The sessions that requests lead to, each request admitted by `P`. -/
inductive Reach (dev : Device) (g : Geometry) (P : Session → Request → Prop) (σ₀ : Session) : Session → Prop
  | start : Reach dev g P σ₀ σ₀
  | step {σ σ' : Session} {r : Request} (reach : Reach dev g P σ₀ σ) (admitted : P σ r) (run : Step dev g σ r σ') :
      Reach dev g P σ₀ σ'

/-- No open file with a chain is unlinked. -/
def Spares (g : Geometry) (σ : Session) : Request → Prop
  | .call (.unlink relpath) => ∀ f, some f ∈ σ.files → f.entry.cluster ≠ 0 →
      ¬LeadsTo g (vol g σ.fat.disk) relpath false f.origin
  | _ => True

/-! ## What a handle stands for -/

def FileChain (g : Geometry) (V : Volume) (f : FatFile) (l : List ℕ) : Prop :=
  Visible g V f.origin ∧ Chain g V (V.at f.origin).cluster l

/-- Only data sectors of the file change. -/
def WriteConfined (g : Geometry) (f : FatFile) (s s' : FatState) : Prop :=
  (∀ lba, s'.disk lba ≠ s.disk lba →
    ∃ l, FileChain g (vol g s.disk) f l ∧ ∃ c ∈ l, ∃ i < g.sectorsPerCluster, lba = g.dataLba c i) ∧
  ∀ r l, Chains g (vol g s.disk) r l → r ≠ some f.origin →
    ∀ c ∈ l, ∀ i < g.sectorsPerCluster, s'.disk (g.dataLba c i) = s.disk (g.dataLba c i)

/-- The bytes that are returned come from the file, and from no other file or directory. -/
def ReadConfined (g : Geometry) (f : FatFile) (s : FatState) (buf : ℕ → Byte) (r : ℕ × (ℕ → Byte)) : Prop :=
  ∀ k, (k < r.1 → ∃ l, FileChain g (vol g s.disk) f l ∧
      (∀ r' m, Chains g (vol g s.disk) r' m → r' ≠ some f.origin → ∀ c ∈ l, c ∉ m) ∧
      ∃ c ∈ l, ∃ j < g.bytesPerCluster, r.2 k = clusterByte (fun i => s.disk (g.dataLba c i)) j) ∧
    (r.1 ≤ k → r.2 k = buf k)

structure Backed (g : Geometry) (V : Volume) (f : FatFile) : Prop where
  file : f.entry.isDirectory = false
  entry : f.entry.cluster ≠ 0 → Visible g V f.origin ∧ V.at f.origin = f.entry

variable {f : FatFile} {σ : Session}

theorem Backed.keep {S : Pos → Prop} (h : Backed g V f) (hk : Keeps g S V V')
    (hS : f.entry.cluster ≠ 0 → ¬S f.origin) : Backed g V' f := by
  refine ⟨h.file, fun hne => ?_⟩
  obtain ⟨hv, he⟩ := h.entry hne
  obtain ⟨hv', he'⟩ := hk f.origin hv (hS hne)
  exact ⟨hv', he'.trans he⟩

theorem FileChain.disjoint {r : Option Pos} {m : List ℕ} {c : ℕ} (h : FileChain g V f l) (hs : Sound g V)
    (hm : Chains g V r m) (hr : r ≠ some f.origin) (hc : c ∈ l) : c ∉ m := by
  intro hcm
  have hne : (V.at f.origin).cluster ≠ 0 := fun h0 => not_valid_zero g (h0 ▸ h.2.start_valid)
  exact hr (hs.disjoint r (some f.origin) m l hm ⟨_, ⟨h.1, rfl, hne⟩, h.2⟩ c hcm hc)

theorem Backed.clusters (h : Backed g V f) (hs : Sound g V) :
    ∃ l, (f.entry.isDirectory = false → g.Valid f.entry.cluster → Chain g V f.entry.cluster l) ∧
      (∀ d m x, IsDir g V d → Chain g V d m → x ∈ m → x ∉ l) ∧ (l ≠ [] → FileChain g V f l) := by
  by_cases hv : g.Valid f.entry.cluster
  · obtain ⟨hvis, hat⟩ := h.entry fun h0 => not_valid_zero g (h0 ▸ hv)
    obtain ⟨l, hl, hdisj⟩ := hs.file_chain hvis
    rw [hat] at hl
    exact ⟨l, hl, hdisj, fun _ => ⟨hvis, hat ▸ hl h.file hv⟩⟩
  · exact ⟨[], fun _ h' => absurd h' hv, fun _ _ _ _ _ _ => by simp, fun h' => absurd rfl h'⟩

theorem DataOnly.writeConfined (h : DataOnly g l s s') (hs : Sound g (vol g s.disk))
    (hl : l ≠ [] → FileChain g (vol g s.disk) f l) : WriteConfined g f s s' := by
  have hfile : ∀ {c}, c ∈ l → FileChain g (vol g s.disk) f l := fun hc => hl (List.ne_nil_of_mem hc)
  constructor
  · intro lba hne
    obtain ⟨c, hc, hi⟩ := h.sector lba hne
    exact ⟨l, hfile hc, c, hc, hi⟩
  · intro r m hm hr c hc i hi
    by_contra hne
    obtain ⟨c', hc', i', hi', heq⟩ := h.sector _ hne
    have hvalid : g.Valid c := by
      obtain ⟨start, -, hchain⟩ := hm
      exact hchain.valid c hc
    obtain ⟨rfl, -⟩ := g.dataLba_inj hvalid ((hfile hc').2.valid c' hc') hi hi' heq
    exact (hfile hc').disjoint hs hm hr hc' hc

theorem readConfined {buf : ℕ → Byte} {r : ℕ × (ℕ → Byte)} {offset : ℕ} (hs : Sound g (vol g s.disk))
    (hl : l ≠ [] → FileChain g (vol g s.disk) f l) (hlen : r.1 = 0 ∨ offset + r.1 ≤ l.length * g.bytesPerCluster)
    (hr : ∀ k, r.2 k = if k < r.1 then chainByte g s.disk l (offset + k) else buf k) : ReadConfined g f s buf r := by
  have hpos := bytesPerCluster_pos g
  intro k
  constructor
  · intro hk
    have hidx : (offset + k) / g.bytesPerCluster < l.length := by
      rw [Nat.div_lt_iff_lt_mul hpos]
      omega
    have hmem : l.getD ((offset + k) / g.bytesPerCluster) 0 ∈ l := by
      rw [List.getD_eq_getElem l 0 hidx]
      exact List.getElem_mem hidx
    have hfile := hl (List.ne_nil_of_mem hmem)
    refine ⟨l, hfile, fun r' m hm hne c hc => hfile.disjoint hs hm hne hc, _, hmem,
      (offset + k) % g.bytesPerCluster, Nat.mod_lt _ hpos, ?_⟩
    rw [hr k, if_pos hk, chainByte]
  · intro hk
    rw [hr k, if_neg (by omega)]

/-! ## Steps -/

structure SessionOk (g : Geometry) (σ : Session) : Prop where
  healthy : Healthy g σ.fat
  backed : ∀ f, some f ∈ σ.files → Backed g (vol g σ.fat.disk) f

theorem SessionOk.start (hr : Regular g (vol g s.disk)) (hc : Coherent g s) : SessionOk g ⟨s, []⟩ := by
  refine ⟨⟨hr, hc⟩, fun f hf => ?_⟩
  simp at hf

theorem SessionOk.quiet (h : SessionOk g σ) (hq : Quiet g σ.fat s') : SessionOk g ⟨s', σ.files⟩ := by
  refine ⟨hq.healthy h.healthy, fun f hf => ?_⟩
  show Backed g (vol g s'.disk) f
  rw [hq.disk]
  exact h.backed f hf

theorem SessionOk.file {handle : ℕ} (h : SessionOk g σ) (hf : σ.file handle = some f) :
    Backed g (vol g σ.fat.disk) f := by
  refine h.backed f ?_
  unfold Session.file at hf
  exact List.mem_of_getElem? (Option.join_eq_some_iff.mp hf)

theorem openFile_wp (relpath : List Byte) (mem : Bool) (hf : g.Fits dev) (hc : Coherent g s)
    (hs : Sound g (vol g s.disk)) :
    wp (openFile dev g mem relpath)
      (fun e s' => Quiet g s s' ∧ e.isDirectory = false ∧
        ∃ d l name p, Found g (vol g s.disk) relpath d l name p ∧ (vol g s.disk).at p = e)
      (fun _ s' => Quiet g s s') s := by
  unfold openFile
  simp only [wp_bind, wp_ensure, wp_pure]
  split
  swap
  · exact Quiet.refl s
  refine wp_mono (findFile_wp hf hc hs) (fun e s₁ h₁ => ?_) fun _ _ h₁ => h₁
  obtain ⟨hq, hfound⟩ := h₁
  split
  · rename_i hfile
    split
    · exact ⟨hq, hfile, hfound⟩
    · exact hq
  · exact hq

theorem WriteConfined.refl (g : Geometry) (f : FatFile) (s : FatState) : WriteConfined g f s s :=
  ⟨fun _ h => absurd rfl h, fun _ _ _ _ _ _ _ _ => rfl⟩

theorem FatFile.io_wp (hf : g.Fits dev) (hs : Healthy g s) (hb : Backed g (vol g s.disk) f)
    (writeback scratch : Bool) (buf : ℕ → Byte) (size offset : ℕ) :
    wp (f.io dev g writeback scratch buf size offset)
      (fun r s' => (Healthy g s' ∧ Same g (vol g s.disk) (vol g s'.disk)) ∧ WriteConfined g f s s' ∧
        (writeback = false → ReadConfined g f s buf r))
      (fun _ s' => (Healthy g s' ∧ Same g (vol g s.disk) (vol g s'.disk)) ∧ WriteConfined g f s s') s := by
  have hsound := hs.regular.sound
  obtain ⟨l, hchain, hdisj, hfile⟩ := hb.clusters hsound
  unfold FatFile.io
  rw [wp_bind, wp_ensure]
  split
  swap
  · exact ⟨⟨hs, Same.refl g _⟩, WriteConfined.refl g f s⟩
  refine wp_mono (doFileIo_wp hf hs.coherent hchain scratch writeback buf offset size) (fun r s₁ h₁ => ?_) fun _ s₁ h₁ => ?_
  · obtain ⟨hd, -, -, -, hlen, hread, -⟩ := h₁
    exact ⟨⟨hd.healthy hs hdisj, (hd.agree hdisj).same hsound⟩, hd.writeConfined hsound hfile,
      fun hw => readConfined hsound hfile hlen (hread hw).2⟩
  · exact ⟨⟨h₁.1.healthy hs hdisj, (h₁.1.agree hdisj).same hsound⟩, h₁.1.writeConfined hsound hfile⟩

theorem SessionOk.same (h : SessionOk g σ)
    (hs : Healthy g s' ∧ Same g (vol g σ.fat.disk) (vol g s'.disk)) : SessionOk g ⟨s', σ.files⟩ :=
  ⟨hs.1, fun f hf => (h.backed f hf).keep (S := fun _ => False) hs.2.keeps fun _ h => h⟩

theorem Step.ok {σ' : Session} {r : Request} (hf : g.Fits dev) (hnot : ¬dev.Faulty) (h : SessionOk g σ)
    (hsp : Spares g σ r) (hstep : Step dev g σ r σ') : SessionOk g σ' := by
  have hsound := h.healthy.regular.sound
  have hio : ∀ {f : FatFile} (writeback scratch : Bool) (buf : ℕ → Byte) (size offset : ℕ),
      Backed g (vol g σ.fat.disk) f → SessionOk g ⟨(f.io dev g writeback scratch buf size offset σ.fat).2, σ.files⟩ := by
    intro f writeback scratch buf size offset hb
    have hwp := wp_mono (f.io_wp hf h.healthy hb writeback scratch buf size offset) (fun _ _ h₁ => h₁.1) fun _ _ h₁ => h₁.1
    exact h.same (wp_left.mp hwp)
  cases hstep with
  | opened run found =>
    obtain ⟨hq, hfile, d, l, name, p, hfound, hat⟩ := wp_ok (openFile_wp _ _ hf h.healthy.coherent hsound) run
    obtain ⟨-, -, rfl⟩ := found.unique hfound
    have hold := h.quiet hq
    refine ⟨hold.healthy, fun f hf => ?_⟩
    rcases List.mem_append.mp hf with hf | hf
    · exact hold.backed f hf
    · obtain rfl := Option.some.inj (List.mem_singleton.mp hf)
      refine ⟨hfile, fun _ => ?_⟩
      show Visible g (vol g _) _ ∧ _
      rw [hq.disk]
      exact ⟨found.visible, hat⟩
  | refused run =>
    have hq := wp_error (openFile_wp _ _ hf h.healthy.coherent hsound) run
    exact h.quiet hq
  | close =>
    refine ⟨h.healthy, fun f hf => ?_⟩
    rcases List.mem_or_eq_of_mem_set hf with hf | hf
    · exact h.backed f hf
    · simp at hf
  | read file => exact hio false _ _ _ _ (h.file file)
  | write file => exact hio true _ _ _ _ (h.file file)
  | @call c path =>
    have hdone := c.run_done hf hnot h.healthy path
    refine ⟨hdone.healthy, fun f hf => (h.backed f hf).keep hdone.keeps fun hne hrem => ?_⟩
    cases c with
    | mkdir path => exact hrem
    | createFile path => exact hrem
    | unlink path => exact hsp f hf hne hrem
    | rmdir path =>
      -- `rmdir` removes directories only
      have hdir := hrem.1
      rw [((h.backed f hf).entry hne).2, (h.backed f hf).file] at hdir
      simp at hdir

theorem Reach.ok {σ₀ : Session} (hf : g.Fits dev) (hnot : ¬dev.Faulty) (h₀ : SessionOk g σ₀)
    (h : Reach dev g (Spares g) σ₀ σ) : SessionOk g σ := by
  induction h with
  | start => exact h₀
  | step _ admitted run ih => exact run.ok hf hnot ih admitted

def sampleMounted : FatState := { sampleState with served := 2 }

def sampleFile : FatFile := ⟨(vol sampleGeometry sampleState.disk).at (2, 0), (2, 0)⟩

/-- The sample session after `open` of "/A". -/
def sampleSession : Session :=
  ⟨(openFile (steadyDevice sampleGeometry) sampleGeometry true [slash, 0x41] sampleMounted).2, [some sampleFile]⟩

theorem sample_open : Step (steadyDevice sampleGeometry) sampleGeometry ⟨sampleMounted, []⟩
    (.open [slash, 0x41] true) sampleSession :=
  .opened (show openFile _ _ true [slash, 0x41] sampleMounted = (.ok sampleFile.entry, _) from rfl) sample_found

/-- "/A" is opened and unlinked; then a file "/C" takes its slot and a directory "/B" its cluster. -/
def sampleStale : Session :=
  let dev := steadyDevice sampleGeometry
  let s := (Call.run dev sampleGeometry (.unlink [slash, 0x41]) sampleSession.fat).2
  let s := (Call.run dev sampleGeometry (.createFile [slash, 0x43]) s).2
  ⟨(Call.run dev sampleGeometry (.mkdir [slash, 0x42]) s).2, [some sampleFile]⟩

end Zonix.Fat
