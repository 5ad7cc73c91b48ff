import Zonix.Fat.Mount
import Zonix.Fat.FileIo

/-! # Runs of file system calls

A mounted volume under a sequence of calls on a device that serves every request. -/

namespace Zonix.Fat

open Prog Pointer

variable {dev : Device} {g : Geometry} {s s' : FatState} {l : List ℕ} {e : FatDirEntry} {p : Pos} {path : List Byte}

/-! ## Changing the tree -/

inductive Call where
  | mkdir (path : List Byte)
  | createFile (path : List Byte)
  | unlink (path : List Byte)
  | rmdir (path : List Byte)

namespace Call

def relpath : Call → List Byte
  | mkdir path => path
  | createFile path => path
  | unlink path => path
  | rmdir path => path

def run (dev : Device) (g : Geometry) : Call → FatM Unit
  | mkdir path => Fat.mkdir dev g path
  | createFile path => Fat.createFile dev g path
  | unlink path => Fat.unlink dev g path
  | rmdir path => Fat.rmdir dev g path

def Removes (g : Geometry) (V : Volume) : Call → Pos → Prop
  | mkdir _, _ => False
  | createFile _, _ => False
  | unlink path, p => LeadsTo g V path false p
  | rmdir path, p => LeadsTo g V path true p

end Call

/-- The characters that the shell delivers. -/
def Printable (path : List Byte) : Prop := ∀ b ∈ path, 0x21 ≤ b.toNat ∧ b.toNat ≤ 0x7E

theorem Printable.ne (h : Printable path) : (∀ b ∈ path, b ≠ 0) ∧ ∀ b ∈ path, b ≠ 0xE5 := by
  constructor
  · rintro b hb rfl
    exact absurd (h _ hb).1 (by decide)
  · rintro b hb rfl
    exact absurd (h _ hb).2 (by decide)

structure Healthy (g : Geometry) (s : FatState) : Prop where
  regular : Regular g (vol g s.disk)
  coherent : Coherent g s

theorem Quiet.healthy (h : Quiet g s s') (hs : Healthy g s) : Healthy g s' :=
  ⟨h.disk ▸ hs.regular, h.coherent hs.coherent⟩

structure CallDone (g : Geometry) (call : Call) (s s' : FatState) : Prop where
  healthy : Healthy g s'
  keeps : Keeps g (call.Removes g (vol g s.disk)) (vol g s.disk) (vol g s'.disk)
  cover : (∀ b ∈ call.relpath, b ≠ 0xE5) → Covered g (vol g s.disk) → Covered g (vol g s'.disk)

theorem Call.run_done (call : Call) (hf : g.Fits dev) (hnot : ¬dev.Faulty) (hs : Healthy g s)
    (h0 : ∀ b ∈ call.relpath, b ≠ 0) : CallDone g call s (call.run dev g s).2 := by
  obtain ⟨hw, hc⟩ := hs
  have hcreate : ∀ {m : FatM Unit} {path : List Byte} {C : FatState → Prop},
      wp m (fun _ s' => Preserved dev g path s s' ∧ C s') (CreateFailed dev g path s) s →
      Preserved dev g path s (m s).2 := by
    intro m path C hwp
    have hleft : wp m (fun _ s' => Preserved dev g path s s') (fun _ s' => Preserved dev g path s s') s :=
      wp_mono hwp (fun _ _ h => h.1) fun _ _ h => h.preserved
    exact wp_left.mp hleft
  have hadd : ∀ {s' : FatState}, Preserved dev g call.relpath s s' →
      Keeps g (call.Removes g (vol g s.disk)) (vol g s.disk) (vol g s'.disk) → CallDone g call s s' := by
    intro s' h hk
    exact ⟨⟨⟨h.sound, (h.tidy hnot).1⟩, (h.tidy hnot).2⟩, hk, h.cover hnot⟩
  cases call with
  | mkdir path =>
    have h := hcreate (mkdir_wp hf hc hw h0)
    exact hadd h h.keeps
  | createFile path =>
    have h := hcreate (createFile_wp hf hc hw h0)
    exact hadd h h.keeps
  | unlink path =>
    have h := wp_left.mp (unlink_wp hf hc hw path)
    obtain ⟨hr, hcoh, hk⟩ := h.regular hnot
    exact ⟨⟨hr, hcoh⟩, hk, fun _ => h.cover hnot⟩
  | rmdir path =>
    have h := wp_left.mp (rmdir_wp hf hc hw path)
    obtain ⟨hr, hcoh, hk⟩ := h.regular hnot
    exact ⟨⟨hr, hcoh⟩, hk, fun _ => h.cover hnot⟩

/-! ## Writing files -/

theorem Sound.file_chain {V : Volume} (hs : Sound g V) (hp : Visible g V p) :
    ∃ l, ((V.at p).isDirectory = false → g.Valid (V.at p).cluster → Chain g V (V.at p).cluster l) ∧
      ∀ d m x, IsDir g V d → Chain g V d m → x ∈ m → x ∉ l := by
  by_cases hfile : (V.at p).isDirectory = false ∧ g.Valid (V.at p).cluster
  · have hne : (V.at p).cluster ≠ 0 := fun h => not_valid_zero g (h ▸ hfile.2)
    have hr : Refers g V (some p) (V.at p).cluster := ⟨hp, rfl, hne⟩
    obtain ⟨l, hl⟩ := hs.chain _ _ hr
    refine ⟨l, fun _ _ => hl, fun d m x hd hm hx hxl => ?_⟩
    obtain ⟨r, hrd⟩ := hd.refers
    have heq := hs.start_eq hrd hr hm hl hx hxl
    have hdir := hs.refers_dir (heq ▸ hd) hr
    simp [hfile.1] at hdir
  · exact ⟨[], fun h h' => absurd ⟨h, h'⟩ hfile, fun _ _ _ _ _ _ => by simp⟩

theorem DataOnly.agree (h : DataOnly g l s s')
    (hl : ∀ d m x, IsDir g (vol g s.disk) d → Chain g (vol g s.disk) d m → x ∈ m → x ∉ l) :
    Agree g (vol g s.disk) (vol g s'.disk) :=
  h.touched.agree (fun _ _ => by simp) hl

theorem DataOnly.healthy (h : DataOnly g l s s') (hs : Healthy g s)
    (hl : ∀ d m x, IsDir g (vol g s.disk) d → Chain g (vol g s.disk) d m → x ∈ m → x ∉ l) : Healthy g s' :=
  ⟨hs.regular.of_agree (h.agree hl), h.coherent⟩

theorem writeFile_healthy (hf : g.Fits dev) (hs : Healthy g s) (hp : Visible g (vol g s.disk) p) (scratch : Bool)
    (buf : ℕ → Byte) (offset size : ℕ) :
    wp (writeFile dev g scratch ((vol g s.disk).at p) buf offset size)
      (fun _ s' => Healthy g s' ∧ (Covered g (vol g s.disk) → Covered g (vol g s'.disk)))
      (fun _ s' => Healthy g s' ∧ (Covered g (vol g s.disk) → Covered g (vol g s'.disk))) s := by
  obtain ⟨l, hchain, hdisj⟩ := hs.regular.sound.file_chain hp
  have hdone : ∀ {s' : FatState}, DataOnly g l s s' →
      Healthy g s' ∧ (Covered g (vol g s.disk) → Covered g (vol g s'.disk)) := by
    intro s' h
    refine ⟨h.healthy hs hdisj, fun hcov => ?_⟩
    exact hcov.of_agree hs.regular.sound (h.agree hdisj) fun x => h.touched.fat x (by simp)
  exact wp_mono (doFileIo_wp hf hs.coherent hchain scratch true buf offset size) (fun _ _ h => hdone h.1) fun _ _ h => hdone h.1

/-! ## Runs -/

/-- A call, or a write to the file that a path leads to. -/
inductive Op where
  | call (c : Call)
  | write (path : List Byte) (scratch : Bool) (buf : ℕ → Byte) (offset size : ℕ)

namespace Op

def relpath : Op → List Byte
  | call c => c.relpath
  | write path _ _ _ _ => path

def run (dev : Device) (g : Geometry) : Op → FatM Unit
  | call c => c.run dev g
  | write path scratch buf offset size => do
    let e ← findFile dev g path
    let _ ← writeFile dev g scratch e buf offset size

theorem run_healthy (op : Op) (hf : g.Fits dev) (hnot : ¬dev.Faulty) (hs : Healthy g s)
    (hcov : Covered g (vol g s.disk)) (hp : Printable op.relpath) :
    Healthy g (op.run dev g s).2 ∧ Covered g (vol g (op.run dev g s).2.disk) := by
  cases op with
  | call c =>
    have h := c.run_done hf hnot hs hp.ne.1
    exact ⟨h.healthy, h.cover hp.ne.2 hcov⟩
  | write path scratch buf offset size =>
    suffices hwp : wp (Op.run dev g (write path scratch buf offset size))
        (fun _ s' => Healthy g s' ∧ Covered g (vol g s'.disk)) (fun _ s' => Healthy g s' ∧ Covered g (vol g s'.disk)) s from
      wp_left.mp hwp
    unfold run
    rw [wp_bind]
    refine wp_mono (findFile_wp hf hs.coherent hs.regular.sound) (fun e s₁ h₁ => ?_)
      fun _ s₁ hq => ⟨hq.healthy hs, hq.disk ▸ hcov⟩
    obtain ⟨hq, d, l, name, p, hfound, rfl⟩ := h₁
    have hvis : Visible g (vol g s₁.disk) p := hq.disk ▸ hfound.visible
    rw [← hq.disk] at hcov
    rw [wp_bind, ← hq.disk]
    exact wp_mono (writeFile_healthy hf (hq.healthy hs) hvis scratch buf offset size)
      (fun _ _ h => ⟨h.1, h.2 hcov⟩) fun _ _ h => ⟨h.1, h.2 hcov⟩

end Op

def runOps (dev : Device) (g : Geometry) (s : FatState) (ops : List Op) : FatState :=
  ops.foldl (fun s op => (op.run dev g s).2) s

theorem runOps_healthy (hf : g.Fits dev) (hnot : ¬dev.Faulty) (ops : List Op) (hs : Healthy g s)
    (hcov : Covered g (vol g s.disk)) (hp : ∀ op ∈ ops, Printable op.relpath) :
    Healthy g (runOps dev g s ops) ∧ Covered g (vol g (runOps dev g s ops).disk) := by
  induction ops generalizing s with
  | nil => exact ⟨hs, hcov⟩
  | cons op ops ih =>
    obtain ⟨hs', hcov'⟩ := op.run_healthy hf hnot hs hcov (hp op (by simp))
    exact ih hs' hcov' fun op' hop => hp op' (by simp [hop])

theorem mount_empty (dev : Device) (s : FatState) :
    wp (mount dev) (fun g s' => g.Fits dev ∧ s'.bufferSector = fatInvalidSector) (fun _ _ => True) s := by
  unfold mount
  rw [wp_bind]
  refine wp_mono (wp_trivial _ s) (fun partStart s₁ _ => ?_) fun _ _ h => h
  rw [wp_bind]
  refine wp_mono (wp_trivial _ s₁) (fun sector s₂ _ => ?_) fun _ _ h => h
  split
  · trivial
  · rename_i hrej
    exact ⟨Fat32BootSector.geometry_fits dev (bootSector sector) hrej, rfl⟩

theorem mount_wp (dev : Device) (s : FatState) :
    wp (mount dev) (fun g s' => g.Fits dev ∧ Coherent g s') (fun _ _ => True) s :=
  wp_mono (mount_empty dev s) (fun _ _ h => ⟨h.1, coherent_of_invalid h.2⟩) fun _ _ h => h

/-- Every call of a run on a mounted well-formed volume, failed ones included, leaves the volume well
formed. -/
theorem runOps_wellFormed (dev : Device) (g : Geometry) (s₀ s : FatState) (ops : List Op) (n : ℕ)
    (hm : mount dev s₀ = (.ok g, s)) (hnot : ¬dev.Faulty) (hw : WellFormed g (vol g s.disk))
    (hp : ∀ op ∈ ops, Printable op.relpath) : WellFormed g (vol g (runOps dev g s (ops.take n)).disk) := by
  have hmount := wp_ok (mount_wp dev s₀) hm
  obtain ⟨hs, hcov⟩ := runOps_healthy hmount.1 hnot (ops.take n) ⟨hw.toRegular, hmount.2⟩ hw.cover
    fun op hop => hp op (List.mem_of_mem_take hop)
  exact ⟨hs.regular, hcov⟩

theorem sample_mount : mount (steadyDevice sampleGeometry) sampleState =
    (.ok sampleGeometry, { sampleState with served := 2 }) := rfl

def sampleOps : List Op :=
  [.call (.mkdir [slash, 0x62]), .write [slash, 0x41] true (fun _ => 7) 0 1, .call (.unlink [slash, 0x41])]

theorem runOps_wellFormed_sample :
    WellFormed sampleGeometry (vol sampleGeometry (runOps (steadyDevice sampleGeometry) sampleGeometry
      { sampleState with served := 2 } (sampleOps.take 3)).disk) :=
  runOps_wellFormed (steadyDevice sampleGeometry) sampleGeometry sampleState _ sampleOps 3 sample_mount
    (steadyDevice_steady _) sample_wellFormed (by unfold Printable sampleOps; decide)

end Zonix.Fat
