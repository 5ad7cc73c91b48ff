import Zonix.Fat.Handles

/-! # The law of file I/O

`read_file` and `write_file` of `kernel/fs/fat/fat_dir.cpp` as reads and writes of one array of
bytes, the data of the file's chain. -/

namespace Zonix.Fat

open Prog

variable {dev : Device} {g : Geometry} {s s' : FatState} {V : Volume} {e : FatDirEntry} {l : List ℕ}

/-- `l` is the chain of the file `e`; a file without one has no first cluster. -/
structure FileOn (g : Geometry) (V : Volume) (e : FatDirEntry) (l : List ℕ) : Prop where
  file : e.isDirectory = false
  chain : g.Valid e.cluster → Chain g V e.cluster l
  none : ¬g.Valid e.cluster → l = []

/-- The number of bytes that a call moves. -/
def ioCount (e : FatDirEntry) (offset size : ℕ) : ℕ := min size (e.fileSize - offset)

structure Wrote (g : Geometry) (l : List ℕ) (offset count : ℕ) (buf : ℕ → Byte) (s s' : FatState) : Prop where
  filled : Filled g s.disk s'.disk l offset count buf
  sectors : ∀ lba, s'.disk lba ≠ s.disk lba → ∃ c ∈ l, ∃ i < g.sectorsPerCluster, lba = g.dataLba c i
  fat : ∀ x, (vol g s'.disk).fat x = (vol g s.disk).fat x
  others : ∀ c m, Chain g (vol g s.disk) c m → (∀ x ∈ m, x ∉ l) → Chain g (vol g s'.disk) c m ∧
    ∀ k < m.length * g.bytesPerCluster, chainByte g s'.disk m k = chainByte g s.disk m k

theorem DataOnly.others {c : ℕ} {m : List ℕ} (h : DataOnly g l s s') (hm : Chain g (vol g s.disk) c m)
    (hapart : ∀ x ∈ m, x ∉ l) : Chain g (vol g s'.disk) c m ∧
      ∀ k < m.length * g.bytesPerCluster, chainByte g s'.disk m k = chainByte g s.disk m k := by
  refine ⟨h.chain hm, fun k hk => ?_⟩
  have hpos := bytesPerCluster_pos g
  have hidx : k / g.bytesPerCluster < m.length := (Nat.div_lt_iff_lt_mul hpos).mpr hk
  have hmem : m.getD (k / g.bytesPerCluster) 0 ∈ m := by
    rw [List.getD_eq_getElem m 0 hidx]
    exact List.getElem_mem hidx
  have hsec : k % g.bytesPerCluster / bytesPerSector < g.sectorsPerCluster := by
    rw [Nat.div_lt_iff_lt_mul (by decide), Nat.mul_comm]
    exact Nat.mod_lt k hpos
  unfold chainByte clusterByte
  dsimp only
  rw [h.touched.data _ _ (hm.valid _ hmem) hsec (hapart _ hmem)]

theorem DataOnly.wrote {offset count : ℕ} {buf : ℕ → Byte} (h : DataOnly g l s s')
    (hf : Filled g s.disk s'.disk l offset count buf) : Wrote g l offset count buf s s' :=
  ⟨hf, h.sector, fun x => h.touched.fat x (by simp), fun _ _ hm hapart => h.others hm hapart⟩

/-! ## One call -/

theorem doFileIo_answers (hf : g.Fits dev) (hnot : ¬dev.Faulty) (hc : Coherent g s)
    (hfile : FileOn g (vol g s.disk) e l) (henough : e.fileSize ≤ l.length * g.bytesPerCluster) (buf : ℕ → Byte)
    (offset size : ℕ) (writeback : Bool) :
    wp (doFileIo dev g true e buf offset size writeback)
      (fun r s' => offset ≤ e.fileSize ∧ r.1 = ioCount e offset size ∧ DataOnly g l s s' ∧
        (writeback = false → s'.disk = s.disk ∧
          ∀ k, r.2 k = if k < r.1 then chainByte g s.disk l (offset + k) else buf k) ∧
        (writeback = true → Filled g s.disk s'.disk l offset r.1 buf))
      (fun err s' => err = .invalid ∧ e.fileSize < offset ∧ s' = s) s := by
  refine wp_mono (doFileIo_wp hf hc (fun _ => hfile.chain) true writeback buf offset size) (fun r s' h => ?_)
    fun err s' h => ?_
  · obtain ⟨hd, -, hoff, hcount, -, hread, hwrite⟩ := h
    exact ⟨hoff, hcount, hd, hread, hwrite⟩
  · obtain ⟨-, hwhy⟩ := h
    cases hwhy with
    | directory hdir => simp [hfile.file] at hdir
    | offset hoff => exact ⟨rfl, hoff, rfl⟩
    | cluster hv hpos =>
      rw [hfile.none hv] at henough
      simp only [List.length_nil, Nat.zero_mul, Nat.le_zero] at henough
      omega
    | memory hmem => simp at hmem
    | short hoff hshort => omega
    | fault hfault => exact absurd hfault.1 hnot

theorem doFileIo_short (hf : g.Fits dev) (hnot : ¬dev.Faulty) (hc : Coherent g s)
    (hfile : FileOn g (vol g s.disk) e l) (hv : g.Valid e.cluster) {offset size : ℕ} (hoff : offset ≤ e.fileSize)
    (hpos : 0 < ioCount e offset size) (hshort : l.length * g.bytesPerCluster < offset + ioCount e offset size)
    (buf : ℕ → Byte) (writeback : Bool) : (doFileIo dev g true e buf offset size writeback s).1 = .error .badFs := by
  have hio := doFileIo_wp hf hc (fun _ => hfile.chain) true writeback buf offset size
  unfold ioCount at hpos hshort
  unfold wp at hio
  split at hio
  · rename_i r s' hrun
    obtain ⟨-, -, -, hcount, hfits, -⟩ := hio
    omega
  · rename_i err s' hrun
    obtain ⟨-, hwhy⟩ := hio
    cases hwhy with
    | directory hdir => simp [hfile.file] at hdir
    | offset hoff' => omega
    | cluster hv' => exact absurd hv hv'
    | memory hmem => simp at hmem
    | short => rw [hrun]
    | fault hfault => exact absurd hfault.1 hnot

/-! ## Sequences of writes -/

/-- A call of `write_file`. -/
structure FileWrite where
  buf : ℕ → Byte
  offset : ℕ
  size : ℕ

def FileWrite.Covers (e : FatDirEntry) (w : FileWrite) (p : ℕ) : Prop :=
  w.offset ≤ p ∧ p < w.offset + ioCount e w.offset w.size

instance (e : FatDirEntry) (w : FileWrite) (p : ℕ) : Decidable (w.Covers e p) := inferInstanceAs (Decidable (_ ∧ _))

def FileWrite.run (dev : Device) (g : Geometry) (e : FatDirEntry) (s : FatState) (w : FileWrite) : FatState :=
  (writeFile dev g true e w.buf w.offset w.size s).2

def runWrites (dev : Device) (g : Geometry) (e : FatDirEntry) (ws : List FileWrite) (s : FatState) : FatState :=
  ws.foldl (FileWrite.run dev g e) s

def lastWritten (e : FatDirEntry) (ws : List FileWrite) (p : ℕ) : Option Byte :=
  (ws.reverse.find? fun w => w.Covers e p).map fun w => w.buf (p - w.offset)

theorem lastWritten_snoc (e : FatDirEntry) (ws : List FileWrite) (w : FileWrite) (p : ℕ) :
    lastWritten e (ws ++ [w]) p = if w.Covers e p then some (w.buf (p - w.offset)) else lastWritten e ws p := by
  unfold lastWritten
  rw [List.reverse_append, List.reverse_singleton, List.singleton_append, List.find?_cons]
  by_cases h : w.Covers e p <;> simp [h]

theorem FileOn.keep (h : FileOn g (vol g s.disk) e l) (hd : DataOnly g l s s') : FileOn g (vol g s'.disk) e l :=
  ⟨h.file, fun hv => hd.chain (h.chain hv), h.none⟩

section

variable (hf : g.Fits dev) (hnot : ¬dev.Faulty) (hc : Coherent g s) (hfile : FileOn g (vol g s.disk) e l) (henough : e.fileSize ≤ l.length * g.bytesPerCluster)
include hf hnot hc hfile henough

theorem FileWrite.run_effect (w : FileWrite) :
    DataOnly g l s (w.run dev g e s) ∧ ∀ p, p < l.length * g.bytesPerCluster →
      chainByte g (w.run dev g e s).disk l p = if w.Covers e p then w.buf (p - w.offset) else chainByte g s.disk l p := by
  have hio := doFileIo_answers hf hnot hc hfile henough w.buf w.offset w.size true
  unfold FileWrite.run writeFile
  unfold wp at hio
  split at hio
  · rename_i r s' hrun
    obtain ⟨-, hcount, hd, -, hwrite⟩ := hio
    rw [hrun]
    rw [hcount] at hwrite
    exact ⟨hd, hwrite rfl⟩
  · rename_i err s' hrun
    obtain ⟨-, hoff, hsame⟩ := hio
    rw [hrun, hsame]
    refine ⟨(Quiet.refl (g := g) s).dataOnly hc, fun p _ => ?_⟩
    have hnone : ¬w.Covers e p := by
      rintro ⟨hle, hlt⟩
      unfold ioCount at hlt
      omega
    rw [if_neg hnone]

theorem runWrites_effect (ws : List FileWrite) :
    DataOnly g l s (runWrites dev g e ws s) ∧ ∀ p, p < l.length * g.bytesPerCluster →
      chainByte g (runWrites dev g e ws s).disk l p = (lastWritten e ws p).getD (chainByte g s.disk l p) := by
  induction ws using List.reverseRecOn with
  | nil => exact ⟨(Quiet.refl (g := g) s).dataOnly hc, fun p _ => rfl⟩
  | append_singleton ws w ih =>
    obtain ⟨hd, hbytes⟩ := ih
    have hstep : runWrites dev g e (ws ++ [w]) s = w.run dev g e (runWrites dev g e ws s) := by
      unfold runWrites
      rw [List.foldl_append]
      rfl
    obtain ⟨hd', hbytes'⟩ := w.run_effect hf hnot hd.coherent (hfile.keep hd) henough
    rw [hstep]
    refine ⟨hd.trans hd', fun p hp => ?_⟩
    rw [hbytes' p hp, lastWritten_snoc]
    split
    · rfl
    · exact hbytes p hp

end

/-! ## The law -/

/-- What `read_file` answers when the bytes of the file are those of `content`. -/
def ReadsBytes (e : FatDirEntry) (content buf : ℕ → Byte) (offset size : ℕ) (r : Except Error (ℕ × (ℕ → Byte))) : Prop :=
  if offset ≤ e.fileSize then ∃ after, r = .ok (ioCount e offset size, after) ∧
    ∀ k, after k = if k < ioCount e offset size then content (offset + k) else buf k
  else r = .error .invalid

structure FileLaw (dev : Device) (g : Geometry) (e : FatDirEntry) (l : List ℕ) (s : FatState) : Prop where
  read : ∀ buf offset size, ioCount e offset size < 2 ^ 31 →
    ReadsBytes e (chainByte g s.disk l) buf offset size (readFile dev g true e buf offset size s).1 ∧
      (readFile dev g true e buf offset size s).2.disk = s.disk
  write : ∀ buf offset size, ioCount e offset size < 2 ^ 31 →
    (writeFile dev g true e buf offset size s).1.map Prod.fst =
        (if offset ≤ e.fileSize then .ok (ioCount e offset size) else .error .invalid) ∧
      Wrote g l offset (ioCount e offset size) buf s (writeFile dev g true e buf offset size s).2
  readBack : ∀ (ws : List FileWrite) buf offset size, (∀ w ∈ ws, ioCount e w.offset w.size < 2 ^ 31) →
    ioCount e offset size < 2 ^ 31 →
    ReadsBytes e (fun p => (lastWritten e ws p).getD (chainByte g s.disk l p)) buf offset size
      (readFile dev g true e buf offset size (runWrites dev g e ws s)).1

theorem readFile_bytes (hf : g.Fits dev) (hnot : ¬dev.Faulty) (hc : Coherent g s) (hfile : FileOn g (vol g s.disk) e l)
    (henough : e.fileSize ≤ l.length * g.bytesPerCluster) (buf : ℕ → Byte) (offset size : ℕ) {content : ℕ → Byte}
    (hcontent : ∀ p, p < l.length * g.bytesPerCluster → chainByte g s.disk l p = content p) :
    ReadsBytes e content buf offset size (readFile dev g true e buf offset size s).1 ∧
      (readFile dev g true e buf offset size s).2.disk = s.disk := by
  have hio := doFileIo_answers hf hnot hc hfile henough buf offset size false
  unfold readFile ReadsBytes
  unfold wp at hio
  split at hio
  · rename_i r s' hrun
    obtain ⟨hoff, hcount, -, hread, -⟩ := hio
    obtain ⟨hdisk, hbytes⟩ := hread rfl
    rw [hrun, if_pos hoff]
    refine ⟨⟨r.2, by rw [← hcount], fun k => ?_⟩, hdisk⟩
    rw [hbytes k, hcount]
    split
    · rename_i hk
      refine hcontent _ ?_
      unfold ioCount at hk
      omega
    · rfl
  · rename_i err s' hrun
    obtain ⟨rfl, hoff, rfl⟩ := hio
    rw [hrun, if_neg (by omega)]
    exact ⟨rfl, rfl⟩

end Zonix.Fat
