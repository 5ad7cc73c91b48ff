import Zonix.Fat.Unlink

/-! # File data

`do_file_io` moves bytes between the caller's buffer and the clusters of the file's chain, and
touches no other cluster. -/

namespace Zonix.Fat

open Prog Pointer

variable {dev : Device} {g : Geometry} {s s' : FatState} {c x : ℕ} {l : List ℕ} {e : FatDirEntry}

def chainByte (g : Geometry) (disk : ℕ → Sector) (l : List ℕ) (k : ℕ) : Byte :=
  clusterByte (fun i => disk (g.dataLba (l.getD (k / g.bytesPerCluster) 0) i)) (k % g.bytesPerCluster)

theorem bytesPerCluster_pos (g : Geometry) : 0 < g.bytesPerCluster := by
  have hpos := g.sectorsPerCluster_pos
  unfold Geometry.bytesPerCluster bytesPerSector
  omega

/-! ## One cluster -/

theorem dataLba_add (g : Geometry) (c i : ℕ) : g.dataLba c 0 + i = g.dataLba c i := by
  unfold Geometry.dataLba
  omega

theorem Geometry.cluster_inRange (hf : g.Fits dev) (hv : g.Valid c) :
    dev.inRange (g.dataLba c 0) g.sectorsPerCluster := by
  have hpos := g.sectorsPerCluster_pos
  have hlt := g.dataLba_lt hv (show g.sectorsPerCluster - 1 < g.sectorsPerCluster by omega)
  rw [← dataLba_add] at hlt
  exact hf.inRange (by omega)

theorem reads_cluster {disk : ℕ → Sector} (hf : g.Fits dev) (hv : g.Valid c) :
    Reads dev g disk (dev.read (g.clusterLba c 0) g.sectorsPerCluster) (.ok fun i => disk (g.dataLba c i)) := by
  intro s hd _
  rw [g.clusterLba_eq hv g.sectorsPerCluster_pos]
  refine read_wp (Geometry.cluster_inRange hf hv) ?_ fun d hd => ⟨quiet_serve d, Or.inr (faulted_serve d hd)⟩
  refine ⟨?_, ⟨rfl, rfl, rfl, fun _ h => ⟨h.sector, h.words⟩⟩, rfl⟩
  rw [hd]
  simp only [dataLba_add]

theorem poured_writeAt (data : ℕ → Sector) (mask : ℕ → Bool)
    (hd : s'.disk = writeAt s.disk (g.dataLba c 0) data mask g.sectorsPerCluster) (hb : s'.buffer = s.buffer)
    (hbs : s'.bufferSector = s.bufferSector) (hm : s'.entryMayExist = s.entryMayExist) : Poured g c s s' := by
  refine ⟨fun lba hl => ?_, hb, hbs, hm⟩
  rw [hd, writeAt_apply, if_neg]
  rintro ⟨hle, hlt, -⟩
  refine hl (lba - g.dataLba c 0) (by omega) ?_
  rw [← dataLba_add]
  omega

theorem writeCluster_wp (hf : g.Fits dev) (hv : g.Valid c) (data : ℕ → Sector) :
    wp (dev.write (g.clusterLba c 0) data g.sectorsPerCluster)
      (fun _ s' => Poured g c s s' ∧ s'.faults = s.faults ∧
        s'.disk = writeAt s.disk (g.dataLba c 0) data (fun _ => true) g.sectorsPerCluster)
      (fun err s' => Poured g c s s' ∧ Faulted dev.Faulty s err s') s := by
  rw [g.clusterLba_eq hv g.sectorsPerCluster_pos]
  refine write_wp (Geometry.cluster_inRange hf hv) ⟨poured_writeAt data (fun _ => true) rfl rfl rfl rfl, rfl, rfl⟩
    fun d mask hd => ?_
  exact ⟨poured_writeAt data mask rfl rfl rfl rfl, hd, d, [], rfl, rfl⟩

/-! ## The loop -/

structure DataOnly (g : Geometry) (l : List ℕ) (s s' : FatState) : Prop where
  sector : ∀ lba, s'.disk lba ≠ s.disk lba → ∃ c ∈ l, ∃ i < g.sectorsPerCluster, lba = g.dataLba c i
  touched : Touched g (fun _ => False) (· ∈ l) s s'
  coherent : Coherent g s'

theorem Quiet.dataOnly (h : Quiet g s s') (hc : Coherent g s) : DataOnly g l s s' :=
  ⟨fun lba hne => absurd (congrFun h.disk lba) hne, h.touched, h.coherent hc⟩

theorem Poured.dataOnly (h : Poured g c s s') (hc : Coherent g s) (hv : g.Valid c) (hmem : c ∈ l) :
    DataOnly g l s s' := by
  refine ⟨fun lba hne => ?_, (h.touched hv).mono (fun _ h => h) fun y hy => hy ▸ hmem, h.sync hc⟩
  by_contra hno
  exact hne (h.disk lba fun i hi he => hno ⟨c, hmem, i, hi, he⟩)

theorem DataOnly.chain {start : ℕ} {m : List ℕ} (h : DataOnly g l s s') (hm : Chain g (vol g s.disk) start m) :
    Chain g (vol g s'.disk) start m := hm.congr fun x _ => h.touched.fat x (by simp)

theorem DataOnly.trans {s₁ : FatState} (h : DataOnly g l s s₁) (h' : DataOnly g l s₁ s') : DataOnly g l s s' := by
  refine ⟨fun lba hne => ?_, h.touched.trans h'.touched, h'.coherent⟩
  by_cases hfirst : s₁.disk lba = s.disk lba
  · exact h'.sector lba (hfirst ▸ hne)
  · exact h.sector lba hfirst

structure Progress (g : Geometry) (offset size n : ℕ) (io : IoState) : Prop where
  bound : io.solved ≤ size
  place : (io.solved = 0 ∧ io.offset + n * g.bytesPerCluster = offset) ∨
    (io.offset = 0 ∧ offset + io.solved ≤ n * g.bytesPerCluster ∧
      (io.solved < size → offset + io.solved = n * g.bytesPerCluster))

def Copied (g : Geometry) (disk : ℕ → Sector) (l : List ℕ) (offset : ℕ) (buf : ℕ → Byte) (io : IoState) : Prop :=
  ∀ k, io.ioBuf k = if k < io.solved then chainByte g disk l (offset + k) else buf k

variable {n size offset : ℕ} {io : IoState}

theorem Progress.skip (h : Progress g offset size n io)
    (hge : g.bytesPerCluster ≤ io.offset) :
    Progress g offset size (n + 1) { io with offset := io.offset - g.bytesPerCluster } := by
  have hpos := bytesPerCluster_pos g
  obtain ⟨hb, ⟨h0, hplace⟩ | ⟨h0, -⟩⟩ := h
  · refine ⟨hb, Or.inl ⟨h0, ?_⟩⟩
    simp only [Nat.succ_mul]
    omega
  · omega

theorem Progress.move (h : Progress g offset size n io) (buf : ℕ → Byte)
    (hlt : io.solved < size) (hcl : ¬g.bytesPerCluster ≤ io.offset) :
    Progress g offset size (n + 1) ⟨0, io.solved + min (g.bytesPerCluster - io.offset) (size - io.solved), buf⟩ := by
  obtain ⟨hb, hplace⟩ := h
  refine ⟨by simp only; omega, Or.inr ⟨rfl, ?_⟩⟩
  simp only [Nat.succ_mul]
  rcases hplace with ⟨h0, hplace⟩ | ⟨h0, -, hplace⟩
  · omega
  · have heq := hplace hlt
    omega

theorem Progress.byte {k : ℕ} {disk : ℕ → Sector} (h : Progress g offset size n io)
    (hlt : io.solved < size) (hx : l.getD n 0 = x) (hk : io.solved ≤ k)
    (hcount : k < io.solved + (g.bytesPerCluster - io.offset)) :
    clusterByte (fun i => disk (g.dataLba x i)) (io.offset + (k - io.solved)) = chainByte g disk l (offset + k) := by
  have hpos := bytesPerCluster_pos g
  have hr : offset + k = g.bytesPerCluster * n + (io.offset + (k - io.solved)) := by
    rw [Nat.mul_comm]
    rcases h.place with ⟨h0, hplace⟩ | ⟨h0, -, hplace⟩
    · omega
    · have heq := hplace hlt
      omega
  have hrlt : io.offset + (k - io.solved) < g.bytesPerCluster := by omega
  unfold chainByte
  rw [hr, Nat.mul_add_div hpos, Nat.mul_add_mod, Nat.div_eq_of_lt hrlt, Nat.mod_eq_of_lt hrlt, Nat.add_zero, hx]

theorem Copied.patch {disk : ℕ → Sector} {buf : ℕ → Byte}
    (h : Copied g disk l offset buf io) (hp : Progress g offset size n io) (hlt : io.solved < size)
    (hx : l.getD n 0 = x) :
    Copied g disk l offset buf ⟨0, io.solved + min (g.bytesPerCluster - io.offset) (size - io.solved),
      patchBuffer io.ioBuf io.solved (fun i => disk (g.dataLba x i)) io.offset
        (min (g.bytesPerCluster - io.offset) (size - io.solved))⟩ := by
  intro k
  simp only [patchBuffer]
  by_cases hk : io.solved ≤ k ∧ k < io.solved + min (g.bytesPerCluster - io.offset) (size - io.solved)
  · rw [if_pos hk, if_pos hk.2]
    exact hp.byte hlt hx hk.1 (by omega)
  · rw [if_neg hk, h k]
    by_cases hks : k < io.solved
    · rw [if_pos hks, if_pos (by omega)]
    · rw [if_neg hks, if_neg (by omega)]

def Filled (g : Geometry) (disk disk' : ℕ → Sector) (l : List ℕ) (offset count : ℕ) (buf : ℕ → Byte) : Prop :=
  ∀ p, p < l.length * g.bytesPerCluster → chainByte g disk' l p =
    if offset ≤ p ∧ p < offset + count then buf (p - offset) else chainByte g disk l p

theorem clusterByte_patch (data : ℕ → Sector) (offset done count : ℕ) (buf : ℕ → Byte) (r : ℕ) :
    clusterByte (patchCluster data offset buf done count) r =
      if offset ≤ r ∧ r < offset + count then buf (done + (r - offset)) else clusterByte data r := by
  have hr : bytesPerSector * (r / bytesPerSector) + r % bytesPerSector = r := Nat.div_add_mod ..
  have hlt : r % bytesPerSector < 512 := Nat.mod_lt r (by decide)
  unfold clusterByte patchCluster
  simp only [byte_ofBytes _ hlt, hr]

theorem clusterByte_writeAt (disk data : ℕ → Sector) (hx : g.Valid x) (hc : g.Valid c) {r : ℕ}
    (hr : r < g.bytesPerCluster) :
    clusterByte (fun i => writeAt disk (g.dataLba x 0) data (fun _ => true) g.sectorsPerCluster (g.dataLba c i)) r =
      if c = x then clusterByte data r else clusterByte (fun i => disk (g.dataLba c i)) r := by
  have hi : r / bytesPerSector < g.sectorsPerCluster := by
    unfold Geometry.bytesPerCluster at hr
    rw [Nat.div_lt_iff_lt_mul (by decide), Nat.mul_comm]
    exact hr
  have hiff : (g.dataLba x 0 ≤ g.dataLba c (r / bytesPerSector) ∧
      g.dataLba c (r / bytesPerSector) < g.dataLba x 0 + g.sectorsPerCluster ∧ true = true) ↔ c = x := by
    constructor
    · rintro ⟨hle, hlt, -⟩
      have heq : g.dataLba c (r / bytesPerSector) =
          g.dataLba x (g.dataLba c (r / bytesPerSector) - g.dataLba x 0) := by
        rw [← dataLba_add g x]
        omega
      exact (g.dataLba_inj hc hx hi (by omega) heq).1
    · rintro rfl
      rw [← dataLba_add g c (r / bytesPerSector)]
      exact ⟨Nat.le_add_right _ _, Nat.add_lt_add_left hi _, rfl⟩
  unfold clusterByte
  dsimp only
  rw [writeAt_apply]
  by_cases hcx : c = x
  · rw [if_pos (hiff.mpr hcx), if_pos hcx, hcx, ← dataLba_add g x, Nat.add_sub_cancel_left]
  · rw [if_neg fun h => hcx (hiff.mp h), if_neg hcx]

theorem Filled.patch {disk₀ disk : ℕ → Sector} {buf : ℕ → Byte}
    (h : Filled g disk₀ disk l offset io.solved buf) (hp : Progress g offset size n io) (hlt : io.solved < size)
    (hcl : io.offset < g.bytesPerCluster) (hl : ∀ y ∈ l, g.Valid y) (hnd : l.Nodup) (hn : n < l.length)
    (hx : l.getD n 0 = x) :
    Filled g disk₀ (writeAt disk (g.dataLba x 0) (patchCluster (fun i => disk (g.dataLba x i)) io.offset buf io.solved
        (min (g.bytesPerCluster - io.offset) (size - io.solved))) (fun _ => true) g.sectorsPerCluster) l offset
      (io.solved + min (g.bytesPerCluster - io.offset) (size - io.solved)) buf := by
  have hpos := bytesPerCluster_pos g
  intro p hp'
  have hidx : p / g.bytesPerCluster < l.length := (Nat.div_lt_iff_lt_mul hpos).mpr hp'
  have hr : p % g.bytesPerCluster < g.bytesPerCluster := Nat.mod_lt _ hpos
  have hsplit : g.bytesPerCluster * (p / g.bytesPerCluster) + p % g.bytesPerCluster = p := Nat.div_add_mod ..
  have hmem : ∀ k, k < l.length → l.getD k 0 ∈ l := by
    intro k hk
    rw [List.getD_eq_getElem l 0 hk]
    exact List.getElem_mem hk
  have hold := h p hp'
  unfold chainByte at hold ⊢
  rw [clusterByte_writeAt _ _ (hx ▸ hl _ (hmem n hn)) (hl _ (hmem _ hidx)) hr]
  -- where the cluster starts in the file
  have hstart : offset + io.solved = g.bytesPerCluster * n + io.offset := by
    rw [Nat.mul_comm]
    rcases hp.place with ⟨h0, hplace⟩ | ⟨h0, -, hplace⟩
    · omega
    · have heq := hplace hlt
      omega
  by_cases hsame : l.getD (p / g.bytesPerCluster) 0 = x
  · have hpn : p / g.bytesPerCluster = n := by
      rw [← hx, List.getD_eq_getElem l 0 hidx, List.getD_eq_getElem l 0 hn] at hsame
      exact (List.Nodup.getElem_inj_iff hnd).mp hsame
    rw [if_pos hsame, clusterByte_patch]
    rw [hsame] at hold
    rw [hold]
    rw [hpn] at hsplit
    by_cases hin : io.offset ≤ p % g.bytesPerCluster ∧
        p % g.bytesPerCluster < io.offset + min (g.bytesPerCluster - io.offset) (size - io.solved)
    · rw [if_pos hin, if_pos (by omega)]
      congr 1
      omega
    · rw [if_neg hin]
      by_cases hearly : offset ≤ p ∧ p < offset + io.solved
      · rw [if_pos hearly, if_pos (by omega)]
      · rw [if_neg hearly, if_neg (by omega)]
        rw [hsame]
  · rw [if_neg hsame, hold]
    have hpn : p / g.bytesPerCluster ≠ n := by
      rintro rfl
      exact hsame hx
    have hapart : ¬(offset + io.solved ≤ p ∧
        p < offset + (io.solved + min (g.bytesPerCluster - io.offset) (size - io.solved))) := by
      rintro ⟨hle, hlt'⟩
      refine hpn ((Nat.div_eq_iff hpos).mpr ⟨?_, ?_⟩)
      · rw [Nat.mul_comm]
        omega
      · rw [Nat.mul_comm]
        omega
    by_cases hearly : offset ≤ p ∧ p < offset + io.solved
    · rw [if_pos hearly, if_pos (by omega)]
    · rw [if_neg hearly, if_neg (by omega)]

theorem fileIoStep_wp (hf : g.Fits dev) (hc : Coherent g s)
    (hl : ∀ y ∈ l, g.Valid y) (hnd : l.Nodup) (hmem : x ∈ l) (hn : n < l.length) (hx : l.getD n 0 = x)
    (hlt : io.solved < size) (hp : Progress g offset size n io) (writeback : Bool) :
    wp (fileIoStep dev g size writeback io x)
      (fun r s' => ∃ io', r = .next io' ∧ DataOnly g l s s' ∧ s'.faults = s.faults ∧ Progress g offset size (n + 1) io' ∧
        (writeback = false → s'.disk = s.disk ∧
          ∀ buf, Copied g s.disk l offset buf io → Copied g s.disk l offset buf io') ∧
        (writeback = true → io'.ioBuf = io.ioBuf ∧ ∀ disk, Filled g disk s.disk l offset io.solved io.ioBuf →
          Filled g disk s'.disk l offset io'.solved io.ioBuf))
      (fun err s' => DataOnly g l s s' ∧ Faulted dev.Faulty s err s') s := by
  have hv := hl x hmem
  unfold fileIoStep
  rw [wp_bind]
  refine (reads_cluster hf hv).wp_ok hc (fun s₁ hq hfl => ?_) fun err s₁ hq hfault => ⟨hq.dataOnly hc, hfault.imp Or.inl⟩
  split
  · rename_i hge
    refine ⟨_, rfl, hq.dataOnly hc, hfl, hp.skip hge, fun _ => ⟨hq.disk, fun buf h => h⟩, fun _ => ⟨rfl, fun disk h => ?_⟩⟩
    rw [hq.disk]
    exact h
  · rename_i hcl
    cases writeback with
    | true =>
      simp only [if_true]
      rw [wp_bind]
      refine wp_mono (writeCluster_wp hf hv _) (fun _ s₂ h₂ => ?_) fun err s₂ h₂ => ?_
      · have hd := h₂.1.dataOnly (hq.coherent hc) hv hmem
        refine ⟨_, rfl, (hq.dataOnly hc).trans hd, h₂.2.1.trans hfl, hp.move _ hlt hcl, by simp, fun _ => ⟨rfl, fun disk h => ?_⟩⟩
        rw [h₂.2.2, hq.disk]
        exact h.patch hp hlt (Nat.lt_of_not_le hcl) hl hnd hn hx
      · have hd := h₂.1.dataOnly (hq.coherent hc) hv hmem
        exact ⟨(hq.dataOnly hc).trans hd, h₂.2.after hfl⟩
    | false =>
      exact ⟨_, rfl, hq.dataOnly hc, hfl, hp.move _ hlt hcl, fun _ => ⟨hq.disk, fun buf h => h.patch hp hlt hx⟩, by simp⟩

/-- Why `do_file_io` fails on a file whose clusters are those in `l`. -/
inductive IoRefused (dev : Device) (g : Geometry) (e : FatDirEntry) (l : List ℕ) (scratch : Bool) (offset size : ℕ)
    (s : FatState) : Error → FatState → Prop where
  | directory (h : e.isDirectory = true) : IoRefused dev g e l scratch offset size s .invalid s
  | offset (h : e.fileSize < offset) : IoRefused dev g e l scratch offset size s .invalid s
  | cluster (h : ¬g.Valid e.cluster) (hpos : 0 < min size (e.fileSize - offset)) :
      IoRefused dev g e l scratch offset size s .invalid s
  | memory (h : scratch = false) : IoRefused dev g e l scratch offset size s .noMem s
  | short {s' : FatState} (hoff : offset ≤ e.fileSize)
      (h : l.length * g.bytesPerCluster < offset + min size (e.fileSize - offset)) :
      IoRefused dev g e l scratch offset size s .badFs s'
  | fault {err : Error} {s' : FatState} (h : Faulted dev.Faulty s err s') :
      IoRefused dev g e l scratch offset size s err s'

theorem doFileIo_wp (hf : g.Fits dev) (hc : Coherent g s)
    (hl : e.isDirectory = false → g.Valid e.cluster → Chain g (vol g s.disk) e.cluster l) (scratch writeback : Bool) (buf : ℕ → Byte)
    (offset size : ℕ) :
    wp (doFileIo dev g scratch e buf offset size writeback)
      (fun r s' => DataOnly g l s s' ∧ s'.faults = s.faults ∧ offset ≤ e.fileSize ∧ r.1 = min size (e.fileSize - offset) ∧
        (r.1 = 0 ∨ offset + r.1 ≤ l.length * g.bytesPerCluster) ∧
        (writeback = false → s'.disk = s.disk ∧
          ∀ k, r.2 k = if k < r.1 then chainByte g s.disk l (offset + k) else buf k) ∧
        (writeback = true → Filled g s.disk s'.disk l offset r.1 buf))
      (fun err s' => DataOnly g l s s' ∧ IoRefused dev g e l scratch offset size s err s') s := by
  have hrefl : DataOnly g l s s := (Quiet.refl (g := g) s).dataOnly hc
  have hnone : Filled g s.disk s.disk l offset 0 buf := by
    intro p _
    rw [if_neg (by omega)]
  unfold doFileIo
  simp only [wp_bind, wp_ensure]
  split
  swap
  · rename_i hdir
    exact ⟨hrefl, .directory (by simpa using hdir)⟩
  split
  swap
  · rename_i hoff
    exact ⟨hrefl, .offset (by omega)⟩
  rename_i hfile hoff
  split
  · rename_i hzero
    refine ⟨hrefl, rfl, hoff, ?_, Or.inl rfl, fun _ => ⟨rfl, fun k => by simp⟩, fun _ => hnone⟩
    simp only
    omega
  rename_i hsome
  simp only [wp_bind, wp_ensure]
  split
  swap
  · rename_i hv
    exact ⟨hrefl, .cluster (fun h => hv ((g.validCluster_iff _).mpr h)) (by omega)⟩
  split
  swap
  · rename_i hmem
    exact ⟨hrefl, .memory (by simpa using hmem)⟩
  rename_i hv _
  have hchain := hl hfile ((g.validCluster_iff _).mp hv)
  refine walkChain_wp (l := l) (I := fun done io s₁ => DataOnly g l s s₁ ∧ s₁.faults = s.faults ∧
    Progress g offset (min size (e.fileSize - offset)) done.length io ∧
    (writeback = false → s₁.disk = s.disk ∧ Copied g s.disk l offset buf io) ∧
    (writeback = true → io.ioBuf = buf ∧ Filled g s.disk s₁.disk l offset io.solved buf)) hf ?_ ⟨offset, 0, buf⟩
    ⟨hrefl, rfl, ⟨by simp, Or.inl (by simp)⟩, fun _ => ⟨rfl, fun k => by simp⟩, fun _ => ⟨rfl, hnone⟩⟩
  constructor
  case chain =>
    intro done io s₁ hI
    exact ⟨hI.1.coherent, hI.1.chain hchain⟩
  case quiet =>
    intro done io s₁ s₂ hI hq hfl
    refine ⟨hI.1.trans (hq.dataOnly hI.1.coherent), hfl.trans hI.2.1, hI.2.2.1,
      fun hw => ⟨hq.disk.trans (hI.2.2.2.1 hw).1, (hI.2.2.2.1 hw).2⟩, fun hw => ?_⟩
    rw [hq.disk]
    exact hI.2.2.2.2 hw
  case fault =>
    intro done io s₁ err s₂ hI hq hfault
    exact ⟨hI.1.trans (hq.dataOnly hI.1.coherent), .fault ((hfault.after hI.2.1).imp Or.inl)⟩
  case step =>
    intro done x rest io s₁ hsplit hcond hI
    have hmem : x ∈ l := hsplit ▸ (by simp)
    have hx : l.getD done.length 0 = x := by
      rw [hsplit]
      simp
    refine wp_mono (fileIoStep_wp hf hI.1.coherent hchain.valid hchain.nodup hmem (by simp [hsplit]) hx
      (by simpa using hcond) hI.2.2.1 writeback) (fun r s₂ h₂ => ?_) fun err s₂ h₂ =>
        ⟨hI.1.trans h₂.1, .fault (h₂.2.after hI.2.1)⟩
    obtain ⟨io', rfl, hd, hfl, hp, hread, hwrite⟩ := h₂
    refine ⟨hI.1.trans hd, hfl.trans hI.2.1, by simpa using hp, fun hw => ?_, fun hw => ?_⟩
    · obtain ⟨hdisk, hcopy⟩ := hI.2.2.2.1 hw
      rw [hdisk] at hread
      exact ⟨(hread hw).1, (hread hw).2 buf hcopy⟩
    · obtain ⟨hbuf, hfilled⟩ := hI.2.2.2.2 hw
      rw [hbuf] at hwrite
      exact ⟨(hwrite hw).1, (hwrite hw).2 _ hfilled⟩
  case finish =>
    intro done rest io s₁ hsplit hend hI
    simp only [wp_bind, wp_ensure]
    split
    · rename_i hsolved
      refine ⟨hI.1, hI.2.1, hoff, hsolved, ?_, fun hw => hI.2.2.2.1 hw, fun hw => (hI.2.2.2.2 hw).2⟩
      rcases hI.2.2.1.place with ⟨h0, -⟩ | ⟨-, hle, -⟩
      · exact Or.inl h0
      · have hlen : done.length ≤ l.length := by simp [hsplit]
        exact Or.inr (Nat.le_trans hle (Nat.mul_le_mul_right _ hlen))
    · -- the chain ended before the range
      rename_i hsolved
      have hlt : io.solved < min size (e.fileSize - offset) := Nat.lt_of_le_of_ne hI.2.2.1.bound hsolved
      obtain rfl : rest = [] := by
        rcases hend with hend | hend
        · exact hend
        · simp [hlt] at hend
      rw [List.append_nil] at hsplit
      refine ⟨hI.1, .short hoff ?_⟩
      rw [hsplit]
      rcases hI.2.2.1.place with ⟨h0, hplace⟩ | ⟨-, -, hplace⟩
      · omega
      · have heq := hplace hlt
        omega

/-! ## Entries that a path leads to -/

theorem findParts_eq (dev : Device) (g : Geometry) (cluster : ℕ) (part : List Byte) (parts : List (List Byte)) :
    findParts dev g cluster (part :: parts) =
      resolveDirs dev g cluster (part :: parts).dropLast >>= fun d => findEntry dev g d ((part :: parts).getLastD []) := by
  induction parts generalizing cluster part with
  | nil => rfl
  | cons next parts ih =>
    simp only [findParts, List.dropLast_cons_cons, resolveDirs, bind_assoc, ih]
    rfl

theorem findFile_eq (dev : Device) (g : Geometry) (path : List Byte) :
    findFile dev g path = (do
      let (parent, child) ← resolveParent dev g path
      findEntry dev g parent child) := by
  unfold findFile resolveParent pathParts
  cases hparse : parsePath path with
  | error err => rfl
  | ok parts =>
    obtain ⟨part, parts, rfl⟩ := List.exists_cons_of_ne_nil (parsePath_mem hparse).1
    simp only [pure_bind, findParts_eq, bind_assoc]

theorem findFile_wp {path : List Byte} (hf : g.Fits dev) (hc : Coherent g s) (hs : Sound g (vol g s.disk)) :
    wp (findFile dev g path)
      (fun e s' => Quiet g s s' ∧ ∃ d l name p, Found g (vol g s.disk) path d l name p ∧ (vol g s.disk).at p = e)
      (fun _ s' => Quiet g s s') s := by
  have hbind := resolveFound_wp (m := fun _ _ e => (pure e : FatM FatDirEntry))
    (Q := fun e s' => Quiet g s s' ∧ ∃ d l name p, Found g (vol g s.disk) path d l name p ∧ (vol g s.disk).at p = e)
    (E := fun _ s' => Quiet g s s') hf hc hs (fun _ _ _ hq => hq) (fun _ _ _ hq => hq)
    fun d l name p s₁ hfound hq => ⟨hq, d, l, name, p, hfound, rfl⟩
  rw [findFile_eq]
  simpa only [bind_pure] using hbind

end Zonix.Fat
