import Zonix.Ahci.Port

/-! # What a transfer does

The pieces of a request and their commands, what has been transferred after each, and what a failing command leaves. -/

namespace Zonix.Ahci

open Prog

variable {α β : Type} {hba : Hba} {s s' s'' : AhciState} {write : Bool} {lba off n m : ℕ}

/-! ## Register accesses -/

variable {E : Error → AhciState → Prop}

theorem wp_read32 {Q : Word → AhciState → Prop} (hba : Hba) (reg : ℕ) :
    wp (read32 hba reg) Q E s ↔
      Q (hba.reg s.accesses.length) (s.access (.read (s.portBase + reg) (hba.reg s.accesses.length))) := Iff.rfl

def Quiet (s s' : AhciState) : Prop := ∃ l, s' = { s with accesses := s.accesses ++ l }

theorem Quiet.refl (s : AhciState) : Quiet s s := ⟨[], by rw [List.append_nil]⟩

theorem Quiet.trans (h : Quiet s s') (h' : Quiet s' s'') : Quiet s s'' := by
  obtain ⟨l, rfl⟩ := h
  obtain ⟨l', rfl⟩ := h'
  exact ⟨l ++ l', by rw [List.append_assoc]⟩

theorem Quiet.access (h : Quiet s s') (a : Access) : Quiet s (s'.access a) := h.trans ⟨[a], rfl⟩

def Polls (m : AhciM α) : Prop := ∀ s, Quiet s (m s).2

theorem Polls.bind {m : AhciM α} {f : α → AhciM β} (hm : Polls m) (hf : ∀ a, Polls (f a)) : Polls (m >>= f) := by
  intro s
  refine wp_left.1 ((wp_bind m f).2 (wp_mono (wp_left.2 (hm s)) ?_ fun _ _ h => h))
  intro a t ht
  exact wp_left.2 (ht.trans (hf a t))

theorem polls_pure (a : α) : Polls (pure a) := Quiet.refl

theorem polls_fail (e : Error) : Polls (fail e : AhciM α) := Quiet.refl

theorem polls_ensure (c : Prop) [Decidable c] (e : Error) : Polls (ensure c e) := by
  unfold ensure
  split
  · exact polls_pure ()
  · exact polls_fail e

theorem polls_read32 (hba : Hba) (reg : ℕ) : Polls (read32 hba reg) := fun _ => ⟨[_], rfl⟩

theorem polls_write32 (reg : ℕ) (value : Word) : Polls (write32 reg value) := fun _ => ⟨[_], rfl⟩

theorem polls_pollIdle (hba : Hba) (polls : ℕ) : Polls (pollIdle hba polls) := by
  induction polls with
  | zero => exact polls_pure ()
  | succ polls ih =>
    refine (polls_read32 hba portTfd).bind fun tfd => ?_
    split
    · exact polls_pure ()
    · split
      · exact polls_fail _
      · exact ih

theorem polls_pollDone (hba : Hba) (polls : ℕ) : Polls (pollDone hba polls) := by
  induction polls with
  | zero => exact polls_fail _
  | succ polls ih =>
    refine (polls_read32 hba portIs).bind fun status => (polls_read32 hba portTfd).bind fun tfd => ?_
    refine (polls_ensure _ _).bind fun _ => (polls_read32 hba portCi).bind fun ci => ?_
    split
    · exact polls_pure ()
    · exact ih

theorem polls_pollClear (hba : Hba) (mask : Word) (polls : ℕ) : Polls (pollClear hba mask polls) := by
  induction polls with
  | zero =>
    refine (polls_read32 hba portCmdStat).bind fun cmd => ?_
    split
    · exact polls_pure cmd
    · exact polls_fail _
  | succ polls ih =>
    refine (polls_read32 hba portCmdStat).bind fun cmd => ?_
    split
    · exact polls_pure cmd
    · exact ih

theorem polls_stopEngine (hba : Hba) : Polls (stopEngine hba) := by
  refine (polls_write32 _ _).bind fun _ => (polls_read32 hba _).bind fun cmd => ?_
  refine (polls_write32 _ _).bind fun _ => (polls_pollClear hba _ _).bind fun cmd => ?_
  exact (polls_write32 _ _).bind fun _ => (polls_pollClear hba _ _).bind fun _ => polls_pure ()

/-! ## One command -/

def Issued (c : Command) (s s' : AhciState) : Prop :=
  ∃ s₁, Quiet s s₁ ∧ s' = { s₁ with slot := c, commands := s₁.commands ++ [c] }

theorem issueCmd_spec (hba : Hba) (command : Byte) (lba : ℕ) (write : Bool) (s : AhciState)
    (hn : n ≠ 0 ∧ n ≤ maxSectors) :
    wp (issueCmd hba command lba n write) (fun _ => Issued (slotCommand command lba n write) s) (fun _ => Quiet s) s := by
  have hpoll : Polls (pollIdle hba issuePollLimit) := polls_pollIdle hba _
  rw [issueCmd, wp_bind, wp_of_ok (ensure_of hn _), wp_bind]
  refine wp_mono (wp_left.2 (hpoll s)) ?_ fun _ _ h => h
  intro _ s₁ h₁
  rw [wp_bind, wp_read32, wp_bind, wp_ensure]
  split
  · exact ⟨_, ((h₁.access _).access _).access _, rfl⟩
  · exact h₁.access _

theorem waitCmdComplete_spec (hba : Hba) (s : AhciState) :
    wp (waitCmdComplete hba) (fun _ s' => ∃ s₁, Quiet s s₁ ∧ s' = s₁.execute hba)
      (fun _ s' => ∃ s₁, Quiet s s₁ ∧ s' = s₁.abort hba) s := by
  rw [waitCmdComplete, wp_bind, wp_attempt]
  refine wp_mono (wp_left.2 (polls_pollDone hba commandPollLimit s)) ?_ ?_
  · intro _ s₁ h
    exact ⟨s₁, h, rfl⟩
  · intro _ s₁ h
    exact ⟨s₁, h, rfl⟩

def Shut (s s' : AhciState) : Prop :=
  ∃ s₁ st base conf, Quiet s s₁ ∧ st ≠ DeviceState.ready ∧
    s' = { s₁ with state := st, portBase := base, memoryConfigured := conf }

theorem shutdownLocked_shut (hba : Hba) (s : AhciState) : Shut s (shutdownLocked hba s).2 := by
  refine wp_left.1 ?_
  rw [shutdownLocked, wp_bind, wp_state, wp_bind, wp_ensure]
  split
  · split
    · exact ⟨s, .offline, s.portBase, s.memoryConfigured, Quiet.refl s, by decide, rfl⟩
    · rw [wp_bind, wp_attempt]
      refine wp_mono (wp_left.2 (polls_stopEngine hba s)) ?_ ?_
      · intro _ s₁ h₁
        simp only
        split
        · exact ⟨_, .offline, 0, false, (((h₁.access _).access _).access _).access _, by decide, rfl⟩
        · exact ⟨s₁, .offline, 0, false, h₁, by decide, rfl⟩
      · intro _ s₁ h₁
        exact ⟨s₁, .quarantined, s₁.portBase, s₁.memoryConfigured, h₁, by decide, rfl⟩
  · rename_i hq
    exact ⟨s, s.state, s.portBase, s.memoryConfigured, Quiet.refl s, by rw [not_not.1 hq]; decide, rfl⟩

/-! ## One piece -/

def pieceCommand (write : Bool) (lba n : ℕ) : Command :=
  slotCommand (if write then ataCmdWriteDmaExt else ataCmdReadDmaExt) lba n write

theorem pieceCommand_lba (write : Bool) (n : ℕ) (h : lba < 2 ^ 32) : (pieceCommand write lba n).fis.lba = lba := by
  simp only [pieceCommand, slotCommand, setCommand, Fis.lba, BitVec.toNat_ofNat, Nat.shiftRight_eq_div_pow]
  omega

theorem pieceCommand_count (write : Bool) (lba : ℕ) (h : n ≤ maxSectors) : (pieceCommand write lba n).fis.count = n := by
  have hmax : maxSectors = 8 := rfl
  simp only [pieceCommand, slotCommand, setCommand, Fis.count, BitVec.toNat_ofNat, Nat.shiftRight_eq_div_pow]
  omega

theorem pieceCommand_dbc (write : Bool) (lba : ℕ) (h : n ≠ 0 ∧ n ≤ maxSectors) :
    (pieceCommand write lba n).dbc + 1 = sectorSize * n := by
  have hmax : maxSectors = 8 := rfl
  simp only [pieceCommand, slotCommand, u32, sectorSize]
  omega

structure Done (write : Bool) (lba n : ℕ) (s s' : AhciState) : Prop where
  commands : s'.commands = s.commands ++ [pieceCommand write lba n]
  state : s'.state = s.state
  data : s'.data = s.data
  disk : s'.disk = if write then blit s.disk (sectorSize * lba) s.dmaBuf 0 (sectorSize * n) else s.disk
  dmaBuf : write = false → s'.dmaBuf = blit s.dmaBuf 0 s.disk (sectorSize * lba) (sectorSize * n)

structure Failed (write : Bool) (lba n : ℕ) (s s' : AhciState) : Prop where
  state : s'.state ≠ .ready
  data : s'.data = s.data
  commands : s'.commands = s.commands ∧ s'.disk = s.disk ∨
    s'.commands = s.commands ++ [pieceCommand write lba n] ∧ (write = false → s'.disk = s.disk) ∧
      ∀ i, ¬(sectorSize * lba ≤ i ∧ i < sectorSize * (lba + n)) → s'.disk i = s.disk i

theorem execute_piece (hba : Hba) (hlba : lba < 2 ^ 32) (hn : n ≠ 0 ∧ n ≤ maxSectors)
    (hslot : s.slot = pieceCommand write lba n) :
    s.execute hba = if write then { s with disk := blit s.disk (sectorSize * lba) s.dmaBuf 0 (sectorSize * n) }
      else { s with dmaBuf := blit s.dmaBuf 0 s.disk (sectorSize * lba) (sectorSize * n) } := by
  rw [AhciState.execute, hslot, pieceCommand_lba write n hlba, pieceCommand_dbc write lba hn]
  cases write with
  | true => rfl
  | false => rfl

theorem abort_piece (hba : Hba) (hlba : lba < 2 ^ 32) (hn : n ≠ 0 ∧ n ≤ maxSectors)
    (hslot : s.slot = pieceCommand write lba n) :
    s.abort hba = if write then
        { s with disk := blit s.disk (sectorSize * lba) (hba.torn s.commands.length) 0 (sectorSize * n) }
      else { s with dmaBuf := blit s.dmaBuf 0 (hba.torn s.commands.length) 0 (sectorSize * n) } := by
  rw [AhciState.abort, hslot, pieceCommand_lba write n hlba, pieceCommand_dbc write lba hn]
  cases write with
  | true => rfl
  | false => rfl

theorem Issued.done (hlba : lba < 2 ^ 32) (hn : n ≠ 0 ∧ n ≤ maxSectors) (hc : Issued (pieceCommand write lba n) s s')
    (hq : Quiet s' s'') : Done write lba n s (s''.execute hba) := by
  obtain ⟨_, ⟨l, rfl⟩, rfl⟩ := hc
  obtain ⟨l', rfl⟩ := hq
  rw [execute_piece hba hlba hn rfl]
  cases write with
  | true => exact ⟨rfl, rfl, rfl, rfl, nofun⟩
  | false => exact ⟨rfl, rfl, rfl, rfl, fun _ => rfl⟩

theorem Shut.failed_quiet (hs : Shut s' s'') (hq : Quiet s s') : Failed write lba n s s'' := by
  obtain ⟨_, st, base, conf, hq', hst, rfl⟩ := hs
  obtain ⟨l, rfl⟩ := hq.trans hq'
  exact ⟨hst, rfl, .inl ⟨rfl, rfl⟩⟩

theorem Issued.failed {t : AhciState} (hlba : lba < 2 ^ 32) (hn : n ≠ 0 ∧ n ≤ maxSectors)
    (hc : Issued (pieceCommand write lba n) s s') (hq : Quiet s' s'') (hs : Shut (s''.abort hba) t) :
    Failed write lba n s t := by
  obtain ⟨_, ⟨l, rfl⟩, rfl⟩ := hc
  obtain ⟨l', rfl⟩ := hq
  obtain ⟨_, st, base, conf, ⟨l'', rfl⟩, hst, rfl⟩ := hs
  rw [abort_piece hba hlba hn rfl]
  cases write with
  | true =>
    refine ⟨hst, rfl, .inr ⟨rfl, nofun, fun i hi => ?_⟩⟩
    rw [Nat.mul_add] at hi
    exact blit_out hi
  | false => exact ⟨hst, rfl, .inr ⟨rfl, fun _ => rfl, fun _ _ => rfl⟩⟩

theorem transferPiece_spec (hba : Hba) (write : Bool) (hlba : lba < 2 ^ 32) (hn : n ≠ 0 ∧ n ≤ maxSectors)
    (s : AhciState) :
    wp (transferPiece hba write lba n) (fun _ => Done write lba n s) (fun _ => Failed write lba n s) s := by
  rw [transferPiece, wp_bind, wp_attempt, wp_bind]
  have hshut : ∀ (e : Error) (t : AhciState), Failed write lba n s (shutdownLocked hba t).2 →
      wp (do let _ ← attempt (shutdownLocked hba); fail e : AhciM Unit) (fun _ => Done write lba n s)
        (fun _ => Failed write lba n s) t := fun e t h => h
  refine wp_mono (issueCmd_spec hba _ lba write s hn) ?_ ?_
  · intro _ s₁ hissued
    refine wp_mono (waitCmdComplete_spec hba s₁) ?_ ?_
    · rintro _ _ ⟨s₂, hq, rfl⟩
      exact hissued.done hlba hn hq
    · rintro e _ ⟨s₂, hq, rfl⟩
      exact hshut e _ (hissued.failed hlba hn hq (shutdownLocked_shut hba _))
  · intro e s₁ hq
    exact hshut e s₁ ((shutdownLocked_shut hba s₁).failed_quiet hq)

/-! ## The loop -/

structure Moves (write : Bool) (lba n : ℕ) (c : Command) : Prop where
  direction : c.write = write
  command : c.fis.command = if write then ataCmdWriteDmaExt else ataCmdReadDmaExt
  lba : c.fis.lba = lba
  count : c.fis.count = n
  bytes : c.dbc + 1 = sectorSize * n

theorem moves_pieceCommand (write : Bool) (hlba : lba < 2 ^ 32) (hn : n ≠ 0 ∧ n ≤ maxSectors) :
    Moves write lba n (pieceCommand write lba n) :=
  ⟨rfl, rfl, pieceCommand_lba write n hlba, pieceCommand_count write lba hn.2, pieceCommand_dbc write lba hn⟩

inductive Cut (write : Bool) : ℕ → List Command → ℕ → Prop where
  | nil (lba : ℕ) : Cut write lba [] lba
  | cons {lba n e : ℕ} {c : Command} {l : List Command} : 0 < n → n ≤ maxSectors → Moves write lba n c →
      Cut write (lba + n) l e → Cut write lba (c :: l) e

theorem Cut.append {a b e : ℕ} {l l' : List Command} (h : Cut write a l b) (h' : Cut write b l' e) :
    Cut write a (l ++ l') e := by
  induction h with
  | nil => exact h'
  | cons hpos hmax hmoves _ ih => exact .cons hpos hmax hmoves (ih h')

/-- `n` sectors from `lba` on have been transferred, from or to offset `off` of the buffer. -/
structure Transferred (write : Bool) (lba off n : ℕ) (s s' : AhciState) : Prop where
  commands : ∃ l, s'.commands = s.commands ++ l ∧ Cut write lba l (lba + n)
  state : s'.state = s.state
  data : s'.data = if write then s.data else blit s.data off s.disk (sectorSize * lba) (sectorSize * n)
  disk : s'.disk = if write then blit s.disk (sectorSize * lba) s.data off (sectorSize * n) else s.disk

theorem Transferred.zero (write : Bool) (lba off : ℕ) (s : AhciState) : Transferred write lba off 0 s s := by
  refine ⟨⟨[], (List.append_nil _).symm, .nil lba⟩, rfl, ?_, ?_⟩
  · rw [Nat.mul_zero, blit_zero, ite_self]
  · rw [Nat.mul_zero, blit_zero, ite_self]

theorem Transferred.add (h : Transferred write lba off n s s')
    (h' : Transferred write (lba + n) (off + sectorSize * n) m s' s'') : Transferred write lba off (n + m) s s'' := by
  obtain ⟨l, hl, hcut⟩ := h.commands
  obtain ⟨l', hl', hcut'⟩ := h'.commands
  refine ⟨⟨l ++ l', ?_, ?_⟩, h'.state.trans h.state, ?_, ?_⟩
  · rw [hl', hl, List.append_assoc]
  · rw [Nat.add_assoc] at hcut'
    exact hcut.append hcut'
  · rw [h'.data, h.data, h.disk]
    cases write with
    | true => rfl
    | false => simp only [Bool.false_eq_true, if_false, Nat.mul_add, blit_add]
  · rw [h'.disk, h.data, h.disk]
    cases write with
    | true => simp only [if_true, Nat.mul_add, blit_add]
    | false => rfl

/-- Some sectors have been transferred and then a piece failed. -/
structure Stopped (write : Bool) (lba off n : ℕ) (s s' : AhciState) : Prop where
  failed : ∃ done k s₁, 0 < k ∧ k ≤ maxSectors ∧ done + k ≤ n ∧ Transferred write lba off done s s₁ ∧
    Failed write (lba + done) k s₁ s'

theorem Stopped.after (h' : Stopped write (lba + n) (off + sectorSize * n) m s' s'')
    (h : Transferred write lba off n s s') : Stopped write lba off (n + m) s s'' := by
  obtain ⟨done, k, s₁, hpos, hmax, hle, htrans, hfail⟩ := h'.failed
  rw [Nat.add_assoc] at hfail
  exact ⟨n + done, k, s₁, hpos, hmax, by omega, h.add htrans, hfail⟩

theorem Done.transferred (off : ℕ) (hlba : lba < 2 ^ 32) (hn : n ≠ 0 ∧ n ≤ maxSectors) {dma : ℕ → Byte}
    (hw : write = true → dma = blit s.dmaBuf 0 s.data off (sectorSize * n))
    (h : Done write lba n { s with dmaBuf := dma } s') :
    Transferred write lba off n s
      { s' with data := if write then s'.data else blit s'.data off s'.dmaBuf 0 (sectorSize * n) } := by
  have hcut : Cut write lba [pieceCommand write lba n] (lba + n) :=
    .cons (Nat.pos_of_ne_zero hn.1) hn.2 (moves_pieceCommand write hlba hn) (.nil _)
  refine ⟨⟨_, h.commands, hcut⟩, h.state, ?_, ?_⟩
  · cases write with
    | true => exact h.data
    | false =>
      simp only [Bool.false_eq_true, if_false]
      rw [h.dmaBuf rfl, h.data, blit_blit]
  · rw [h.disk]
    cases write with
    | true => simp only [if_true, hw rfl, blit_blit]
    | false => rfl

theorem wp_fillDma {Q : Unit → AhciState → Prop} (write : Bool) (off bytes : ℕ) :
    wp (fillDma write off bytes) Q E s ↔
      Q () { s with dmaBuf := if write then blit s.dmaBuf 0 s.data off bytes else s.dmaBuf } := by
  cases write <;> rfl

theorem wp_drainDma {Q : Unit → AhciState → Prop} (write : Bool) (off bytes : ℕ) :
    wp (drainDma write off bytes) Q E s ↔
      Q () { s with data := if write then s.data else blit s.data off s.dmaBuf 0 bytes } := by
  cases write <;> rfl

theorem transferLoop_spec (hba : Hba) (write : Bool) (fuel lba off n : ℕ) (hfuel : n ≤ fuel) (hlba : lba + n < 2 ^ 32)
    (s : AhciState) :
    wp (transferLoop hba write fuel lba off n) (fun _ => Transferred write lba off n s)
      (fun _ => Stopped write lba off n s) s := by
  induction fuel generalizing lba off n s with
  | zero =>
    obtain rfl : n = 0 := by omega
    exact Transferred.zero write lba off s
  | succ fuel ih =>
    rw [transferLoop]
    by_cases hz : n = 0
    · rw [if_pos hz, hz]
      exact Transferred.zero write lba off s
    · rw [if_neg hz]
      obtain ⟨k, hk⟩ : ∃ k, (if n > maxSectors then maxSectors else n) = k := ⟨_, rfl⟩
      have hmax : maxSectors = 8 := rfl
      have hkn : (k ≠ 0 ∧ k ≤ maxSectors) ∧ k ≤ n := by
        split at hk <;> omega
      obtain ⟨m, rfl⟩ : ∃ m, n = k + m := ⟨n - k, by omega⟩
      have hbytes : k * sectorSize = sectorSize * k := Nat.mul_comm _ _
      have hnext : u32 (lba + k) = lba + k := u32_eq (by omega)
      simp only [hk, hbytes, hnext, Nat.add_sub_cancel_left]
      rw [wp_bind, wp_fillDma, wp_bind]
      refine wp_mono (transferPiece_spec hba write (by omega) hkn.1 _) ?_ ?_
      · intro _ s₁ hdone
        rw [wp_bind, wp_drainDma]
        have htrans := hdone.transferred off (by omega) hkn.1 fun hw => by rw [if_pos hw]
        refine wp_mono (ih (lba + k) (off + sectorSize * k) m (by omega) (by omega) _) ?_ ?_
        · intro _ s₂ h
          exact htrans.add h
        · intro _ s₂ h
          exact h.after htrans
      · intro _ s₁ hfail
        exact ⟨0, k, s, by omega, by omega, by omega, Transferred.zero write lba off s, hfail.1, hfail.2, hfail.3⟩

/-! ## Requests -/

/-- The request reaches the controller. -/
def Admissible (s : AhciState) (r : Request) : Prop :=
  s.state = .ready ∧ (r.null = false ∨ r.blockCount = 0) ∧ r.startLba + r.blockCount ≤ s.infoBlockCount

theorem transferBlocks_admissible (hba : Hba) {r : Request} (h : Admissible s r) :
    wp (transferBlocks hba r) (fun _ => Transferred r.write r.startLba 0 r.blockCount s)
      (fun _ => Stopped r.write r.startLba 0 r.blockCount s) s := by
  obtain ⟨hready, hbuf, hrange⟩ := h
  have hlt := s.infoBlockCount_lt
  rw [transferBlocks, wp_bind, wp_state, wp_bind, wp_of_ok (ensure_of hready _), wp_bind, wp_of_ok (ensure_of hbuf _),
    wp_bind, wp_of_ok (ensure_of ⟨by omega, by omega⟩ _)]
  exact transferLoop_spec hba r.write r.blockCount r.startLba 0 r.blockCount (Nat.le_refl _) (by omega) s

theorem transferBlocks_not_ready (hba : Hba) (r : Request) (h : s.state ≠ .ready) :
    transferBlocks hba r s = (.error .noDevice, s) :=
  (bind_of_ok (m := state) rfl _).trans (bind_of_error (ensure_not h _) _)

theorem transferBlocks_rejected (hba : Hba) {r : Request} (h : ¬Admissible s r) :
    ∃ e, transferBlocks hba r s = (.error e, s) := by
  by_cases hready : s.state = .ready
  · refine ⟨.invalid, ?_⟩
    rw [transferBlocks, bind_of_ok (m := state) rfl, bind_of_ok (ensure_of hready _)]
    by_cases hbuf : r.null = false ∨ r.blockCount = 0
    · have hrange : ¬(r.startLba ≤ s.infoBlockCount ∧ r.blockCount ≤ s.infoBlockCount - r.startLba) :=
        fun hin => h ⟨hready, hbuf, by omega⟩
      rw [bind_of_ok (ensure_of hbuf _), bind_of_error (ensure_not hrange _)]
    · rw [bind_of_error (ensure_not hbuf _)]
  · exact ⟨.noDevice, transferBlocks_not_ready hba r hready⟩

theorem Stopped.not_ready (h : Stopped write lba off n s s') : s'.state ≠ .ready := by
  obtain ⟨_, _, _, _, _, _, _, hfail⟩ := h.failed
  exact hfail.state

/-- Requests one after the other, each with its own buffer; the replies hold the buffers after the calls. -/
def submitAll (hba : Hba) : List (Request × (ℕ → Byte)) → AhciState → List (Except Error Unit × (ℕ → Byte)) × AhciState
  | [], s => ([], s)
  | q :: qs, s =>
    let out := transferBlocks hba q.1 { s with data := q.2 }
    let rest := submitAll hba qs out.2
    ((out.1, out.2.data) :: rest.1, rest.2)

theorem submitAll_not_ready (hba : Hba) (qs : List (Request × (ℕ → Byte))) (h : s.state ≠ .ready) :
    (submitAll hba qs s).1 = qs.map (fun q => (.error .noDevice, q.2)) ∧
      ∃ data, (submitAll hba qs s).2 = { s with data := data } := by
  induction qs generalizing s with
  | nil => exact ⟨rfl, s.data, rfl⟩
  | cons q qs ih =>
    have hrej := transferBlocks_not_ready hba q.1 (s := { s with data := q.2 }) h
    obtain ⟨hreplies, data, hlast⟩ := ih (s := { s with data := q.2 }) h
    rw [submitAll, hrej]
    exact ⟨congrArg _ hreplies, data, hlast⟩

theorem Cut.within {a e : ℕ} {l : List Command} (h : Cut write a l e) :
    a ≤ e ∧ ∀ c ∈ l, a ≤ c.fis.lba ∧ c.fis.lba + c.fis.count ≤ e := by
  induction h with
  | nil a => exact ⟨Nat.le_refl a, nofun⟩
  | cons hpos hmax hmoves _ ih =>
    refine ⟨by omega, fun c hc => ?_⟩
    rw [List.mem_cons] at hc
    cases hc with
    | inl hc =>
      rw [hc, hmoves.lba, hmoves.count]
      omega
    | inr hc =>
      have := ih.2 c hc
      omega

/-- The commands issued since `s` lie in the sectors from `lba` to `e`. -/
def IssuedWithin (lba e : ℕ) (s s' : AhciState) : Prop :=
  ∃ l, s'.commands = s.commands ++ l ∧ ∀ c ∈ l, lba ≤ c.fis.lba ∧ c.fis.lba + c.fis.count ≤ e

theorem Transferred.within (h : Transferred write lba off n s s') : IssuedWithin lba (lba + n) s s' := by
  obtain ⟨l, hl, hcut⟩ := h.commands
  exact ⟨l, hl, hcut.within.2⟩

theorem Stopped.within (hlba : lba + n < 2 ^ 32) (h : Stopped write lba off n s s') :
    IssuedWithin lba (lba + n) s s' := by
  obtain ⟨done, k, s₁, hpos, hmax, hle, htrans, hfail⟩ := h.failed
  obtain ⟨l, hl, hcut⟩ := htrans.commands
  cases hfail.commands with
  | inl hc =>
    refine ⟨l, hc.1.trans hl, fun c hmem => ?_⟩
    have := hcut.within.2 c hmem
    omega
  | inr hc =>
    have hlast : Cut write (lba + done) [pieceCommand write (lba + done) k] (lba + done + k) :=
      .cons hpos hmax (moves_pieceCommand write (by omega) ⟨by omega, hmax⟩) (.nil _)
    refine ⟨_, hc.1.trans (by rw [hl, List.append_assoc]), fun c hmem => ?_⟩
    have := (hcut.append hlast).within.2 c hmem
    omega

def idleHba : Hba := ⟨fun _ => 0, fun _ => 0, fun _ _ => 0⟩

def samplePort : AhciState where
  state := .ready
  infoBlockCount := 16
  portBase := 0x100
  memoryConfigured := true
  slot := ⟨false, setCommand 0 0 0, 0⟩
  dmaBuf := fun _ => 0
  disk := fun i => BitVec.ofNat 8 i
  data := fun _ => 0
  accesses := []
  commands := []
  infoBlockCount_lt := by decide

def sampleRead : Request := ⟨false, 3, 9, false, by decide, by decide⟩

end Zonix.Ahci
