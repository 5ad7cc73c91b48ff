import Mathlib
import Zonix.Lib.RingLog
import Zonix.Cons.Numbers

/-!
# The kernel log

`KernelLog` of `kernel/cons/log.cpp`. The sections under an interrupt guard are the steps that interleave: storing a
record in `append`, and in `dump` reading `next_sequence_` and copying one record. A message is formatted by its
appender before it takes the guard.
-/

namespace Zonix.Cons

open RingLog

/-- `klog::Level`. -/
inductive Level where
  | debug
  | info
  | warn
  | error
deriving DecidableEq, Repr

def Level.rank : Level → ℕ
  | .debug => 0
  | .info => 1
  | .warn => 2
  | .error => 3

def messageSize : ℕ := 256
def recordCount : ℕ := 128

abbrev Message := Fin messageSize → Byte

structure LogRecord where
  sequence : UInt64
  level : Level
  message : Message

structure KernelLog where
  records : ℕ → LogRecord
  nextSequence : UInt64
  consoleLevel : Level

structure Entry where
  level : Level
  message : Message

/-- The lines written to the console. -/
inductive Line where
  | record (level : Level) (message : Message)
  | discarded (count : ℕ)
  | overwritten (count : ℕ)

def truncatedSuffix : List Byte := "... [truncated]\n".toList.map chr ++ [0]

def formatMessage (fmt : List Byte) (args : List Arg) : Option Message :=
  (vsnprintf (fun _ => 0) messageSize fmt args).map fun (message, length) k =>
    let offset := messageSize - truncatedSuffix.length
    if length ≥ messageSize ∧ offset ≤ k.val then truncatedSuffix.getD (k.val - offset) 0 else message k

def commit (entry : Entry) (log : KernelLog) : KernelLog × Option Line :=
  let record : LogRecord := ⟨log.nextSequence, entry.level, entry.message⟩
  ({ log with
      nextSequence := log.nextSequence + 1
      records := Function.update log.records (record.sequence.toNat % recordCount) record },
    if log.consoleLevel.rank ≤ entry.level.rank then some (.record entry.level entry.message) else none)

def append (level : Level) (fmt : List Byte) (args : List Arg) (log : KernelLog) : Option (KernelLog × Option Line) :=
  (formatMessage fmt args).map fun message => commit ⟨level, message⟩ log

theorem append_message (level : Level) (log : KernelLog) {fmt : List Byte} {args : List Arg} {out : List Byte}
    (h : formatText fmt args = some out) (hout : out.length < 2 ^ 31) :
    ∃ message : Message, append level fmt args log = some (commit ⟨level, message⟩ log) ∧
      (out.length < messageSize → ∀ k, k.val ≤ out.length → message k = (out ++ [0]).getD k 0) ∧
      (messageSize ≤ out.length → ∀ k, message k =
        (out.take (messageSize - truncatedSuffix.length) ++ truncatedSuffix).getD k 0) := by
  obtain ⟨buf, hbuf, hstored⟩ := vsnprintf_stored (fun _ => 0) messageSize h
  rw [toInt32_nat hout] at hbuf
  refine ⟨_, by rw [append, formatMessage, hbuf]; rfl, fun hfits k hk => ?_, fun hlong k => ?_⟩
  · have hshort : ¬((out.length : ℤ) ≥ messageSize ∧ messageSize - truncatedSuffix.length ≤ k.val) := by
      rintro ⟨hge, -⟩
      omega
    have hend : min out.length (messageSize - 1) = out.length := by omega
    simp only [if_neg hshort]
    rcases Nat.lt_or_eq_of_le hk with hlt | heq
    · rw [hstored.text k (by omega), List.getD_append _ _ _ _ hlt]
    · have hnul := hstored.terminated (by decide)
      rw [hend] at hnul
      rw [heq, hnul, List.getD_append_right _ _ _ _ le_rfl, Nat.sub_self]
      rfl
  · have hlen : (out.take (messageSize - truncatedSuffix.length)).length = messageSize - truncatedSuffix.length := by
      rw [List.length_take]
      omega
    have hk := k.isLt
    have hsuffix : messageSize - truncatedSuffix.length < messageSize - 1 := by decide
    by_cases hlate : messageSize - truncatedSuffix.length ≤ k.val
    · simp only [if_pos (⟨by omega, hlate⟩ : (out.length : ℤ) ≥ messageSize ∧ _)]
      rw [List.getD_append_right _ _ _ _ (by omega), hlen]
    · have hearly : k.val < messageSize - truncatedSuffix.length := by omega
      simp only [if_neg (fun h => hlate h.2 : ¬((out.length : ℤ) ≥ messageSize ∧ _))]
      rw [List.getD_append _ _ _ _ (by omega), hstored.text k (by omega)]
      simp only [List.getD_eq_getElem?_getD, List.getElem?_take_of_lt hearly]

/-! ## `dump` -/

/-- Where `dump` is: before it reads `next_sequence_`, at the head of its loop, with a local copy of a record, or
returned. -/
inductive Pc where
  | idle
  | reading (sequence : UInt64)
  | checking (sequence : UInt64) (record : LogRecord)
  | finished

structure Dump where
  pc : Pc
  endSeq : UInt64
  overwritten : UInt64
  lines : List Line

def dumpStep (log : KernelLog) (d : Dump) : Dump :=
  match d.pc with
  | .idle =>
    let endSeq := log.nextSequence
    let begin := if endSeq > 128 then endSeq - 128 else 0
    ⟨.reading begin, endSeq, 0, if begin ≠ 0 then [.discarded begin.toNat] else []⟩
  | .reading sequence =>
    if sequence < d.endSeq then
      { d with pc := .checking sequence (log.records (sequence.toNat % recordCount)) }
    else
      { d with
        pc := .finished
        lines := if d.overwritten ≠ 0 then d.lines ++ [.overwritten d.overwritten.toNat] else d.lines }
  | .checking sequence record =>
    if record.sequence ≠ sequence then
      { d with pc := .reading (sequence + 1), overwritten := d.overwritten + 1 }
    else { d with pc := .reading (sequence + 1), lines := d.lines ++ [.record record.level record.message] }
  | .finished => d

/-! ## Runs -/

structure System where
  log : KernelLog
  dump : Dump

inductive Event where
  | append (entry : Entry)
  | dump

def System.step (s : System) : Event → System
  | .append entry => { s with log := (commit entry s.log).1 }
  | .dump => { s with dump := dumpStep s.log s.dump }

/-- What an observer notes: every record appended, how many there were when `dump` started, and for each of its copies
the sequence number and how many records had been appended. -/
structure Observed where
  history : List Entry
  started : Option ℕ
  copies : List (ℕ × ℕ)

def observe (s : System) (g : Observed) : Event → Observed
  | .append entry => { g with history := g.history ++ [entry] }
  | .dump =>
    match s.dump.pc with
    | .idle => { g with started := some g.history.length }
    | .reading sequence =>
      if sequence < s.dump.endSeq then { g with copies := g.copies ++ [(sequence.toNat, g.history.length)] } else g
    | .checking _ _ => g
    | .finished => g

def runFrom (s : System) (g : Observed) : List Event → System × Observed
  | [] => (s, g)
  | e :: es => runFrom (s.step e) (observe s g e) es

def booted (consoleLevel : Level) : System :=
  ⟨⟨fun _ => ⟨0, .debug, fun _ => 0⟩, 0, consoleLevel⟩, ⟨.idle, 0, 0, []⟩⟩

def run (consoleLevel : Level) (events : List Event) : System × Observed :=
  runFrom (booted consoleLevel) ⟨[], none, []⟩ events

def Event.isAppend : Event → Bool
  | .append _ => true
  | .dump => false

/-! ## What `dump` reports -/

def begins (e : ℕ) : ℕ := e - recordCount

def recordLine (history : List Entry) (s : ℕ) : Option Line := history[s]?.map fun x => .record x.level x.message

/-- Of the last `min 128 e` records, exactly those that were not overwritten before they were copied are printed, in
order, each as it was appended; the others are counted. -/
structure Reports (g : Observed) (e : ℕ) (lines : List Line) (printed : List ℕ) (lost : ℕ) : Prop where
  copied : g.copies.map Prod.fst = List.range' (begins e) (min recordCount e)
  sublist : printed.Sublist (g.copies.map Prod.fst)
  kept : ∀ c ∈ g.copies, c.1 ∈ printed ↔ ¬Overwritten recordCount c.1 c.2
  lines : lines = (if begins e ≠ 0 then [.discarded (begins e)] else []) ++ printed.filterMap (recordLine g.history) ++
    if lost ≠ 0 then [.overwritten lost] else []
  own : ∀ s ∈ printed, s < g.history.length
  total : printed.length + lost + begins e = e

/-! ## Invariants -/

def survived (c : ℕ × ℕ) : Bool := decide (c.2 ≤ c.1 + recordCount)

def printedOf (copies : List (ℕ × ℕ)) : List ℕ := (copies.filter survived).map Prod.fst

def lostOf (copies : List (ℕ × ℕ)) : ℕ := copies.countP fun c => !survived c

theorem survived_iff (c : ℕ × ℕ) : survived c = true ↔ ¬Overwritten recordCount c.1 c.2 := by
  rw [overwritten_iff _ _ _ (by decide), survived, decide_eq_true_iff, Nat.not_lt]

theorem printedOf_append (cs : List (ℕ × ℕ)) (c : ℕ × ℕ) :
    printedOf (cs ++ [c]) = printedOf cs ++ if survived c then [c.1] else [] := by
  rw [printedOf, List.filter_append, List.map_append, printedOf, List.filter_singleton]
  cases survived c <;> rfl

theorem lostOf_append (cs : List (ℕ × ℕ)) (c : ℕ × ℕ) :
    lostOf (cs ++ [c]) = lostOf cs + if survived c then 0 else 1 := by
  rw [lostOf, List.countP_append, lostOf, List.countP_singleton]
  cases survived c <;> rfl

theorem printedOf_length (cs : List (ℕ × ℕ)) : (printedOf cs).length + lostOf cs = cs.length := by
  rw [printedOf, List.length_map, ← List.countP_eq_length_filter, lostOf]
  have hsplit := List.length_eq_countP_add_countP survived (l := cs)
  simp only [Bool.not_eq_true, Bool.decide_eq_false] at hsplit
  exact hsplit.symm

def KernelLog.view (log : KernelLog) (k : ℕ) : ℕ × Entry :=
  ((log.records k).sequence.toNat, ⟨(log.records k).level, (log.records k).message⟩)

theorem commit_view (entry : Entry) (log : KernelLog) : (commit entry log).1.view =
    Function.update log.view (log.nextSequence.toNat % recordCount) (log.nextSequence.toNat, entry) := by
  funext k
  rw [KernelLog.view, commit]
  by_cases hk : k = log.nextSequence.toNat % recordCount
  · simp only [hk, Function.update_self]
  · simp only [Function.update_of_ne hk]
    rfl

structure LogInv (log : KernelLog) (g : Observed) : Prop where
  holds : Holds recordCount g.history log.view
  next : log.nextSequence.toNat = g.history.length

structure Progress (g : Observed) (e : ℕ) (cs : List (ℕ × ℕ)) (d : Dump) : Prop where
  started : g.started = some e
  le : e ≤ g.history.length
  endSeq : d.endSeq.toNat = e
  window : cs.map Prod.fst = List.range' (begins e) cs.length
  bound : begins e + cs.length ≤ e
  lines : d.lines = (if begins e ≠ 0 then [.discarded (begins e)] else []) ++
    (printedOf cs).filterMap (recordLine g.history)
  lost : d.overwritten.toNat = lostOf cs

structure Copied (g : Observed) (record : LogRecord) (s n : ℕ) : Prop where
  fresh : record.sequence.toNat = s ↔ survived (s, n) = true
  same : record.sequence.toNat = s → recordLine g.history s = some (.record record.level record.message)

def DumpInv (g : Observed) (d : Dump) : Prop :=
  match d.pc with
  | .idle => g.copies = []
  | .reading sequence => ∃ e, Progress g e g.copies d ∧ sequence.toNat = begins e + g.copies.length
  | .checking sequence record => ∃ e cs n, Progress g e cs d ∧ g.copies = cs ++ [(sequence.toNat, n)] ∧
      sequence.toNat = begins e + cs.length ∧ sequence.toNat < e ∧ Copied g record sequence.toNat n
  | .finished => ∃ e, g.started = some e ∧ Reports g e d.lines (printedOf g.copies) (lostOf g.copies)

theorem recordLine_append {history : List Entry} {s : ℕ} (hs : s < history.length) (x : Entry) :
    recordLine (history ++ [x]) s = recordLine history s := by
  rw [recordLine, List.getElem?_append_left hs, recordLine]

variable {s : System} {cs : List (ℕ × ℕ)} {d : Dump} {e : ℕ} {g : Observed} {log : KernelLog}
  {sequence : UInt64}

theorem mem_printedOf {s : ℕ} (h : s ∈ printedOf cs) : s ∈ cs.map Prod.fst := by
  obtain ⟨c, hc, rfl⟩ := List.mem_map.1 h
  exact List.mem_map_of_mem (List.mem_filter.1 hc).1

theorem Progress.printed_lt (h : Progress g e cs d) {s : ℕ}
    (hs : s ∈ printedOf cs) : s < e := by
  have hmem := mem_printedOf hs
  rw [h.window, List.mem_range'_1] at hmem
  exact lt_of_lt_of_le hmem.2 h.bound

theorem Progress.nodup (h : Progress g e cs d) :
    (cs.map Prod.fst).Nodup := by
  rw [h.window]
  exact List.nodup_range'

theorem mem_printedOf_iff (hn : (cs.map Prod.fst).Nodup) {c : ℕ × ℕ} (hc : c ∈ cs) :
    c.1 ∈ printedOf cs ↔ ¬Overwritten recordCount c.1 c.2 := by
  rw [← survived_iff]
  constructor
  · intro h
    obtain ⟨c', hc', heq⟩ := List.mem_map.1 h
    obtain ⟨hmem, hsurvived⟩ := List.mem_filter.1 hc'
    rw [← List.inj_on_of_nodup_map hn hmem hc heq]
    exact hsurvived
  · intro h
    exact List.mem_map_of_mem (List.mem_filter.2 ⟨hc, h⟩)

/-! ## Appending -/

theorem filterMap_recordLine_append {history : List Entry} {printed : List ℕ} (h : ∀ s ∈ printed, s < history.length)
    (x : Entry) : printed.filterMap (recordLine (history ++ [x])) = printed.filterMap (recordLine history) :=
  List.filterMap_congr fun s hs => recordLine_append (h s hs) x

theorem LogInv.commit (h : LogInv log g) (hlen : g.history.length + 1 < 2 ^ 64)
    (entry : Entry) : LogInv (commit entry log).1 { g with history := g.history ++ [entry] } := by
  refine ⟨?_, ?_⟩
  · rw [commit_view, h.next]
    exact h.holds.append entry
  · show (log.nextSequence + 1).toNat = (g.history ++ [entry]).length
    rw [UInt64.toNat_add, h.next, List.length_append, List.length_singleton]
    exact Nat.mod_eq_of_lt hlen

theorem Progress.append (h : Progress g e cs d) (entry : Entry) :
    Progress { g with history := g.history ++ [entry] } e cs d := by
  refine ⟨h.started, ?_, h.endSeq, h.window, h.bound, ?_, h.lost⟩
  · rw [List.length_append]
    exact Nat.le_add_right_of_le h.le
  · rw [filterMap_recordLine_append fun s hs => lt_of_lt_of_le (h.printed_lt hs) h.le]
    exact h.lines

theorem Reports.append {lines : List Line} {printed : List ℕ} {lost : ℕ}
    (h : Reports g e lines printed lost) (entry : Entry) :
    Reports { g with history := g.history ++ [entry] } e lines printed lost := by
  refine ⟨h.copied, h.sublist, h.kept, ?_, fun s hs => ?_, h.total⟩
  · rw [filterMap_recordLine_append h.own]
    exact h.lines
  · rw [List.length_append]
    exact Nat.lt_add_right 1 (h.own s hs)

variable {record : LogRecord} {events : List Event}

theorem Copied.append {s n : ℕ} (h : Copied g record s n)
    (hs : s < g.history.length) (entry : Entry) : Copied { g with history := g.history ++ [entry] } record s n := by
  refine ⟨h.fresh, fun heq => ?_⟩
  rw [recordLine_append hs]
  exact h.same heq

theorem DumpInv.append (h : DumpInv g d) (entry : Entry) :
    DumpInv { g with history := g.history ++ [entry] } d := by
  obtain ⟨pc, endSeq, overwritten, lines⟩ := d
  cases pc with
  | idle => exact h
  | reading sequence =>
    obtain ⟨e, hp, hseq⟩ := h
    exact ⟨e, hp.append entry, hseq⟩
  | checking sequence record =>
    obtain ⟨e, cs, n, hp, hcopies, hseq, hlt, hcopy⟩ := h
    exact ⟨e, cs, n, hp.append entry, hcopies, hseq, hlt, hcopy.append (lt_of_lt_of_le hlt hp.le) entry⟩
  | finished =>
    obtain ⟨e, hstarted, hreport⟩ := h
    exact ⟨e, hstarted, hreport.append entry⟩

/-! ## The steps of `dump` -/

theorem dumpStep_of_idle (hpc : d.pc = .idle) {b : UInt64}
    (hb : b = if log.nextSequence > 128 then log.nextSequence - 128 else 0) :
    dumpStep log d = ⟨.reading b, log.nextSequence, 0, if b ≠ 0 then [.discarded b.toNat] else []⟩ := by
  rw [dumpStep, hb]
  simp only [hpc]

theorem dumpStep_of_lt (log : KernelLog) (hpc : d.pc = .reading sequence)
    (hlt : sequence < d.endSeq) :
    dumpStep log d = { d with pc := .checking sequence (log.records (sequence.toNat % recordCount)) } := by
  rw [dumpStep]
  simp only [hpc]
  exact if_pos hlt

theorem dumpStep_of_not_lt (log : KernelLog) (hpc : d.pc = .reading sequence)
    (hlt : ¬sequence < d.endSeq) :
    dumpStep log d = { d with
      pc := .finished
      lines := if d.overwritten ≠ 0 then d.lines ++ [.overwritten d.overwritten.toNat] else d.lines } := by
  rw [dumpStep]
  simp only [hpc]
  exact if_neg hlt

theorem dumpStep_of_eq (log : KernelLog)
    (hpc : d.pc = .checking sequence record) (hs : record.sequence = sequence) :
    dumpStep log d =
      { d with pc := .reading (sequence + 1), lines := d.lines ++ [.record record.level record.message] } := by
  rw [dumpStep]
  simp only [hpc]
  exact if_neg (not_not.2 hs)

theorem dumpStep_of_ne (log : KernelLog)
    (hpc : d.pc = .checking sequence record) (hs : record.sequence ≠ sequence) :
    dumpStep log d = { d with pc := .reading (sequence + 1), overwritten := d.overwritten + 1 } := by
  rw [dumpStep]
  simp only [hpc]
  exact if_pos hs

theorem begins_of_next (next : UInt64) : (if next > 128 then next - 128 else 0).toNat = begins next.toNat := by
  have hgt : next > 128 ↔ 128 < next.toNat := by
    rw [gt_iff_lt, UInt64.lt_iff_toNat_lt]
    rfl
  rw [begins, recordCount]
  by_cases h : 128 < next.toNat
  · rw [if_pos (hgt.2 h)]
    exact UInt64.toNat_sub_of_le next 128 (UInt64.le_iff_toNat_le.2 h.le)
  · rw [if_neg (mt hgt.1 h), Nat.sub_eq_zero_of_le (Nat.not_lt.1 h)]
    rfl

theorem progress_start (hs : g.started = some e) (he : e = g.history.length)
    (hend : d.endSeq.toNat = e) (hlines : d.lines = if begins e ≠ 0 then [.discarded (begins e)] else [])
    (hlost : d.overwritten = 0) : Progress g e [] d := by
  refine ⟨hs, he.le, hend, rfl, ?_, ?_, ?_⟩
  · rw [List.length_nil, begins]
    omega
  · rw [hlines]
    exact (List.append_nil _).symm
  · rw [hlost]
    rfl

theorem dumpStep_idle (hlog : LogInv log g) (hpc : d.pc = .idle)
    (h : g.copies = []) : DumpInv { g with started := some g.history.length } (dumpStep log d) := by
  obtain ⟨b, hb⟩ : ∃ b, b = if log.nextSequence > 128 then log.nextSequence - 128 else 0 := ⟨_, rfl⟩
  have hbegin : b.toNat = begins g.history.length := by rw [hb, begins_of_next, hlog.next]
  have hzero : b ≠ 0 ↔ begins g.history.length ≠ 0 := by
    rw [← hbegin, Ne, Ne, ← UInt64.toNat_inj]
    rfl
  rw [dumpStep_of_idle hpc hb]
  refine ⟨g.history.length, ?_, ?_⟩
  · show Progress _ _ g.copies _
    rw [h]
    refine progress_start rfl rfl hlog.next ?_ rfl
    simp only [hzero, hbegin]
  · show b.toNat = begins g.history.length + g.copies.length
    rw [h, hbegin, List.length_nil, Nat.add_zero]

theorem LogInv.copied (h : LogInv log g) {s : ℕ} (hs : s < g.history.length) :
    Copied g (log.records (s % recordCount)) s g.history.length := by
  have hread := h.holds.read (by decide) (List.getElem?_eq_getElem hs)
  refine ⟨?_, fun heq => ?_⟩
  · rw [survived_iff]
    exact hread.1
  · rw [recordLine, List.getElem?_eq_getElem hs, ← hread.2 heq]
    rfl

theorem dumpStep_copy (hlog : LogInv log g)
    (hpc : d.pc = .reading sequence) (hlt : sequence < d.endSeq) (hp : Progress g e g.copies d)
    (hseq : sequence.toNat = begins e + g.copies.length) :
    DumpInv { g with copies := g.copies ++ [(sequence.toNat, g.history.length)] } (dumpStep log d) := by
  have hend : sequence.toNat < e := by
    rw [← hp.endSeq]
    exact UInt64.lt_iff_toNat_lt.1 hlt
  rw [dumpStep_of_lt log hpc hlt]
  refine ⟨e, g.copies, g.history.length, ?_, rfl, hseq, hend, ?_⟩
  · exact ⟨hp.started, hp.le, hp.endSeq, hp.window, hp.bound, hp.lines, hp.lost⟩
  · have hcopy := hlog.copied (lt_of_lt_of_le hend hp.le)
    exact ⟨hcopy.fresh, hcopy.same⟩

theorem dumpStep_finish
    (hpc : d.pc = .reading sequence) (hlt : ¬sequence < d.endSeq) (hp : Progress g e g.copies d)
    (hseq : sequence.toNat = begins e + g.copies.length) : DumpInv g (dumpStep log d) := by
  have hall : begins e + g.copies.length = e := by
    have hle : e ≤ sequence.toNat := by
      rw [← hp.endSeq]
      exact Nat.not_lt.1 fun h => hlt (UInt64.lt_iff_toNat_lt.2 h)
    have := hp.bound
    omega
  have hcount : g.copies.length = min recordCount e := by
    rw [begins] at hall
    omega
  have hzero : d.overwritten ≠ 0 ↔ lostOf g.copies ≠ 0 := by
    rw [← hp.lost, Ne, Ne, ← UInt64.toNat_inj]
    rfl
  rw [dumpStep_of_not_lt log hpc hlt]
  refine ⟨e, hp.started, ?_, ?_, ?_, ?_, ?_, ?_⟩
  · rw [hp.window, hcount]
  · exact List.filter_sublist.map Prod.fst
  · exact fun c hc => mem_printedOf_iff hp.nodup hc
  · simp only [hzero, hp.lost, hp.lines]
    split
    · rfl
    · rw [List.append_nil]
  · exact fun s hs => lt_of_lt_of_le (hp.printed_lt hs) hp.le
  · have := printedOf_length g.copies
    omega

theorem Progress.next {n : ℕ} {d' : Dump}
    (h : Progress g e cs d) (hseq : sequence.toNat = begins e + cs.length) (hlt : sequence.toNat < e)
    (hend : d'.endSeq = d.endSeq)
    (hlines : d'.lines = d.lines ++
      (if survived (sequence.toNat, n) then [sequence.toNat] else []).filterMap (recordLine g.history))
    (hlost : d'.overwritten.toNat = d.overwritten.toNat + if survived (sequence.toNat, n) then 0 else 1) :
    Progress g e (cs ++ [(sequence.toNat, n)]) d' := by
  refine ⟨h.started, h.le, ?_, ?_, ?_, ?_, ?_⟩
  · rw [hend, h.endSeq]
  · rw [List.map_append, h.window, List.length_append, List.length_singleton, List.range'_concat, hseq, Nat.one_mul]
    rfl
  · rw [List.length_append, List.length_singleton]
    omega
  · rw [hlines, h.lines, printedOf_append, List.filterMap_append, List.append_assoc]
  · rw [hlost, h.lost, lostOf_append]

theorem dumpStep_check
    (hpc : d.pc = .checking sequence record) (h : DumpInv g d) : DumpInv g (dumpStep log d) := by
  rw [DumpInv, hpc] at h
  obtain ⟨e, cs, n, hp, hcopies, hseq, hlt, hcopy⟩ := h
  have hsame : record.sequence = sequence ↔ survived (sequence.toNat, n) = true := by
    rw [← hcopy.fresh, UInt64.toNat_inj]
  have he : e < 2 ^ 64 := by
    rw [← hp.endSeq]
    exact d.endSeq.toNat_lt
  have hnext : (sequence + 1).toNat = sequence.toNat + 1 := by
    rw [UInt64.toNat_add]
    exact Nat.mod_eq_of_lt (show sequence.toNat + 1 < 2 ^ 64 by omega)
  have hcount : (sequence + 1).toNat = begins e + (cs ++ [(sequence.toNat, n)]).length := by
    rw [hnext, List.length_append, List.length_singleton]
    omega
  by_cases hs : record.sequence = sequence
  · rw [dumpStep_of_eq log hpc hs]
    refine ⟨e, ?_, by rw [hcopies]; exact hcount⟩
    rw [hcopies]
    refine hp.next hseq hlt rfl ?_ ?_
    · rw [if_pos (hsame.1 hs), List.filterMap_cons, hcopy.same (congrArg UInt64.toNat hs)]
      rfl
    · rw [if_pos (hsame.1 hs), Nat.add_zero]
  · have hlost : (d.overwritten + 1).toNat = d.overwritten.toNat + 1 := by
      have hle := printedOf_length cs
      have hb := hp.lost
      rw [UInt64.toNat_add]
      exact Nat.mod_eq_of_lt (show d.overwritten.toNat + 1 < 2 ^ 64 by omega)
    rw [dumpStep_of_ne log hpc hs]
    refine ⟨e, ?_, by rw [hcopies]; exact hcount⟩
    rw [hcopies]
    refine hp.next hseq hlt rfl ?_ ?_
    · rw [if_neg (mt hsame.2 hs), List.filterMap_nil, List.append_nil]
    · rw [if_neg (mt hsame.2 hs)]
      exact hlost

/-! ## Runs -/

structure Inv (s : System) (g : Observed) : Prop where
  log : LogInv s.log g
  dump : DumpInv g s.dump

theorem Inv.step (h : Inv s g) (e : Event)
    (hlen : g.history.length + (if e.isAppend then 1 else 0) < 2 ^ 64) : Inv (s.step e) (observe s g e) := by
  cases e with
  | append entry => exact ⟨h.log.commit hlen entry, h.dump.append entry⟩
  | dump =>
    have hd := h.dump
    rw [DumpInv] at hd
    rw [System.step, observe]
    cases hpc : s.dump.pc with
    | idle =>
      rw [hpc] at hd
      exact ⟨⟨h.log.holds, h.log.next⟩, dumpStep_idle h.log hpc hd⟩
    | reading sequence =>
      rw [hpc] at hd
      obtain ⟨e, hp, hseq⟩ := hd
      simp only
      by_cases hlt : sequence < s.dump.endSeq
      · rw [if_pos hlt]
        exact ⟨⟨h.log.holds, h.log.next⟩, dumpStep_copy h.log hpc hlt hp hseq⟩
      · rw [if_neg hlt]
        exact ⟨h.log, dumpStep_finish hpc hlt hp hseq⟩
    | checking sequence record => exact ⟨h.log, dumpStep_check hpc h.dump⟩
    | finished =>
      refine ⟨h.log, ?_⟩
      have hstay : dumpStep s.log s.dump = s.dump := by
        rw [dumpStep]
        simp only [hpc]
      show DumpInv g (dumpStep s.log s.dump)
      rw [hstay]
      exact h.dump

theorem observe_length (s : System) (g : Observed) (e : Event) :
    (observe s g e).history.length = g.history.length + if e.isAppend then 1 else 0 := by
  cases e with
  | append entry => exact List.length_append
  | dump =>
    rw [observe]
    cases s.dump.pc with
    | idle => rfl
    | reading sequence =>
      simp only
      split <;> rfl
    | checking sequence record => rfl
    | finished => rfl

theorem Inv.run (h : Inv s g)
    (hlen : g.history.length + events.countP Event.isAppend < 2 ^ 64) :
    Inv (runFrom s g events).1 (runFrom s g events).2 := by
  induction events generalizing s g with
  | nil => exact h
  | cons e es ih =>
    rw [List.countP_cons] at hlen
    refine ih (h.step e (by omega)) ?_
    rw [observe_length]
    omega

theorem booted_inv (consoleLevel : Level) : Inv (booted consoleLevel) ⟨[], none, []⟩ :=
  ⟨⟨holds_nil _ _, rfl⟩, rfl⟩

theorem dump_consistent (consoleLevel : Level) (events : List Event) (hlen : events.countP Event.isAppend < 2 ^ 64)
    (hdone : (run consoleLevel events).1.dump.pc = .finished) :
    ∃ e printed lost, (run consoleLevel events).2.started = some e ∧
      Reports (run consoleLevel events).2 e (run consoleLevel events).1.dump.lines printed lost := by
  have hinv : Inv (run consoleLevel events).1 (run consoleLevel events).2 :=
    (booted_inv consoleLevel).run (by rw [List.length_nil, Nat.zero_add]; exact hlen)
  have hdump := hinv.dump
  rw [DumpInv, hdone] at hdump
  obtain ⟨e, hstarted, hreport⟩ := hdump
  exact ⟨e, _, _, hstarted, hreport⟩

/-- Two records are appended; the second comes while `dump` is under way and is not part of it. -/
def twoRecords : List Event :=
  [.append ⟨.info, fun _ => 0⟩, .dump, .append ⟨.error, fun _ => 0⟩, .dump, .dump, .dump]

theorem dump_consistent_twoRecords : ∃ e printed lost, (run .info twoRecords).2.started = some e ∧
    Reports (run .info twoRecords).2 e (run .info twoRecords).1.dump.lines printed lost :=
  dump_consistent .info twoRecords (by decide) rfl

/-! ## `dump` returns -/

def stepsLeft (d : Dump) : ℕ :=
  match d.pc with
  | .idle => 2 * recordCount + 2
  | .reading sequence => 2 * (d.endSeq.toNat - sequence.toNat) + 1
  | .checking sequence _ => 2 * (d.endSeq.toNat - sequence.toNat)
  | .finished => 0

theorem Inv.stepsLeft_pos (h : Inv s g) (hpc : s.dump.pc ≠ .finished) :
    0 < stepsLeft s.dump := by
  have hd := h.dump
  rw [DumpInv] at hd
  rw [stepsLeft]
  cases hp : s.dump.pc with
  | idle => exact Nat.succ_pos _
  | reading sequence => exact Nat.succ_pos _
  | checking sequence record =>
    rw [hp] at hd
    obtain ⟨e, cs, n, hprogress, -, -, hlt, -⟩ := hd
    have := hprogress.endSeq
    simp only
    omega
  | finished => exact absurd hp hpc

theorem Inv.stepsLeft_lt (h : Inv s g) (hpc : s.dump.pc ≠ .finished) :
    stepsLeft (dumpStep s.log s.dump) < stepsLeft s.dump := by
  have hd := h.dump
  rw [DumpInv] at hd
  cases hp : s.dump.pc with
  | idle =>
    have hb := begins_of_next s.log.nextSequence
    rw [begins] at hb
    rw [dumpStep_of_idle hp rfl]
    simp only [stepsLeft, hp, hb]
    omega
  | reading sequence =>
    by_cases hlt : sequence < s.dump.endSeq
    · rw [dumpStep_of_lt s.log hp hlt]
      simp only [stepsLeft, hp]
      omega
    · rw [dumpStep_of_not_lt s.log hp hlt]
      simp only [stepsLeft, hp]
      omega
  | checking sequence record =>
    rw [hp] at hd
    obtain ⟨e, cs, n, hprogress, -, -, hlt, -⟩ := hd
    have hend := hprogress.endSeq
    have hbound := s.dump.endSeq.toNat_lt
    have hnext : (sequence + 1).toNat = sequence.toNat + 1 := by
      rw [UInt64.toNat_add]
      exact Nat.mod_eq_of_lt (show sequence.toNat + 1 < 2 ^ 64 by omega)
    by_cases hs : record.sequence = sequence
    · rw [dumpStep_of_eq s.log hp hs]
      simp only [stepsLeft, hp, hnext]
      omega
    · rw [dumpStep_of_ne s.log hp hs]
      simp only [stepsLeft, hp, hnext]
      omega
  | finished => exact absurd hp hpc

theorem step_finished (hpc : s.dump.pc = .finished) (e : Event) : (s.step e).dump.pc = .finished := by
  cases e with
  | append entry => exact hpc
  | dump =>
    rw [System.step, dumpStep]
    simp only [hpc]

theorem runFrom_finished (g : Observed) (hpc : s.dump.pc = .finished) (events : List Event) :
    (runFrom s g events).1.dump.pc = .finished := by
  induction events generalizing s g with
  | nil => exact hpc
  | cons e es ih => exact ih _ (step_finished hpc e)

theorem Inv.run_stepsLeft (h : Inv s g)
    (hlen : g.history.length + events.countP Event.isAppend < 2 ^ 64)
    (hpc : (runFrom s g events).1.dump.pc ≠ .finished) :
    stepsLeft (runFrom s g events).1.dump + events.countP (fun e => !e.isAppend) ≤ stepsLeft s.dump := by
  induction events generalizing s g with
  | nil => exact le_rfl
  | cons e es ih =>
    rw [List.countP_cons] at hlen ⊢
    have hrest := ih (h.step e (by omega)) (by rw [observe_length]; omega) hpc
    cases e with
    | append entry => exact hrest
    | dump =>
      have hgoing : s.dump.pc ≠ .finished := fun hfin => hpc (runFrom_finished g hfin (.dump :: es))
      have hless := h.stepsLeft_lt hgoing
      have hstep : stepsLeft (s.step .dump).dump = stepsLeft (dumpStep s.log s.dump) := rfl
      have hone : (if (!Event.dump.isAppend) = true then 1 else 0) = 1 := rfl
      rw [hone, runFrom]
      omega

theorem dump_finishes (consoleLevel : Level) (hlen : events.countP Event.isAppend < 2 ^ 64)
    (hsteps : 2 * recordCount + 2 ≤ events.countP fun e => !e.isAppend) :
    (run consoleLevel events).1.dump.pc = .finished := by
  by_contra hpc
  have hlen' : ([] : List Entry).length + events.countP Event.isAppend < 2 ^ 64 := by
    rw [List.length_nil, Nat.zero_add]
    exact hlen
  have hleft := (booted_inv consoleLevel).run_stepsLeft hlen' hpc
  have hpos := ((booted_inv consoleLevel).run hlen').stepsLeft_pos hpc
  have hstart : stepsLeft (booted consoleLevel).dump = 2 * recordCount + 2 := rfl
  rw [run] at hpc
  omega

end Zonix.Cons
