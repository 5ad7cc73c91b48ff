import Mathlib
import Zonix.Lib.Sink

/-!
# Formatted output

`vformat`, `cprintf` and `vsnprintf` of `kernel/cons/stdio.cpp`. A format is the bytes before its terminating NUL. An
argument is taken with the type it was passed with; `none` stands for a `va_arg` of another type, for a missing
argument and for a store past the end of the digit buffer.
-/

namespace Zonix.Cons

open Sink

abbrev Byte := BitVec 8

def chr (c : Char) : Byte := BitVec.ofNat 8 c.toNat

/-- Conversion to `int`. -/
def toInt32 (x : ℤ) : ℤ := x.bmod (2 ^ 32)

inductive Arg where
  | int (v : BitVec 32)
  | long (v : BitVec 64)
  | pointer (v : BitVec 64)
  | string (s : List Byte)
deriving DecidableEq, Repr

/-- `va_arg`, where `get` reads the arguments of one type. -/
def vaArg {α : Type} (get : Arg → Option α) : List Arg → Option (α × List Arg)
  | [] => none
  | a :: args => (get a).map fun v => (v, args)

def Arg.asInt : Arg → Option (BitVec 32)
  | .int v => some v
  | _ => none

def Arg.asLong : Arg → Option (BitVec 64)
  | .long v => some v
  | _ => none

def Arg.asPointer : Arg → Option (BitVec 64)
  | .pointer v => some v
  | _ => none

def Arg.asString : Arg → Option (List Byte)
  | .string s => some s
  | _ => none

/-- `long_flag ? va_arg(args, uint64_t) : va_arg(args, uint32_t)`. -/
def vaUnsigned (longFlag : Bool) (args : List Arg) : Option (ℕ × List Arg) :=
  if longFlag then (vaArg Arg.asLong args).map fun r => (r.1.toNat, r.2) else (vaArg Arg.asInt args).map fun r => (r.1.toNat, r.2)

/-- `long_flag ? va_arg(args, int64_t) : va_arg(args, int32_t)`. -/
def vaSigned (longFlag : Bool) (args : List Arg) : Option (ℤ × List Arg) :=
  if longFlag then (vaArg Arg.asLong args).map fun r => (r.1.toInt, r.2) else (vaArg Arg.asInt args).map fun r => (r.1.toInt, r.2)

/-! ## Sinks -/

structure ConsoleSink where
  out : List Byte
  pos : ℕ

instance : Sink ConsoleSink Byte := ⟨fun s c => ⟨s.out ++ [c], s.pos + 1⟩⟩

structure BufferSink where
  buf : ℕ → Byte
  pos : ℕ
  size : ℕ

instance : Sink BufferSink Byte :=
  ⟨fun s c =>
    { s with
      buf := if s.size ≠ 0 ∧ s.pos < s.size - 1 then Function.update s.buf s.pos c else s.buf
      pos := s.pos + 1 }⟩

variable {σ : Type} [Sink σ Byte]

/-- `put_pad`, with `n` the number of times `n-- > 0` holds. -/
def putPad (sink : σ) (c : Byte) : ℕ → σ
  | 0 => sink
  | n + 1 => putPad (put sink c) c n

def numBufSize : ℕ := 21

def store (buf : List Byte) (c : Byte) : Option (List Byte) :=
  if buf.length < numBufSize then some (buf ++ [c]) else none

def digitChar (d : ℕ) : Byte := if d < 10 then chr '0' + BitVec.ofNat 8 d else chr 'A' + BitVec.ofNat 8 (d - 10)

/-- The division loop of `put_int`. One store more than the buffer holds already fails. -/
def putDigits (base : ℕ) : ℕ → ℕ → List Byte → Option (List Byte)
  | 0, _, _ => none
  | fuel + 1, num, buf =>
    if 0 < num then (store buf (digitChar (num % base))).bind (putDigits base fuel (num / base)) else some buf

/-- The digits of `put_int`, the lowest first. -/
def numBuf (num base : ℕ) : Option (List Byte) :=
  if num = 0 then store [] (chr '0') else putDigits base (numBufSize + 1) num []

def putInt (sink : σ) (num base : ℕ) (negative : Bool) (width : ℤ) (padChr : Byte) (leftAlign : Bool) : Option σ :=
  (numBuf num base).map fun buf =>
    let total : ℤ := buf.length + if negative then 1 else 0
    let pad : ℤ := if width > total then width - total else 0
    let sink := if leftAlign = false ∧ padChr = chr ' ' then putPad sink (chr ' ') pad.toNat else sink
    let sink := if negative then put sink (chr '-') else sink
    let sink := if leftAlign = false ∧ padChr = chr '0' then putPad sink (chr '0') pad.toNat else sink
    let sink := putAll sink buf.reverse
    if leftAlign then putPad sink (chr ' ') pad.toNat else sink

def cString (s : List Byte) : List Byte := s.takeWhile (· ≠ 0)

def putStr (sink : σ) (s : List Byte) (width : ℤ) (leftAlign : Bool) : σ :=
  let len := toInt32 (cString s).length
  let pad := if width > len then toInt32 (width - len) else 0
  let sink := if leftAlign = false then putPad sink (chr ' ') pad.toNat else sink
  let sink := putAll sink (cString s)
  if leftAlign then putPad sink (chr ' ') pad.toNat else sink

/-! ## The format machine -/

inductive FmtState where
  | none
  | spec
deriving DecidableEq, Repr

structure Control where
  state : FmtState
  width : ℤ
  longFlag : Bool
  leftAlign : Bool
  padChr : Byte
  args : List Arg
deriving DecidableEq, Repr

def Control.convert (f : Control) (args : List Arg) : Control := { f with state := .none, args := args }

/-- `neg ? -snum : snum`, negated as an `int64_t` and converted to `uint64_t`. -/
def unsignedOf (neg : Bool) (snum : ℤ) : ℕ := ((if neg then (-snum).bmod (2 ^ 64) else snum) % 2 ^ 64).toNat

def stepSpec (c : Byte) (f : Control) (sink : σ) : Option (Control × σ) :=
  if c = chr '-' then some ({ f with leftAlign := true }, sink)
  else if chr '0' ≤ c ∧ c ≤ chr '9' then
    if c = chr '0' ∧ f.width = 0 then some ({ f with padChr := chr '0' }, sink)
    else some ({ f with width := toInt32 (f.width * 10 + (c.toNat - (chr '0').toNat)) }, sink)
  else if c = chr 'l' then some ({ f with longFlag := true }, sink)
  else if c = chr 'p' then
    (vaArg Arg.asPointer f.args).bind fun (num, args) =>
      (putInt sink num.toNat 16 false f.width f.padChr f.leftAlign).map fun sink => (f.convert args, sink)
  else if c = chr 'x' then
    (vaUnsigned f.longFlag f.args).bind fun (num, args) =>
      (putInt sink num 16 false f.width f.padChr f.leftAlign).map fun sink => (f.convert args, sink)
  else if c = chr 'u' then
    (vaUnsigned f.longFlag f.args).bind fun (num, args) =>
      (putInt sink num 10 false f.width f.padChr f.leftAlign).map fun sink => (f.convert args, sink)
  else if c = chr 'd' then
    (vaSigned f.longFlag f.args).bind fun (snum, args) =>
      let neg := decide (snum < 0)
      (putInt sink (unsignedOf neg snum) 10 neg f.width f.padChr f.leftAlign).map fun sink => (f.convert args, sink)
  else if c = chr 's' then
    (vaArg Arg.asString f.args).map fun (s, args) => (f.convert args, putStr sink s f.width f.leftAlign)
  else if c = chr 'c' then
    (vaArg Arg.asInt f.args).map fun (v, args) => (f.convert args, put sink (v.setWidth 8))
  else if c = chr '%' then some ({ f with state := .none }, put sink (chr '%'))
  else some ({ f with state := .none }, sink)

def step (c : Byte) (f : Control) (sink : σ) : Option (Control × σ) :=
  match f.state with
  | .none =>
    if c = chr '%' then
      some ({ f with state := .spec, width := 0, longFlag := false, leftAlign := false, padChr := chr ' ' }, sink)
    else some (f, put sink c)
  | .spec => stepSpec c f sink

def formatLoop : List Byte → Control → σ → Option (Control × σ)
  | [], f, sink => some (f, sink)
  | c :: fmt, f, sink => if c = 0 then some (f, sink) else (step c f sink).bind fun r => formatLoop fmt r.1 r.2

def vformat (sink : σ) (fmt : List Byte) (args : List Arg) : Option σ :=
  (formatLoop fmt ⟨.none, 0, false, false, 0, args⟩ sink).map Prod.snd

/-- The text on the console and the value returned. -/
def cprintf (fmt : List Byte) (args : List Arg) : Option (List Byte × ℤ) :=
  (vformat (⟨[], 0⟩ : ConsoleSink) fmt args).map fun sink => (sink.out, toInt32 sink.pos)

/-- The buffer afterwards and the value returned. -/
def vsnprintf (buf : ℕ → Byte) (size : ℕ) (fmt : List Byte) (args : List Arg) : Option ((ℕ → Byte) × ℤ) :=
  (vformat (⟨buf, 0, size⟩ : BufferSink) fmt args).map fun sink =>
    (if size ≠ 0 then Function.update sink.buf (if sink.pos < size then sink.pos else size - 1) 0 else sink.buf,
      toInt32 sink.pos)

/-! ## One text for every sink -/

theorem putPad_eq (sink : σ) (c : Byte) (n : ℕ) : putPad sink c n = putAll sink (List.replicate n c) := by
  induction n generalizing sink with
  | zero => rfl
  | succ n ih =>
    rw [putPad, ih, List.replicate_succ, putAll_cons]

theorem putAll_ite (sink : σ) (p : Prop) [Decidable p] (cs : List Byte) :
    putAll sink (if p then cs else []) = if p then putAll sink cs else sink := by
  rw [apply_ite (putAll sink), putAll_nil]

def intText (digits : List Byte) (negative : Bool) (width : ℤ) (padChr : Byte) (leftAlign : Bool) : List Byte :=
  let total : ℤ := digits.length + if negative then 1 else 0
  let pad : ℤ := if width > total then width - total else 0
  (if leftAlign = false ∧ padChr = chr ' ' then List.replicate pad.toNat (chr ' ') else []) ++
    (if negative then [chr '-'] else []) ++
    (if leftAlign = false ∧ padChr = chr '0' then List.replicate pad.toNat (chr '0') else []) ++
    digits ++ if leftAlign then List.replicate pad.toNat (chr ' ') else []

theorem putInt_text (sink : σ) (num base : ℕ) (negative : Bool) (width : ℤ) (padChr : Byte) (leftAlign : Bool) :
    putInt sink num base negative width padChr leftAlign =
      (numBuf num base).map fun buf => putAll sink (intText buf.reverse negative width padChr leftAlign) := by
  refine congrFun (congrArg Option.map (funext fun buf => ?_)) _
  simp only [intText, putAll_append, putAll_ite, putPad_eq, List.length_reverse, putAll_singleton]

theorem putInt_eq (sink : σ) (num base : ℕ) (negative : Bool) (width : ℤ) (padChr : Byte) (leftAlign : Bool) :
    putInt sink num base negative width padChr leftAlign =
      (putInt ([] : List Byte) num base negative width padChr leftAlign).map (putAll sink) := by
  rw [putInt_text, putInt_text, Option.map_map]
  refine congrFun (congrArg Option.map (funext fun buf => ?_)) _
  rw [Function.comp_apply, putAll_list, List.nil_append]

theorem putStr_eq (sink : σ) (s : List Byte) (width : ℤ) (leftAlign : Bool) :
    putStr sink s width leftAlign = putAll sink (putStr ([] : List Byte) s width leftAlign) := by
  cases leftAlign with
  | false =>
    simp only [putStr, putPad_eq, if_true, Bool.false_eq_true, if_false]
    rw [putAll_list, putAll_list, List.nil_append, putAll_append]
  | true =>
    simp only [putStr, putPad_eq, if_true, Bool.true_eq_false, if_false]
    rw [putAll_list, putAll_list, List.nil_append, putAll_append]

def emit (sink : σ) (r : Control × List Byte) : Control × σ := (r.1, putAll sink r.2)

theorem emit_ite {sink : σ} {p : Prop} [Decidable p] {a b : Option (Control × σ)} {x y : Option (Control × List Byte)}
    (ha : a = x.map (emit sink)) (hb : b = y.map (emit sink)) :
    (if p then a else b) = (if p then x else y).map (emit sink) := by
  rw [ha, hb, apply_ite (Option.map (emit sink))]

theorem emit_int {α : Type} (va : Option (α × List Arg)) (sink : σ) (g : α × List Arg → Control)
    (num : α × List Arg → ℕ) (base : ℕ) (neg : α × List Arg → Bool) (width : ℤ) (padChr : Byte) (leftAlign : Bool) :
    (va.bind fun r => (putInt sink (num r) base (neg r) width padChr leftAlign).map fun s => (g r, s)) =
      (va.bind fun r =>
        (putInt ([] : List Byte) (num r) base (neg r) width padChr leftAlign).map fun s => (g r, s)).map (emit sink) := by
  cases va with
  | none => rfl
  | some r =>
    simp only [Option.bind_some]
    rw [putInt_eq, Option.map_map, Option.map_map]
    rfl

theorem emit_str (va : Option (List Byte × List Arg)) (sink : σ) (f : Control) :
    (va.map fun r => (f.convert r.2, putStr sink r.1 f.width f.leftAlign)) =
      (va.map fun r => (f.convert r.2, putStr ([] : List Byte) r.1 f.width f.leftAlign)).map (emit sink) := by
  cases va with
  | none => rfl
  | some r => exact congrArg (fun s => some (f.convert r.2, s)) (putStr_eq sink r.1 f.width f.leftAlign)

theorem emit_char (va : Option (BitVec 32 × List Arg)) (sink : σ) (f : Control) :
    (va.map fun r => (f.convert r.2, put sink (r.1.setWidth 8))) =
      (va.map fun r => (f.convert r.2, put ([] : List Byte) (r.1.setWidth 8))).map (emit sink) := by
  cases va with
  | none => rfl
  | some r => rfl

theorem stepSpec_eq (c : Byte) (f : Control) (sink : σ) :
    stepSpec c f sink = (stepSpec c f ([] : List Byte)).map (emit sink) := by
  refine emit_ite rfl (emit_ite (emit_ite rfl rfl) (emit_ite rfl ?_))
  refine emit_ite (emit_int _ sink _ _ 16 _ _ _ _) (emit_ite (emit_int _ sink _ _ 16 _ _ _ _) ?_)
  refine emit_ite (emit_int _ sink _ _ 10 _ _ _ _) (emit_ite (emit_int _ sink _ _ 10 _ _ _ _) ?_)
  exact emit_ite (emit_str _ sink f) (emit_ite (emit_char _ sink f) (emit_ite rfl rfl))

theorem step_eq (c : Byte) (f : Control) (sink : σ) :
    step c f sink = (step c f ([] : List Byte)).map (emit sink) := by
  unfold step
  cases f.state with
  | none => exact emit_ite rfl rfl
  | spec => exact stepSpec_eq c f sink

theorem formatLoop_eq (fmt : List Byte) (f : Control) : ∀ {τ : Type} [Sink τ Byte] (sink : τ),
    formatLoop fmt f sink = (formatLoop fmt f ([] : List Byte)).map (emit sink) := by
  induction fmt generalizing f with
  | nil => exact fun _ => rfl
  | cons c fmt ih =>
    intro τ _ sink
    refine emit_ite rfl ?_
    rw [step_eq]
    cases step c f ([] : List Byte) with
    | none => rfl
    | some r =>
      -- at the list, the rest of the format continues after what the step left there
      simp only [Option.map_some, Option.bind_some]
      rw [ih r.1 r.2, emit, ih, Option.map_map]
      refine congrFun (congrArg Option.map (funext fun q => ?_)) _
      simp only [Function.comp_apply, emit, putAll_list, putAll_append]

def formatText (fmt : List Byte) (args : List Arg) : Option (List Byte) := vformat ([] : List Byte) fmt args

theorem vformat_eq (sink : σ) (fmt : List Byte) (args : List Arg) :
    vformat sink fmt args = (formatText fmt args).map (putAll sink) := by
  rw [vformat, formatLoop_eq, formatText, vformat, Option.map_map, Option.map_map]
  rfl

/-! ## The two sinks -/

theorem putAll_console (s : ConsoleSink) (cs : List Byte) : putAll s cs = ⟨s.out ++ cs, s.pos + cs.length⟩ := by
  induction cs generalizing s with
  | nil =>
    rw [List.append_nil]
    rfl
  | cons c cs ih =>
    rw [putAll_cons, ih]
    simp only [put, List.append_assoc, List.singleton_append, List.length_cons, ConsoleSink.mk.injEq, true_and]
    omega

theorem put_buffer (s : BufferSink) (c : Byte) (k : ℕ) :
    (put s c).buf k = if k = s.pos ∧ k < s.size - 1 then c else s.buf k := by
  show (if s.size ≠ 0 ∧ s.pos < s.size - 1 then Function.update s.buf s.pos c else s.buf) k = _
  by_cases hfits : s.pos < s.size - 1
  · rw [if_pos ⟨by omega, hfits⟩, Function.update_apply]
    exact if_congr ⟨fun h => ⟨h, h ▸ hfits⟩, And.left⟩ rfl rfl
  · rw [if_neg fun h => hfits h.2, if_neg]
    rintro ⟨rfl, h⟩
    exact hfits h

theorem putAll_buffer (s : BufferSink) (cs : List Byte) :
    (putAll s cs).pos = s.pos + cs.length ∧ (putAll s cs).size = s.size ∧
      ∀ k, (putAll s cs).buf k =
        if s.pos ≤ k ∧ k < s.pos + cs.length ∧ k < s.size - 1 then cs.getD (k - s.pos) 0 else s.buf k := by
  induction cs generalizing s with
  | nil =>
    refine ⟨rfl, rfl, fun k => ?_⟩
    rw [if_neg (by rw [List.length_nil]; omega)]
    rfl
  | cons c cs ih =>
    obtain ⟨hpos, hsize, hbuf⟩ := ih (put s c)
    have hput : (put s c).pos = s.pos + 1 := rfl
    have hkeep : (put s c).size = s.size := rfl
    rw [putAll_cons, hpos, hsize, List.length_cons]
    refine ⟨by omega, rfl, fun k => ?_⟩
    rw [hbuf, hput, hkeep, put_buffer]
    rcases Nat.lt_trichotomy k s.pos with hlt | heq | hgt
    · rw [if_neg (by omega), if_neg (by omega), if_neg (by omega)]
    · rw [if_neg (by omega), heq, Nat.sub_self]
      exact if_congr ⟨fun h => ⟨le_rfl, by omega, h.2⟩, fun h => ⟨rfl, h.2.2⟩⟩ rfl rfl
    · have hold : (if k = s.pos ∧ k < s.size - 1 then c else s.buf k) = s.buf k := if_neg fun h => hgt.ne' h.1
      have hnext : k - s.pos = k - (s.pos + 1) + 1 := by omega
      rw [hold, hnext, List.getD_cons_succ]
      exact if_congr (by omega) rfl rfl

/-! ## Matching arguments -/

inductive ArgKind where
  | int
  | long
  | pointer
  | string
deriving DecidableEq, Repr

def Arg.kind : Arg → ArgKind
  | .int _ => .int
  | .long _ => .long
  | .pointer _ => .pointer
  | .string _ => .string

def wants : List Byte → FmtState → Bool → List ArgKind
  | [], _, _ => []
  | c :: fmt, state, longFlag =>
    if c = 0 then []
    else
      match state with
      | .none => if c = chr '%' then wants fmt .spec false else wants fmt .none longFlag
      | .spec =>
        if c = chr '-' then wants fmt .spec longFlag
        else if chr '0' ≤ c ∧ c ≤ chr '9' then wants fmt .spec longFlag
        else if c = chr 'l' then wants fmt .spec true
        else if c = chr 'p' then .pointer :: wants fmt .none longFlag
        else if c = chr 'x' then (if longFlag then .long else .int) :: wants fmt .none longFlag
        else if c = chr 'u' then (if longFlag then .long else .int) :: wants fmt .none longFlag
        else if c = chr 'd' then (if longFlag then .long else .int) :: wants fmt .none longFlag
        else if c = chr 's' then .string :: wants fmt .none longFlag
        else if c = chr 'c' then .int :: wants fmt .none longFlag
        else wants fmt .none longFlag

def Matches (fmt : List Byte) (args : List Arg) : Prop := wants fmt .none false <+: args.map Arg.kind

end Zonix.Cons
