import Mathlib
import Zonix.Lib.Numeral
import Zonix.Cons.Format

/-!
# Numbers in formatted output

The digits of `put_int` are the numeral of the value and fit its buffer, so a format never fails on arguments that
match it. `specFormat` is a conversion `%[flags][width][l]d`, `u` or `x`, and `padded` the text it asks for.
-/

namespace Zonix.Cons

open Sink Numeral

theorem putDigits_eq {base : ℕ} (hb : 1 < base) {fuel num k : ℕ} {buf : List Byte} (hnum : num < base ^ k)
    (hbuf : buf.length + k ≤ numBufSize) (hfuel : k < fuel) :
    putDigits base fuel num buf = some (buf ++ (Nat.digits base num).map digitChar) := by
  induction fuel generalizing num k buf with
  | zero => omega
  | succ fuel ih =>
    rw [putDigits]
    by_cases hpos : 0 < num
    · obtain ⟨j, rfl⟩ : ∃ j, k = j + 1 := by
        cases k with
        | zero => rw [Nat.pow_zero] at hnum; omega
        | succ j => exact ⟨j, rfl⟩
      have hdiv : num / base < base ^ j := by
        rw [Nat.div_lt_iff_lt_mul (by omega), ← Nat.pow_succ]
        exact hnum
      have hlen : (buf ++ [digitChar (num % base)]).length + j ≤ numBufSize := by
        rw [List.length_append, List.length_singleton]
        omega
      rw [if_pos hpos, store, if_pos (by omega), Option.bind_some, ih hdiv hlen (by omega), Nat.digits_def' hb hpos,
        List.map_cons, List.append_assoc]
      rfl
    · rw [if_neg hpos, Nat.eq_zero_of_not_pos hpos, Nat.digits_zero, List.map_nil, List.append_nil]

/-- The bases of the conversions: the numerals of all 64-bit numbers fit the buffer. -/
def GoodBase (base : ℕ) : Prop := 1 < base ∧ 2 ^ 64 ≤ base ^ 20

theorem goodBase_ten : GoodBase 10 := by
  unfold GoodBase
  norm_num

theorem goodBase_sixteen : GoodBase 16 := by
  unfold GoodBase
  norm_num

theorem numBuf_eq {base num : ℕ} (hb : GoodBase base) (hnum : num < 2 ^ 64) :
    numBuf num base = some (numeral digitChar base num).reverse := by
  rw [numBuf, numeral]
  by_cases hzero : num = 0
  · rw [if_pos hzero, if_pos hzero]
    rfl
  · rw [if_neg hzero, if_neg hzero, List.reverse_reverse,
      putDigits_eq hb.1 (lt_of_lt_of_le hnum hb.2) (by decide) (by decide), List.nil_append]

theorem putInt_numeral {σ : Type} [Sink σ Byte] (sink : σ) {base num : ℕ} (hb : GoodBase base) (hnum : num < 2 ^ 64)
    (negative : Bool) (width : ℤ) (padChr : Byte) (leftAlign : Bool) :
    putInt sink num base negative width padChr leftAlign =
      some (putAll sink (intText (numeral digitChar base num) negative width padChr leftAlign)) := by
  rw [putInt_text, numBuf_eq hb hnum, Option.map_some, List.reverse_reverse]

theorem unsignedOf_eq {snum : ℤ} (hlow : -2 ^ 63 ≤ snum) (hhigh : snum < 2 ^ 63) :
    unsignedOf (decide (snum < 0)) snum = snum.natAbs := by
  rw [unsignedOf]
  by_cases hneg : snum < 0
  · have hmod : (-snum).bmod (2 ^ 64) % 2 ^ 64 = -snum % 2 ^ 64 := Int.bmod_emod
    rw [decide_eq_true hneg, if_pos rfl, hmod]
    omega
  · rw [decide_eq_false hneg, if_neg (by decide)]
    omega

/-! ## Formats do not fail on matching arguments -/

variable {args : List Arg} {f : Control} {fmt : List Byte}

theorem vaArg_kind {α : Type} {get : Arg → Option α} {k : ArgKind} (hget : ∀ a : Arg, a.kind = k → (get a).isSome)
    {ks : List ArgKind} (h : k :: ks <+: args.map Arg.kind) :
    ∃ v rest, vaArg get args = some (v, rest) ∧ ks <+: rest.map Arg.kind := by
  cases args with
  | nil => cases List.prefix_nil.1 h
  | cons a rest =>
    rw [List.map_cons, List.cons_prefix_cons] at h
    obtain ⟨v, hv⟩ := Option.isSome_iff_exists.1 (hget a h.1.symm)
    exact ⟨v, rest, by rw [vaArg, hv]; rfl, h.2⟩

theorem asInt_kind (a : Arg) (h : a.kind = .int) : a.asInt.isSome := by
  cases a <;> first | rfl | cases h

theorem asLong_kind (a : Arg) (h : a.kind = .long) : a.asLong.isSome := by
  cases a <;> first | rfl | cases h

theorem asPointer_kind (a : Arg) (h : a.kind = .pointer) : a.asPointer.isSome := by
  cases a <;> first | rfl | cases h

theorem asString_kind (a : Arg) (h : a.kind = .string) : a.asString.isSome := by
  cases a <;> first | rfl | cases h

theorem vaUnsigned_kind {longFlag : Bool} {ks : List ArgKind}
    (h : (if longFlag then .long else .int) :: ks <+: args.map Arg.kind) :
    ∃ num rest, vaUnsigned longFlag args = some (num, rest) ∧ num < 2 ^ 64 ∧ ks <+: rest.map Arg.kind := by
  cases longFlag with
  | false =>
    obtain ⟨v, rest, hv, hrest⟩ := vaArg_kind asInt_kind h
    exact ⟨v.toNat, rest, by rw [vaUnsigned, hv]; rfl, by have := v.isLt; omega, hrest⟩
  | true =>
    obtain ⟨v, rest, hv, hrest⟩ := vaArg_kind asLong_kind h
    exact ⟨v.toNat, rest, by rw [vaUnsigned, hv]; rfl, v.isLt, hrest⟩

theorem vaSigned_kind {longFlag : Bool} {ks : List ArgKind}
    (h : (if longFlag then .long else .int) :: ks <+: args.map Arg.kind) :
    ∃ snum rest, vaSigned longFlag args = some (snum, rest) ∧ (-2 ^ 63 ≤ snum ∧ snum < 2 ^ 63) ∧
      ks <+: rest.map Arg.kind := by
  cases longFlag with
  | false =>
    obtain ⟨v, rest, hv, hrest⟩ := vaArg_kind asInt_kind h
    have hlow := BitVec.le_toInt v
    have hhigh := BitVec.toInt_lt (x := v)
    exact ⟨v.toInt, rest, by rw [vaSigned, hv]; rfl, by omega, hrest⟩
  | true =>
    obtain ⟨v, rest, hv, hrest⟩ := vaArg_kind asLong_kind h
    exact ⟨v.toInt, rest, by rw [vaSigned, hv]; rfl, ⟨BitVec.le_toInt v, BitVec.toInt_lt⟩, hrest⟩

def Fed (fmt : List Byte) (f : Control) : Prop := wants fmt f.state f.longFlag <+: f.args.map Arg.kind

theorem stepSpec_fed {c : Byte} (hc : c ≠ 0) (hstate : f.state = .spec)
    (h : Fed (c :: fmt) f) : ∃ r, stepSpec c f ([] : List Byte) = some r ∧ Fed fmt r.1 := by
  rw [Fed, hstate, wants, if_neg hc] at h
  unfold stepSpec
  by_cases h1 : c = chr '-'
  · rw [if_pos h1] at h ⊢
    refine ⟨_, rfl, ?_⟩
    rw [Fed, hstate]
    exact h
  rw [if_neg h1] at h ⊢
  by_cases h2 : chr '0' ≤ c ∧ c ≤ chr '9'
  · rw [if_pos h2] at h ⊢
    by_cases hzero : c = chr '0' ∧ f.width = 0
    · refine ⟨_, if_pos hzero, ?_⟩
      rw [Fed, hstate]
      exact h
    · refine ⟨_, if_neg hzero, ?_⟩
      rw [Fed, hstate]
      exact h
  rw [if_neg h2] at h ⊢
  by_cases h3 : c = chr 'l'
  · rw [if_pos h3] at h ⊢
    refine ⟨_, rfl, ?_⟩
    rw [Fed, hstate]
    exact h
  rw [if_neg h3] at h ⊢
  by_cases h4 : c = chr 'p'
  · rw [if_pos h4] at h ⊢
    obtain ⟨v, rest, hv, hrest⟩ := vaArg_kind asPointer_kind h
    simp only [hv, Option.bind_some, putInt_numeral _ goodBase_sixteen v.isLt, Option.map_some]
    exact ⟨_, rfl, hrest⟩
  rw [if_neg h4] at h ⊢
  by_cases h5 : c = chr 'x'
  · rw [if_pos h5] at h ⊢
    obtain ⟨num, rest, hv, hnum, hrest⟩ := vaUnsigned_kind h
    simp only [hv, Option.bind_some, putInt_numeral _ goodBase_sixteen hnum, Option.map_some]
    exact ⟨_, rfl, hrest⟩
  rw [if_neg h5] at h ⊢
  by_cases h6 : c = chr 'u'
  · rw [if_pos h6] at h ⊢
    obtain ⟨num, rest, hv, hnum, hrest⟩ := vaUnsigned_kind h
    simp only [hv, Option.bind_some, putInt_numeral _ goodBase_ten hnum, Option.map_some]
    exact ⟨_, rfl, hrest⟩
  rw [if_neg h6] at h ⊢
  by_cases h7 : c = chr 'd'
  · rw [if_pos h7] at h ⊢
    obtain ⟨snum, rest, hv, ⟨hlow, hhigh⟩, hrest⟩ := vaSigned_kind h
    have hnum : snum.natAbs < 2 ^ 64 := by omega
    simp only [hv, Option.bind_some, unsignedOf_eq hlow hhigh, putInt_numeral _ goodBase_ten hnum, Option.map_some]
    exact ⟨_, rfl, hrest⟩
  rw [if_neg h7] at h ⊢
  by_cases h8 : c = chr 's'
  · rw [if_pos h8] at h ⊢
    obtain ⟨s, rest, hv, hrest⟩ := vaArg_kind asString_kind h
    rw [hv]
    exact ⟨_, rfl, hrest⟩
  rw [if_neg h8] at h ⊢
  by_cases h9 : c = chr 'c'
  · rw [if_pos h9] at h ⊢
    obtain ⟨v, rest, hv, hrest⟩ := vaArg_kind asInt_kind h
    rw [hv]
    exact ⟨_, rfl, hrest⟩
  rw [if_neg h9] at h ⊢
  by_cases h10 : c = chr '%'
  · exact ⟨_, if_pos h10, h⟩
  · exact ⟨_, if_neg h10, h⟩

theorem step_fed {c : Byte} (hc : c ≠ 0) (h : Fed (c :: fmt) f) :
    ∃ r, step c f ([] : List Byte) = some r ∧ Fed fmt r.1 := by
  unfold step
  cases hstate : f.state with
  | spec => exact stepSpec_fed hc hstate h
  | none =>
    rw [Fed, hstate, wants, if_neg hc] at h
    simp only at h ⊢
    by_cases hp : c = chr '%'
    · rw [if_pos hp] at h ⊢
      exact ⟨_, rfl, h⟩
    · rw [if_neg hp] at h ⊢
      refine ⟨_, rfl, ?_⟩
      rw [Fed, hstate]
      exact h

theorem formatLoop_fed (h : Fed fmt f) : ∃ r, formatLoop fmt f ([] : List Byte) = some r := by
  induction fmt generalizing f with
  | nil => exact ⟨_, rfl⟩
  | cons c fmt ih =>
    rw [formatLoop]
    by_cases hc : c = 0
    · exact ⟨_, if_pos hc⟩
    · obtain ⟨r, hr, hfed⟩ := step_fed hc h
      obtain ⟨q, hq⟩ := ih hfed
      rw [if_neg hc, hr, Option.bind_some, formatLoop_eq, hq]
      exact ⟨_, rfl⟩

theorem formatText_matches (h : Matches fmt args) :
    ∃ out, formatText fmt args = some out := by
  obtain ⟨r, hr⟩ : ∃ r, formatLoop fmt ⟨.none, 0, false, false, 0, args⟩ ([] : List Byte) = some r := formatLoop_fed h
  exact ⟨r.2, by rw [formatText, vformat, hr]; rfl⟩

/-! ## Conversions of integers -/

inductive Flag where
  | minus
  | zero
deriving DecidableEq, Repr

def Flag.byte : Flag → Byte
  | .minus => chr '-'
  | .zero => chr '0'

inductive IntConv where
  | d
  | u
  | x
deriving DecidableEq, Repr

def IntConv.byte : IntConv → Byte
  | .d => chr 'd'
  | .u => chr 'u'
  | .x => chr 'x'

def IntConv.base : IntConv → ℕ
  | .d => 10
  | .u => 10
  | .x => 16

/-- An argument of 32 bits, or of 64 bits with `l`. -/
inductive IntArg where
  | int (v : BitVec 32)
  | long (v : BitVec 64)
deriving DecidableEq, Repr

def IntArg.arg : IntArg → Arg
  | .int v => .int v
  | .long v => .long v

def IntArg.isLong : IntArg → Bool
  | .int _ => false
  | .long _ => true

/-- The number that a conversion prints. -/
def IntArg.value (a : IntArg) (conv : IntConv) : ℤ :=
  match conv, a with
  | .d, .int v => v.toInt
  | .d, .long v => v.toInt
  | _, .int v => v.toNat
  | _, .long v => v.toNat

def widthText (width : ℕ) : List Byte := ((Nat.digits 10 width).map digitChar).reverse

def specFormat (flags : List Flag) (width : ℕ) (longFlag : Bool) (conv : IntConv) : List Byte :=
  chr '%' :: (flags.map Flag.byte ++ widthText width ++ (if longFlag then [chr 'l'] else []) ++ [conv.byte])

def signText (value : ℤ) : List Byte := if value < 0 then [chr '-'] else []

/-- At least `width` bytes: spaces after the number, zeros after its sign, or spaces before it. -/
def padded (flags : List Flag) (width : ℕ) (sign digits : List Byte) : List Byte :=
  let pad := width - (sign ++ digits).length
  if .minus ∈ flags then sign ++ digits ++ List.replicate pad (chr ' ')
  else if .zero ∈ flags then sign ++ List.replicate pad (chr '0') ++ digits
  else List.replicate pad (chr ' ') ++ sign ++ digits

/-- The text is the value in the base, padded as the flags and the width ask for. -/
def Rendered (flags : List Flag) (width base : ℕ) (value : ℤ) (text : List Byte) : Prop :=
  ∃ digits, Represents digitChar base digits value.natAbs ∧ text = padded flags width (signText value) digits

theorem intText_padded (flags : List Flag) (width : ℕ) (value : ℤ) (digits : List Byte) :
    intText digits (decide (value < 0)) width (if .zero ∈ flags then chr '0' else chr ' ') (decide (.minus ∈ flags)) =
      padded flags width (signText value) digits := by
  have hpad : (if (width : ℤ) > digits.length + (if decide (value < 0) then 1 else 0) then
      (width : ℤ) - (digits.length + if decide (value < 0) then 1 else 0) else 0).toNat =
      width - (signText value ++ digits).length := by
    rw [List.length_append, signText]
    by_cases hneg : value < 0
    · simp only [hneg, decide_true, if_true, List.length_singleton]
      split <;> omega
    · simp only [hneg, decide_false, if_false, Bool.false_eq_true, List.length_nil]
      split <;> omega
  have hsign : (if decide (value < 0) = true then [chr '-'] else []) = signText value := by
    rw [signText]
    exact if_congr decide_eq_true_iff rfl rfl
  have hne : chr '0' ≠ chr ' ' := by decide
  simp only [intText, hpad, hsign, padded]
  by_cases hminus : Flag.minus ∈ flags
  · simp only [hminus, decide_true, Bool.true_eq_false, false_and, if_false, if_true, List.nil_append, List.append_nil]
  · by_cases hzero : Flag.zero ∈ flags
    · simp only [hminus, hzero, decide_false, if_true, if_false, true_and, hne, Bool.false_eq_true, List.nil_append,
        List.append_nil]
    · simp only [hminus, hzero, decide_false, if_true, if_false, true_and, Ne.symm hne, Bool.false_eq_true,
        List.append_nil]

/-! ## How the format machine reads a conversion -/

variable {σ : Type} [Sink σ Byte]

theorem formatLoop_spec {c : Byte} {g : Control} {sink s : σ} (hc : c ≠ 0) (hs : f.state = .spec)
    (h : stepSpec c f sink = some (g, s)) (fmt : List Byte) : formatLoop (c :: fmt) f sink = formatLoop fmt g s := by
  have hstep : step c f sink = stepSpec c f sink := by
    rw [step]
    simp only [hs]
  rw [formatLoop, if_neg hc, hstep, h]
  rfl

theorem stepSpec_minus (f : Control) (sink : σ) :
    stepSpec (chr '-') f sink = some ({ f with leftAlign := true }, sink) := if_pos rfl

theorem stepSpec_zero (hw : f.width = 0) (sink : σ) :
    stepSpec (chr '0') f sink = some ({ f with padChr := chr '0' }, sink) := by
  unfold stepSpec
  rw [if_neg (by decide), if_pos (by decide), if_pos ⟨rfl, hw⟩]

theorem stepSpec_long (f : Control) (sink : σ) :
    stepSpec (chr 'l') f sink = some ({ f with longFlag := true }, sink) := by
  unfold stepSpec
  rw [if_neg (by decide), if_neg (by decide), if_pos rfl]

theorem digitChar_spec {d : ℕ} (hd : d < 10) :
    digitChar d ≠ 0 ∧ digitChar d ≠ chr '-' ∧ (chr '0' ≤ digitChar d ∧ digitChar d ≤ chr '9') ∧
      (digitChar d = chr '0' ↔ d = 0) ∧ (digitChar d).toNat - (chr '0').toNat = (d : ℤ) := by
  interval_cases d <;> decide

theorem toInt32_nat {n : ℕ} (h : n < 2 ^ 31) : toInt32 n = n := by
  rw [toInt32]
  exact Int.bmod_eq_of_le (by omega) (by omega)

theorem stepSpec_digit {d w : ℕ} (hd : d < 10) (hw : f.width = w) (hpos : 0 < w ∨ 0 < d)
    (hfit : w * 10 + d < 2 ^ 31) (sink : σ) :
    stepSpec (digitChar d) f sink = some ({ f with width := (w * 10 + d : ℕ) }, sink) := by
  obtain ⟨-, hminus, hrange, hzero, hval⟩ := digitChar_spec hd
  have hnot : ¬(digitChar d = chr '0' ∧ f.width = 0) := by
    rintro ⟨h0, hw0⟩
    have := hzero.1 h0
    omega
  have hwidth : toInt32 (f.width * 10 + ((digitChar d).toNat - (chr '0').toNat)) = (w * 10 + d : ℕ) := by
    rw [hval, hw, ← toInt32_nat hfit]
    push_cast
    rfl
  unfold stepSpec
  rw [if_neg hminus, if_pos hrange, if_neg hnot, hwidth]

def readFlags (f : Control) (flags : List Flag) : Control :=
  { f with
    leftAlign := f.leftAlign || decide (.minus ∈ flags)
    padChr := if .zero ∈ flags then chr '0' else f.padChr }

theorem formatLoop_flags (hs : f.state = .spec) (hw : f.width = 0) (flags : List Flag) (fmt : List Byte)
    (sink : σ) : formatLoop (flags.map Flag.byte ++ fmt) f sink = formatLoop fmt (readFlags f flags) sink := by
  induction flags generalizing f with
  | nil => 
    rw [readFlags]
    simp
  | cons flag flags ih =>
    rw [List.map_cons, List.cons_append]
    cases flag with
    | minus =>
      rw [Flag.byte, formatLoop_spec (by decide) hs (stepSpec_minus f sink)]
      refine (ih (f := { f with leftAlign := true }) hs hw).trans ?_
      simp [readFlags]
    | zero =>
      rw [Flag.byte, formatLoop_spec (by decide) hs (stepSpec_zero hw sink)]
      refine (ih (f := { f with padChr := chr '0' }) hs hw).trans ?_
      simp [readFlags]

theorem formatLoop_digits (hs : f.state = .spec) {ds : List ℕ} {w : ℕ} (hds : ∀ d ∈ ds, d < 10)
    (hw : f.width = w) (hpos : 0 < w ∨ ds.head? ≠ some 0) (hfit : horner 10 w ds < 2 ^ 31) (fmt : List Byte)
    (sink : σ) :
    formatLoop (ds.map digitChar ++ fmt) f sink = formatLoop fmt { f with width := (horner 10 w ds : ℕ) } sink := by
  induction ds generalizing f w with
  | nil =>
    rw [horner, List.foldl_nil, ← hw]
    rfl
  | cons d ds ih =>
    obtain ⟨hd, hrest⟩ := List.forall_mem_cons.1 hds
    have hdpos : 0 < w ∨ 0 < d := hpos.imp id fun h => Nat.pos_of_ne_zero fun h0 => h (by rw [h0]; rfl)
    have hle : w * 10 + d ≤ horner 10 w (d :: ds) := le_horner (by decide) (w * 10 + d) ds
    rw [List.map_cons, List.cons_append,
      formatLoop_spec (digitChar_spec hd).1 hs (stepSpec_digit hd hw hdpos (by omega) sink)]
    exact ih (f := { f with width := (w * 10 + d : ℕ) }) (w := w * 10 + d) hs hrest rfl (Or.inl (by omega)) hfit

theorem formatLoop_width (hs : f.state = .spec) (hw : f.width = 0) {width : ℕ} (hfit : width < 2 ^ 31)
    (fmt : List Byte) (sink : σ) :
    formatLoop (widthText width ++ fmt) f sink = formatLoop fmt { f with width := width } sink := by
  have hread : horner 10 0 (Nat.digits 10 width).reverse = width := horner_reverse_digits 10 width
  have hhead : (Nat.digits 10 width).reverse.head? ≠ some 0 := by
    rw [List.head?_reverse]
    intro h
    have hne : Nat.digits 10 width ≠ [] := fun hnil => by rw [hnil] at h; cases h
    rw [List.getLast?_eq_some_getLast hne] at h
    exact Nat.getLast_digit_ne_zero 10 (Nat.digits_ne_nil_iff_ne_zero.1 hne) (Option.some.inj h)
  have hds : ∀ d ∈ (Nat.digits 10 width).reverse, d < 10 := fun d hd =>
    Nat.digits_lt_base (by decide) (List.mem_reverse.1 hd)
  rw [widthText, ← List.map_reverse, formatLoop_digits hs hds hw (Or.inr hhead) (by rw [hread]; exact hfit), hread]

theorem formatLoop_long (hs : f.state = .spec) (hl : f.longFlag = false) (longFlag : Bool)
    (fmt : List Byte) (sink : σ) :
    formatLoop ((if longFlag then [chr 'l'] else []) ++ fmt) f sink =
      formatLoop fmt { f with longFlag := longFlag } sink := by
  cases longFlag with
  | true => exact formatLoop_spec (by decide) hs (stepSpec_long f sink) fmt
  | false =>
    show formatLoop fmt f sink = _
    rw [← hl]

/-! ## The text of a conversion -/

theorem stepSpec_int {a : IntArg} (conv : IntConv) (hargs : f.args = a.arg :: args)
    (hl : f.longFlag = a.isLong) (sink : σ) :
    stepSpec conv.byte f sink =
      some (f.convert args, putAll sink (intText (numeral digitChar conv.base (a.value conv).natAbs)
        (decide (a.value conv < 0)) f.width f.padChr f.leftAlign)) := by
  have hunsigned : vaUnsigned f.longFlag f.args = some ((a.value .u).natAbs, args) := by
    rw [hl, hargs]
    cases a <;> rfl
  have hsigned : vaSigned f.longFlag f.args = some (a.value .d, args) := by
    rw [hl, hargs]
    cases a <;> rfl
  have hnonneg : decide (a.value .u < 0) = false := by
    cases a <;> exact decide_eq_false (Int.not_lt.2 (Int.natCast_nonneg _))
  have hnum : (a.value .u).natAbs < 2 ^ 64 := by
    cases a with
    | int v => exact lt_trans v.isLt (by norm_num)
    | long v => exact v.isLt
  have hbounds : -2 ^ 63 ≤ a.value .d ∧ a.value .d < 2 ^ 63 := by
    cases a with
    | int v =>
      have hlow := BitVec.le_toInt v
      have hhigh := BitVec.toInt_lt (x := v)
      exact ⟨le_trans (by norm_num) hlow, lt_trans hhigh (by norm_num)⟩
    | long v => exact ⟨BitVec.le_toInt v, BitVec.toInt_lt⟩
  have hx : a.value .x = a.value .u := by cases a <;> rfl
  unfold stepSpec
  cases conv with
  | d =>
    have habs : (a.value .d).natAbs < 2 ^ 64 := by omega
    rw [IntConv.byte, if_neg (by decide), if_neg (by decide), if_neg (by decide), if_neg (by decide),
      if_neg (by decide), if_neg (by decide), if_pos rfl, hsigned]
    simp only [Option.bind_some, unsignedOf_eq hbounds.1 hbounds.2, putInt_numeral _ goodBase_ten habs, Option.map_some]
    rfl
  | u =>
    rw [IntConv.byte, if_neg (by decide), if_neg (by decide), if_neg (by decide), if_neg (by decide),
      if_neg (by decide), if_pos rfl, hunsigned, hnonneg]
    simp only [Option.bind_some, putInt_numeral _ goodBase_ten hnum, Option.map_some]
    rfl
  | x =>
    rw [IntConv.byte, if_neg (by decide), if_neg (by decide), if_neg (by decide), if_neg (by decide), if_pos rfl,
      hunsigned, hx, hnonneg]
    simp only [Option.bind_some, putInt_numeral _ goodBase_sixteen hnum, Option.map_some]
    rfl

theorem formatLoop_conv (hs : f.state = .none) (flags : List Flag) {width : ℕ} (hw : width < 2 ^ 31)
    (conv : IntConv) (a : IntArg) (hargs : f.args = a.arg :: args) (fmt : List Byte) (sink : σ) :
    ∃ g : Control, g.state = .none ∧ g.args = args ∧
      formatLoop (specFormat flags width a.isLong conv ++ fmt) f sink =
        formatLoop fmt g (putAll sink
          (padded flags width (signText (a.value conv)) (numeral digitChar conv.base (a.value conv).natAbs))) := by
  let start : Control :=
    { f with state := .spec, width := 0, longFlag := false, leftAlign := false, padChr := chr ' ' }
  have hstart : formatLoop (specFormat flags width a.isLong conv ++ fmt) f sink =
      formatLoop (flags.map Flag.byte ++ (widthText width ++ ((if a.isLong then [chr 'l'] else []) ++
        (conv.byte :: fmt)))) start sink := by
    have hstep : step (chr '%') f sink = some (start, sink) := by
      rw [step]
      simp only [hs]
      exact if_pos trivial
    rw [specFormat, List.cons_append, formatLoop, if_neg (by decide), hstep]
    simp only [List.append_assoc, List.singleton_append]
    rfl
  let g : Control := { readFlags start flags with width := width, longFlag := a.isLong }
  have hnonzero : conv.byte ≠ 0 := by cases conv <;> decide
  have hconv := stepSpec_int (f := g) conv hargs rfl sink
  refine ⟨g.convert args, rfl, rfl, ?_⟩
  rw [hstart, formatLoop_flags rfl rfl, formatLoop_width rfl rfl hw, formatLoop_long rfl rfl,
    formatLoop_spec hnonzero rfl hconv, ← intText_padded]
  rfl

/-! ## `cprintf` and `vsnprintf` -/

/-- What `vsnprintf` leaves in a buffer of `size` bytes for a text, the rest of memory being `buf`. -/
structure Stored (buf : ℕ → Byte) (size : ℕ) (out : List Byte) (after : ℕ → Byte) : Prop where
  text : ∀ k, k < min out.length (size - 1) → after k = out.getD k 0
  terminated : 0 < size → after (min out.length (size - 1)) = 0
  untouched : ∀ k, size ≤ k ∨ min out.length (size - 1) < k → after k = buf k

theorem vsnprintf_stored (buf : ℕ → Byte) (size : ℕ) {out : List Byte}
    (h : formatText fmt args = some out) :
    ∃ after, vsnprintf buf size fmt args = some (after, toInt32 out.length) ∧ Stored buf size out after := by
  obtain ⟨hpos, -, hbuf⟩ := putAll_buffer ⟨buf, 0, size⟩ out
  simp only [Nat.zero_add, Nat.zero_le, true_and, Nat.sub_zero] at hpos hbuf
  refine ⟨_, by rw [vsnprintf, vformat_eq, h, Option.map_some, Option.map_some, hpos], ?_⟩
  by_cases hsize : size = 0
  · rw [if_neg (not_not.2 hsize)]
    refine ⟨fun k hk => by omega, fun hk => by omega, fun k _ => ?_⟩
    rw [hbuf, if_neg (by omega)]
  · have hend : (if out.length < size then out.length else size - 1) = min out.length (size - 1) := by
      split <;> omega
    rw [if_pos hsize, hend]
    refine ⟨fun k hk => ?_, fun _ => Function.update_self _ _ _, fun k hk => ?_⟩
    · rw [Function.update_of_ne (by omega), hbuf, if_pos (by omega)]
    · rw [Function.update_of_ne (by omega), hbuf, if_neg (by omega)]

theorem cprintf_eq {out : List Byte} (h : formatText fmt args = some out) :
    cprintf fmt args = some (out, toInt32 out.length) := by
  rw [cprintf, vformat_eq, h, Option.map_some, putAll_console, List.nil_append, Nat.zero_add]
  rfl

/-- `cprintf("%8ld|%-5x|", INT64_MIN, 255)`, and `vsnprintf` of it into ten bytes. -/
def minFormat : List Byte := specFormat [] 8 true .d ++ [chr '|'] ++ specFormat [.minus] 5 false .x ++ [chr '|']

def minArgs : List Arg := [.long (BitVec.intMin 64), .int 255]

example : (cprintf minFormat minArgs).map Prod.fst = some ("-9223372036854775808|FF   |".toList.map chr) := by decide

end Zonix.Cons
