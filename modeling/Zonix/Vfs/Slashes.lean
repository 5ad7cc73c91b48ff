import Mathlib.Data.List.Destutter
import Mathlib.Data.List.DropRight
import Zonix.Vfs.MountTable
import Zonix.Fat.Dir

/-! # Repeated slashes in paths

`resolve_path` of `kernel/fs/vfs.cpp` skips runs of slashes behind the mount point, and `next_part` of
`kernel/fs/fat/fat_dir.cpp` those behind a component.  The mount point itself is compared before anything is
skipped. -/

namespace Zonix.Vfs

section Squeeze

variable {α : Type} [DecidableEq α] {sep a : α} {l w : List α}

/-- Every run of `sep` becomes a single one. -/
def squeeze (sep : α) (l : List α) : List α := l.destutter fun a b => ¬(a = sep ∧ b = sep)

theorem squeeze_cons (ha : a ≠ sep) : squeeze sep (a :: l) = a :: squeeze sep l := by
  cases l with
  | nil => rfl
  | cons b l =>
    rw [squeeze, squeeze, List.destutter_cons', List.destutter_cons', List.destutter'_cons_pos]
    exact fun h => ha h.1

theorem squeeze_sep : squeeze sep (sep :: l) = sep :: squeeze sep (l.dropWhile (· = sep)) := by
  induction l with
  | nil => rfl
  | cons b l ih =>
    by_cases hb : b = sep
    · have hskip : squeeze sep (sep :: b :: l) = squeeze sep (sep :: l) := by
        rw [squeeze, squeeze, List.destutter_cons', List.destutter_cons', List.destutter'_cons_neg]
        exact fun h => h ⟨rfl, hb⟩
      rw [hskip, ih, List.dropWhile_cons_of_pos (by simpa using hb)]
    · have hkeep : squeeze sep (sep :: b :: l) = sep :: squeeze sep (b :: l) := by
        rw [squeeze, squeeze, List.destutter_cons', List.destutter_cons', List.destutter'_cons_pos]
        exact fun h => hb h.2
      rw [hkeep, List.dropWhile_cons_of_neg (by simpa using hb)]

theorem dropWhile_squeeze : (squeeze sep l).dropWhile (· = sep) = squeeze sep (l.dropWhile (· = sep)) := by
  cases l with
  | nil => rfl
  | cons b l =>
    by_cases hb : b = sep
    · rw [hb, squeeze_sep, List.dropWhile_cons_of_pos (by simp), List.dropWhile_cons_of_pos (by simp)]
      cases hrest : l.dropWhile (· = sep) with
      | nil => rfl
      | cons c rest =>
        have hc : c ≠ sep := by
          have := List.head_dropWhile_not (fun x => decide (x = sep)) (l := l) (by rw [hrest]; exact List.cons_ne_nil _ _)
          simpa [hrest] using this
        rw [squeeze_cons hc, List.dropWhile_cons_of_neg (by simpa using hc)]
    · rw [squeeze_cons hb, List.dropWhile_cons_of_neg (by simpa using hb),
        List.dropWhile_cons_of_neg (by simpa using hb), squeeze_cons hb]

theorem squeeze_append (hw : sep ∉ w) : squeeze sep (w ++ l) = w ++ squeeze sep l := by
  induction w with
  | nil => rfl
  | cons a w ih =>
    rw [List.mem_cons, not_or] at hw
    rw [List.cons_append, squeeze_cons (Ne.symm hw.1), ih hw.2, List.cons_append]

theorem eq_of_squeeze_append (hw : sep ∉ w) {r : List α} (h : squeeze sep l = w ++ r) :
    ∃ r', l = w ++ r' ∧ squeeze sep r' = r := by
  induction w generalizing l with
  | nil => exact ⟨l, rfl, h⟩
  | cons a w ih =>
    rw [List.mem_cons, not_or] at hw
    cases l with
    | nil => cases h
    | cons b l =>
      by_cases hb : b = sep
      · rw [hb, squeeze_sep] at h
        exact absurd (List.cons.inj h).1 hw.1
      · rw [squeeze_cons hb] at h
        obtain ⟨hab, h⟩ := List.cons.inj h
        obtain ⟨r', rfl, hr'⟩ := ih hw.2 h
        exact ⟨r', by rw [hab]; rfl, hr'⟩

theorem squeeze_eq_iff (hw : sep ∉ w) : squeeze sep l = w ↔ l = w := by
  constructor
  · intro h
    obtain ⟨r', rfl, hr'⟩ := eq_of_squeeze_append hw (h.trans (List.append_nil w).symm)
    rw [squeeze, List.destutter_eq_nil] at hr'
    rw [hr', List.append_nil]
  · rintro rfl
    have := squeeze_append (l := []) hw
    simpa [squeeze] using this

theorem squeeze_isPrefix (hw : sep ∉ w) : (w ++ [sep]).isPrefixOf (squeeze sep l) = (w ++ [sep]).isPrefixOf l := by
  rw [Bool.eq_iff_iff, List.isPrefixOf_iff_prefix, List.isPrefixOf_iff_prefix]
  constructor
  · rintro ⟨r, hr⟩
    rw [List.append_assoc] at hr
    obtain ⟨r', rfl, hr'⟩ := eq_of_squeeze_append hw hr.symm
    cases r' with
    | nil => cases hr'
    | cons b r' =>
      by_cases hb : b = sep
      · exact ⟨r', by rw [hb, List.append_assoc]; rfl⟩
      · rw [squeeze_cons hb] at hr'
        exact absurd (List.cons.inj hr').1 hb
  · rintro ⟨r, rfl⟩
    rw [List.append_assoc, squeeze_append hw]
    refine ⟨squeeze sep (r.dropWhile (· = sep)), ?_⟩
    rw [List.append_assoc, List.singleton_append, List.singleton_append, squeeze_sep]

theorem map_squeeze {β : Type} [DecidableEq β] {code : α → β} {sep' : β} (hcode : ∀ c, code c = sep' ↔ c = sep) :
    (squeeze sep l).map code = squeeze sep' (l.map code) := by
  apply List.map_destutter
  intro a _ b _
  rw [hcode, hcode]

end Squeeze

/-! ## Mount points -/

def Below (w r : CString) : Prop := r = w ∨ (w ++ ['/']).isPrefixOf r = true

instance (w r : CString) : Decidable (Below w r) := inferInstanceAs (Decidable (_ ∨ _))

theorem below_squeeze {w r : CString} (hw : '/' ∉ w) : Below w (squeeze '/' r) ↔ Below w r := by
  rw [Below, Below, squeeze_eq_iff hw, squeeze_isPrefix hw]

def devName : CString := "dev".toList
def mntName : CString := "mnt".toList

theorem slash_notMem_names : '/' ∉ devName ∧ '/' ∉ mntName := by decide

theorem resolvePath_single (r : CString) :
    resolvePath ('/' :: r) =
      if Below devName r then (.dev, skipSlashes (r.drop 4))
      else if Below mntName r then (.mnt, skipSlashes (r.drop 4))
      else (.root, skipSlashes r) := by
  have hname : ∀ w : CString, ('/' :: r = '/' :: w ↔ r = w) ∧
      ('/' :: w ++ ['/']).isPrefixOf ('/' :: r) = (w ++ ['/']).isPrefixOf r := by
    intro w
    exact ⟨List.cons_inj_right _, by simp⟩
  have hdev := hname devName
  have hmnt := hname mntName
  rw [resolvePath]
  rw [show "/dev".toList = '/' :: devName from rfl, show "/dev/".toList = '/' :: devName ++ ['/'] from rfl,
    show "/mnt".toList = '/' :: mntName from rfl, show "/mnt/".toList = '/' :: mntName ++ ['/'] from rfl]
  simp only [hdev.1, hdev.2, hmnt.1, hmnt.2, Below, List.head?_cons, if_true, List.drop_succ_cons, List.drop_zero]
  by_cases h1 : r = devName
  · subst h1
    rfl
  · by_cases h2 : r = mntName
    · subst h2
      rfl
    · simp only [h1, h2, if_false, false_or]

theorem skipSlashes_idem (s : CString) : skipSlashes (skipSlashes s) = skipSlashes s := List.dropWhile_idempotent _ s

theorem skipSlashes_squeeze (s : CString) : skipSlashes (squeeze '/' s) = squeeze '/' (skipSlashes s) := dropWhile_squeeze

theorem not_below_slash {w : CString} (hw : '/' ∉ w) (hne : w ≠ []) (s : CString) : ¬Below w ('/' :: s) := by
  obtain ⟨c, w, rfl⟩ := List.exists_cons_of_ne_nil hne
  have hc : '/' ≠ c := fun h => hw (h ▸ List.mem_cons_self)
  rintro (h | h)
  · exact hc (List.cons.inj h).1
  · rw [List.cons_append, List.isPrefixOf_iff_prefix, List.cons_prefix_cons] at h
    exact hc h.1.symm

theorem resolvePath_double (s : CString) : resolvePath ('/' :: '/' :: s) = (.root, skipSlashes s) := by
  rw [resolvePath_single, if_neg (not_below_slash slash_notMem_names.1 (by decide) s),
    if_neg (not_below_slash slash_notMem_names.2 (by decide) s)]
  rfl

theorem skipSlashes_drop_squeeze {w r : CString} (hw : '/' ∉ w) (hlen : w.length = 3) (h : Below w r) :
    skipSlashes ((squeeze '/' r).drop 4) = squeeze '/' (skipSlashes (r.drop 4)) := by
  obtain rfl | h := h
  · rw [(squeeze_eq_iff hw).2 rfl, List.drop_eq_nil_of_le (by omega)]
    rfl
  · rw [List.isPrefixOf_iff_prefix] at h
    obtain ⟨t, rfl⟩ := h
    have hdrop : ∀ t : CString, (w ++ '/' :: t).drop 4 = t := by
      intro t
      rw [List.drop_append, List.drop_eq_nil_of_le (by omega), hlen]
      rfl
    rw [List.append_assoc, List.singleton_append, squeeze_append hw, squeeze_sep, hdrop, hdrop, skipSlashes_squeeze]
    exact congrArg (squeeze '/') (skipSlashes_idem t)

/-- A path with more than one slash in front of the name of a mount point. -/
def DoubledMount (p : CString) : Prop :=
  ['/', '/'].isPrefixOf p = true ∧ (Below devName (skipSlashes p) ∨ Below mntName (skipSlashes p))

theorem resolvePath_squeeze (r : CString) :
    resolvePath (squeeze '/' ('/' :: r)) =
      if Below devName (skipSlashes r) then (.dev, squeeze '/' (skipSlashes ((skipSlashes r).drop 4)))
      else if Below mntName (skipSlashes r) then (.mnt, squeeze '/' (skipSlashes ((skipSlashes r).drop 4)))
      else (.root, squeeze '/' (skipSlashes r)) := by
  obtain ⟨hdev, hmnt⟩ := slash_notMem_names
  rw [squeeze_sep, ← skipSlashes, resolvePath_single]
  simp only [below_squeeze hdev, below_squeeze hmnt]
  split
  · rename_i h
    rw [skipSlashes_drop_squeeze hdev rfl h]
  · split
    · rename_i h
      rw [skipSlashes_drop_squeeze hmnt rfl h]
    · rw [skipSlashes_squeeze, skipSlashes_idem]

theorem resolvePath_squeeze_iff (r : CString) :
    ((resolvePath (squeeze '/' ('/' :: r))).1 = (resolvePath ('/' :: r)).1 ↔ ¬DoubledMount ('/' :: r)) ∧
      (¬DoubledMount ('/' :: r) →
        (resolvePath (squeeze '/' ('/' :: r))).2 = squeeze '/' (resolvePath ('/' :: r)).2) := by
  have hskip : skipSlashes ('/' :: r) = skipSlashes r := rfl
  rw [resolvePath_squeeze]
  by_cases hr : r.head? = some '/'
  · obtain ⟨s, rfl⟩ : ∃ s, r = '/' :: s := by
      cases r with
      | nil => cases hr
      | cons c s =>
        cases hr
        exact ⟨s, rfl⟩
    have hd : DoubledMount ('/' :: '/' :: s) ↔
        Below devName (skipSlashes ('/' :: s)) ∨ Below mntName (skipSlashes ('/' :: s)) :=
      ⟨fun h => h.2, fun h => ⟨rfl, h⟩⟩
    have hback : skipSlashes s = skipSlashes ('/' :: s) := rfl
    rw [resolvePath_double, hd, hback]
    by_cases h1 : Below devName (skipSlashes ('/' :: s))
    · simp [h1]
    · by_cases h2 : Below mntName (skipSlashes ('/' :: s))
      · simp [h1, h2]
      · simp [h1, h2]
  · have hsame : skipSlashes r = r := by
      cases r with
      | nil => rfl
      | cons c s => exact List.dropWhile_cons_of_neg (by simpa using hr)
    have hd : ¬DoubledMount ('/' :: r) := by
      rintro ⟨h, -⟩
      cases r with
      | nil => cases h
      | cons c s =>
        rw [List.isPrefixOf_iff_prefix, List.cons_prefix_cons, List.cons_prefix_cons] at h
        exact hr (by rw [h.2.1]; rfl)
    rw [resolvePath_single, hsame]
    by_cases h1 : Below devName r
    · simp [h1, hd]
    · by_cases h2 : Below mntName r
      · simp [h1, h2, hd]
      · simp [h1, h2, hd]

/-! ## Components -/

open Zonix.Fat (nextPart splitParts parsePath slash)

theorem exists_component (path : List Fat.Byte) :
    ∃ w r, path = w ++ r ∧ slash ∉ w ∧ (r = [] ∨ ∃ t, r = slash :: t) := by
  induction path with
  | nil => exact ⟨[], [], rfl, List.not_mem_nil, Or.inl rfl⟩
  | cons ch path ih =>
    by_cases hch : ch = slash
    · exact ⟨[], ch :: path, rfl, List.not_mem_nil, Or.inr ⟨path, by rw [hch]⟩⟩
    · obtain ⟨w, r, rfl, hw, hr⟩ := ih
      refine ⟨ch :: w, r, rfl, ?_, hr⟩
      rw [List.mem_cons, not_or]
      exact ⟨Ne.symm hch, hw⟩

theorem nextPart_component {w r : List Fat.Byte} (hw : slash ∉ w) (hr : r = [] ∨ ∃ t, r = slash :: t) :
    nextPart (w ++ r) = if w.length + 1 ≤ Fat.maxPartLen then
      some (w.map Fat.toUpper, r.dropWhile (· = slash)) else none := by
  have hall : ∀ b ∈ w, (b != slash) = true := fun b hb => bne_iff_ne.2 fun h => hw (h ▸ hb)
  have hstop : r.takeWhile (· != slash) = [] ∧ r.dropWhile (· != slash) = r := by
    obtain rfl | ⟨t, rfl⟩ := hr
    · exact ⟨rfl, rfl⟩
    · exact ⟨rfl, rfl⟩
  have hbeq : (fun b : Fat.Byte => b == slash) = fun b => decide (b = slash) := funext fun b => beq_eq_decide ..
  simp only [nextPart]
  rw [List.takeWhile_append_of_pos hall, List.dropWhile_append_of_pos hall, hstop.1, hstop.2, List.append_nil, hbeq]

theorem splitParts_squeeze (fuel fuel' : ℕ) (path : List Fat.Byte) (parts : List (List Fat.Byte))
    (hskip : path.dropWhile (· = slash) = path) (hfuel : path.length ≤ fuel)
    (hfuel' : (squeeze slash path).length ≤ fuel') :
    splitParts fuel' (squeeze slash path) parts = splitParts fuel path parts := by
  induction fuel generalizing fuel' path parts with
  | zero =>
    obtain rfl := List.length_eq_zero_iff.1 (Nat.le_zero.1 hfuel)
    cases fuel' <;> rfl
  | succ fuel ih =>
    cases path with
    | nil => cases fuel' <;> rfl
    | cons ch path =>
      have hch : ch ≠ slash := by
        intro h
        have hlen := congrArg List.length hskip
        rw [List.dropWhile_cons_of_pos (by simpa using h)] at hlen
        have := (List.dropWhile_sublist (fun b => decide (b = slash)) (l := path)).length_le
        rw [List.length_cons] at hlen
        omega
      obtain ⟨w, r, rfl, hw, hr⟩ := exists_component path
      have hw' : slash ∉ ch :: w := by
        rw [List.mem_cons, not_or]
        exact ⟨Ne.symm hch, hw⟩
      have hsq : squeeze slash (ch :: (w ++ r)) = ch :: (w ++ squeeze slash r) := by
        rw [squeeze_cons hch, squeeze_append hw]
      have hr' : squeeze slash r = [] ∨ ∃ t, squeeze slash r = slash :: t := by
        obtain rfl | ⟨t, rfl⟩ := hr
        · exact Or.inl rfl
        · exact Or.inr ⟨_, squeeze_sep⟩
      rw [hsq] at hfuel' ⊢
      obtain ⟨fuel', rfl⟩ : ∃ n, fuel' = n + 1 := ⟨fuel' - 1, by rw [List.length_cons] at hfuel'; omega⟩
      have hlen : (r.dropWhile (· = slash)).length ≤ fuel := by
        have := (List.dropWhile_sublist (fun b => decide (b = slash)) (l := r)).length_le
        rw [List.length_cons, List.length_append] at hfuel
        omega
      have hlen' : (squeeze slash (r.dropWhile (· = slash))).length ≤ fuel' := by
        rw [← dropWhile_squeeze]
        have := (List.dropWhile_sublist (fun b => decide (b = slash)) (l := squeeze slash r)).length_le
        rw [List.length_cons, List.length_append] at hfuel'
        omega
      have hnext := nextPart_component hw' hr
      have hnext' := nextPart_component hw' hr'
      rw [List.cons_append] at hnext hnext'
      rw [dropWhile_squeeze] at hnext'
      rw [splitParts, splitParts, hnext, hnext']
      have hgo := fun parts => ih fuel' (r.dropWhile (· = slash)) parts (List.dropWhile_idempotent _ r) hlen hlen'
      by_cases hw13 : (ch :: w).length + 1 ≤ Fat.maxPartLen
      · simp only [hw13, if_true, hgo]
      · simp only [hw13, if_false]

theorem parsePath_squeeze (path : List Fat.Byte) : parsePath (squeeze slash path) = parsePath path := by
  have hbeq : (fun b : Fat.Byte => b == slash) = fun b => decide (b = slash) := funext fun b => beq_eq_decide ..
  have hnil : squeeze slash (path.dropWhile (· = slash)) = [] ↔ path.dropWhile (· = slash) = [] := by
    rw [squeeze, List.destutter_eq_nil]
  simp only [parsePath, hbeq]
  rw [dropWhile_squeeze, splitParts_squeeze _ _ _ [] (List.dropWhile_idempotent ..) (Nat.le_refl _) (Nat.le_refl _)]
  simp only [hnil]

/-- `resolve_path` treats a path and the path without its repeated slashes alike, unless the repeated slashes are in front
of the name of a mount point. -/
theorem resolve_path_ignores_slashes_iff (p : CString) (hp : p.head? = some '/') :
    ((resolvePath (squeeze '/' p)).1 = (resolvePath p).1 ↔ ¬DoubledMount p) ∧
      (¬DoubledMount p →
        (resolvePath (squeeze '/' p)).2 = squeeze '/' (resolvePath p).2 ∧
        (∀ name, '/' ∉ name → ((resolvePath (squeeze '/' p)).2 = name ↔ (resolvePath p).2 = name)) ∧
        ∀ code : Char → Fat.Byte, (∀ c, code c = slash ↔ c = '/') →
          parsePath ((resolvePath (squeeze '/' p)).2.map code) = parsePath ((resolvePath p).2.map code)) := by
  obtain ⟨r, rfl⟩ : ∃ r, p = '/' :: r := by
    cases p with
    | nil => cases hp
    | cons c r =>
      cases hp
      exact ⟨r, rfl⟩
  obtain ⟨hmount, hrel⟩ := resolvePath_squeeze_iff r
  refine ⟨hmount, fun hd => ?_⟩
  have hsq := hrel hd
  refine ⟨hsq, fun name hname => ?_, fun code hcode => ?_⟩
  · rw [hsq, squeeze_eq_iff hname]
  · rw [hsq, map_squeeze hcode, parsePath_squeeze]

theorem resolve_path_slashes_mnt :
    ¬DoubledMount "/mnt///docs//A.TXT".toList ∧
      (resolvePath (squeeze '/' "/mnt///docs//A.TXT".toList)).1 = (resolvePath "/mnt///docs//A.TXT".toList).1 := by
  have hd : ¬DoubledMount "/mnt///docs//A.TXT".toList := fun h => absurd h.1 (by decide)
  exact ⟨hd, (resolve_path_ignores_slashes_iff "/mnt///docs//A.TXT".toList rfl).1.2 hd⟩

/-- A second slash in front of `/dev` leads to the root file system. -/
theorem resolve_path_double_slash :
    squeeze '/' "//dev/console".toList = "/dev/console".toList ∧
      resolvePath "//dev/console".toList = (.root, "dev/console".toList) ∧
      resolvePath "/dev/console".toList = (.dev, "console".toList) := by decide

end Zonix.Vfs
