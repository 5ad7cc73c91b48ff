import Mathlib.Data.List.GetD
import Mathlib.Data.List.TakeWhile
import Zonix.Fat.Dir

/-! # 8.3 names

`make_83_name` cuts a path component to eight and three characters, `get_filename` puts the dot
back.  The two agree exactly on the components that need no cutting. -/

namespace Zonix.Fat

variable {name : List Byte}

theorem map_getD_range {α : Type} (l : List α) (a : α) (n : ℕ) (h : l.length ≤ n) :
    (List.range n).map (fun i => l.getD i a) = l ++ List.replicate (n - l.length) a := by
  apply List.ext_getElem
  · simp only [List.length_map, List.length_range, List.length_append, List.length_replicate]
    omega
  · intro i h₁ h₂
    simp only [List.getElem_map, List.getElem_range, List.getElem_append, List.getElem_replicate]
    split
    · rename_i hi
      rw [List.getD_eq_getElem l a hi]
    · rename_i hi
      rw [List.getD_eq_default l a (by omega)]

theorem takeWhile_padded (l : List Byte) (n : ℕ) (h : l.length ≤ n) (hl : ∀ b ∈ l, b ≠ space) :
    ((List.range n).map fun i => l.getD i space).takeWhile (· != space) = l := by
  rw [map_getD_range l space n h, List.takeWhile_append_of_pos (fun b hb => by simpa using hl b hb)]
  cases n - l.length with
  | zero => simp
  | succ k => simp [List.replicate_succ]

def display (stem ext : List Byte) : List Byte := if ext = [] then stem else stem ++ dot :: ext

theorem makeEntry_getFilename (stem ext : List Byte) (attr : Byte) (cluster : ℕ) (hs : stem.length ≤ 8)
    (he : ext.length ≤ 3) (hstem : ∀ b ∈ stem, b ≠ space) (hext : ∀ b ∈ ext, b ≠ space) :
    (makeEntry (stem, ext) attr cluster).getFilename = display stem ext := by
  have hname : (List.range 8).map (FatDirEntry.name (makeEntry (stem, ext) attr cluster)) =
      (List.range 8).map fun i => stem.getD i space := by
    apply List.map_congr_left
    intro i hi
    have hlt : i < 8 := List.mem_range.mp hi
    unfold FatDirEntry.name makeEntry
    rw [byte_ofBytes _ (by omega), if_pos hlt]
  have hextn : ∀ i, i < 3 → FatDirEntry.ext (makeEntry (stem, ext) attr cluster) i = ext.getD i space := by
    intro i hi
    unfold FatDirEntry.ext makeEntry
    rw [byte_ofBytes _ (by omega), if_neg (by omega), if_pos (by omega), show 8 + i - 8 = i by omega]
  have hexts : (List.range 3).map (FatDirEntry.ext (makeEntry (stem, ext) attr cluster)) =
      (List.range 3).map fun i => ext.getD i space :=
    List.map_congr_left fun i hi => hextn i (List.mem_range.mp hi)
  unfold FatDirEntry.getFilename
  dsimp only
  rw [hname, hexts, hextn 0 (by omega)]
  have htake : ((List.range 8).map fun i => stem.getD i space).takeWhile (· != 0x20) = stem :=
    takeWhile_padded stem 8 hs hstem
  have htakeExt : ((List.range 3).map fun i => ext.getD i space).takeWhile (· != 0x20) = ext :=
    takeWhile_padded ext 3 he hext
  rw [htake, htakeExt]
  unfold display
  cases ext with
  | nil => simp [space]
  | cons b ext =>
    have hb : (b != 0x20) = true := by simpa [space] using hext b (by simp)
    rw [List.getD_cons_zero, if_pos hb, if_neg (by simp)]
    rfl

/-! ## Components -/

def Clean (name : List Byte) : Prop := ∀ b ∈ name, b ≠ 0 ∧ b ≠ space ∧ toUpper b = b

theorem toUpper_idem (b : Byte) : toUpper (toUpper b) = toUpper b := by
  unfold toUpper
  split
  · rename_i h
    rw [if_neg]
    bv_omega
  · rfl

theorem Clean.map (h : Clean name) : name.map toUpper = name := by
  have hid := List.map_congr_left (fun b hb => (h b hb).2.2) (f := toUpper) (g := id) (l := name)
  simpa using hid

theorem Clean.sublist {l : List Byte} (h : Clean name) (hl : List.Sublist l name) : Clean l :=
  fun b hb => h b (hl.subset hb)

/-- At most eight characters before the first dot; none or one to three behind it. -/
def Fits83 (name : List Byte) : Prop :=
  (name.takeWhile (· != dot)).length ≤ 8 ∧
    (name.dropWhile (· != dot) = [] ∨
      (2 ≤ (name.dropWhile (· != dot)).length ∧ (name.dropWhile (· != dot)).length ≤ 4))

instance (name : List Byte) : Decidable (Fits83 name) := inferInstanceAs (Decidable (_ ∧ _))

theorem split_dot (name : List Byte) : ∃ stem ext, name = stem ++ ext ∧ name.takeWhile (· != dot) = stem ∧
    name.dropWhile (· != dot) = ext ∧ (∀ b ∈ stem, b ≠ dot) ∧ (ext = [] ∨ ∃ tail, ext = dot :: tail) := by
  refine ⟨_, _, (List.takeWhile_append_dropWhile (p := (· != dot)) (l := name)).symm, rfl, rfl, fun b hb => ?_, ?_⟩
  · simpa using List.mem_takeWhile_imp hb
  · cases hd : name.dropWhile (· != dot) with
    | nil => exact Or.inl rfl
    | cons b tail =>
      have hb := List.head?_dropWhile_not (· != dot) name
      rw [hd] at hb
      simp only [List.head?_cons, bne_eq_false_iff_eq] at hb
      exact Or.inr ⟨tail, by rw [hb]⟩

theorem display_eq_iff {stem tail : List Byte} :
    display stem (tail.take 3) = stem ++ dot :: tail ↔ 1 ≤ tail.length ∧ tail.length ≤ 3 := by
  unfold display
  cases tail with
  | nil => simp
  | cons b tail =>
    simp only [List.take_succ_cons, reduceCtorEq, if_false, List.append_cancel_left_eq, List.cons.injEq, true_and]
    constructor
    · intro h
      have hlen := congrArg List.length h
      simp only [List.length_take] at hlen
      simp only [List.length_cons]
      omega
    · intro h
      simp only [List.length_cons] at h
      exact List.take_of_length_le (by omega)

theorem make83Name_clean (h : Clean name) : ∃ stem ext, make83Name name = (stem, ext) ∧ stem.length ≤ 8 ∧
    ext.length ≤ 3 ∧ Clean stem ∧ Clean ext ∧ (display stem ext = name ↔ Fits83 name) := by
  obtain ⟨stem, suffix, hname, htake, hdrop, hstem, hsuffix⟩ := split_dot name
  have hcut : ∀ {l : List Byte}, List.Sublist l name → l.map toUpper = l := fun hl => (h.sublist hl).map
  have hsub : List.Sublist stem name := hname ▸ List.sublist_append_left stem suffix
  have hlast : ∀ {l : List Byte}, List.Sublist l name → (l.take 3).length ≤ 3 := by
    intro l _
    simp only [List.length_take]
    omega
  unfold make83Name Fits83
  rw [htake, hdrop]
  dsimp only
  by_cases hlen : stem.length ≤ 8
  · have hrest : name.drop stem.length = suffix := by rw [hname, List.drop_left]
    rw [List.take_of_length_le hlen, hrest, hcut hsub]
    rcases hsuffix with rfl | ⟨tail, rfl⟩
    · refine ⟨stem, [], by simp, hlen, by simp, h.sublist hsub, by simp [Clean], ?_⟩
      simp [display, hname, hlen]
    · have htail : List.Sublist (tail.take 3) name := by
        rw [hname]
        exact ((List.take_sublist 3 tail).trans (List.sublist_cons_self dot tail)).trans (List.sublist_append_right stem _)
      refine ⟨stem, tail.take 3, by simp [hcut htail], hlen, by simp, h.sublist hsub, h.sublist htail, ?_⟩
      rw [hname, display_eq_iff]
      simp only [reduceCtorEq, false_or, List.length_cons]
      omega
  · have hstem8 : List.Sublist (stem.take 8) name := (List.take_sublist 8 stem).trans hsub
    have hlen8 : (stem.take 8).length = 8 := by
      rw [List.length_take]
      omega
    obtain ⟨r, rest, hrest⟩ : ∃ r rest, stem.drop 8 = r :: rest := by
      cases hd : stem.drop 8 with
      | nil =>
        have hle := List.drop_eq_nil_iff.mp hd
        omega
      | cons r rest => exact ⟨r, rest, rfl⟩
    have hr : r ≠ dot := hstem r ((List.drop_sublist 8 stem).subset (by rw [hrest]; simp))
    have hsplit : name = stem.take 8 ++ r :: (rest ++ suffix) := by
      rw [hname, ← List.cons_append, ← hrest, ← List.append_assoc, List.take_append_drop]
    have hdrop8 : name.drop 8 = r :: (rest ++ suffix) := by
      rw [hsplit]
      exact List.drop_left' hlen8
    have htail : List.Sublist ((r :: (rest ++ suffix)).take 3) name := by
      rw [← hdrop8]
      exact (List.take_sublist 3 _).trans (List.drop_sublist 8 name)
    refine ⟨stem.take 8, (r :: (rest ++ suffix)).take 3, ?_, by omega, hlast (hdrop8 ▸ List.drop_sublist 8 name),
      h.sublist hstem8, h.sublist htail, ?_⟩
    · rw [hcut hstem8, hlen8, hdrop8, List.head?_cons, if_neg (by simpa using hr), hcut htail]
    · constructor
      · intro heq
        rw [hsplit, display, if_neg (by simp), List.append_cancel_left_eq] at heq
        exact absurd (List.cons.inj heq).1.symm hr
      · intro hfit
        exact absurd hfit.1 hlen

theorem entryName_make83 (h : Clean name) (attr : Byte) (cluster : ℕ) :
    (makeEntry (make83Name name) attr cluster).entryName = (makeEntry (make83Name name) attr cluster).getFilename ∧
      ((makeEntry (make83Name name) attr cluster).entryName = name ↔ Fits83 name) := by
  obtain ⟨stem, ext, hmake, hs, he, hstem, hext, hiff⟩ := make83Name_clean h
  have hfile : (makeEntry (stem, ext) attr cluster).getFilename = display stem ext :=
    makeEntry_getFilename stem ext attr cluster hs he (fun b hb => (hstem b hb).2.1) fun b hb => (hext b hb).2.1
  have hdisp : Clean (dot :: ext) := by
    intro b hb
    rcases List.mem_cons.mp hb with rfl | hb
    · decide
    · exact hext b hb
  have hclean : Clean (display stem ext) := by
    unfold display
    split
    · exact hstem
    · intro b hb
      rcases List.mem_append.mp hb with hb | hb
      · exact hstem b hb
      · exact hdisp b hb
  have hentry : (makeEntry (stem, ext) attr cluster).entryName = display stem ext := by
    unfold FatDirEntry.entryName
    rw [hfile, List.takeWhile_eq_self_iff.mpr fun b hb => by simpa using (hclean b hb).1, hclean.map]
  rw [hmake, hentry, hfile]
  exact ⟨rfl, hiff⟩

end Zonix.Fat
