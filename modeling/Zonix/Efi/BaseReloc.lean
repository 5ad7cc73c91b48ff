import Mathlib
import Zonix.Lib.Bytes

/-!
# The base relocation table

`build_base_reloc` of `scripts/elf2efi.py` and the reader of such a table by the PE format: blocks of a page address, a
block size and 16-bit entries. `struct.pack` refuses a value that does not fit its field.
-/

namespace Zonix.Efi

abbrev Byte := BitVec 8

/-- `struct.pack` of one unsigned field of `n` bytes. -/
def pack (n v : ℕ) : Option (List Byte) := if v < 256 ^ n then some (leBytes n v) else none

/-- `offset & ~0xFFF`. -/
def pageOf (offset : ℕ) : ℕ := offset / 0x1000 * 0x1000

/-- `0xA000 | (offset & 0xFFF)`: type 10 is `IMAGE_REL_BASED_DIR64`. -/
def dir64 (offset : ℕ) : ℕ := 0xA000 ||| offset % 0x1000

def collectPage (page : ℕ) : List ℕ → List ℕ × List ℕ
  | [] => ([], [])
  | offset :: offsets =>
    if pageOf offset = page then
      let (entries, rest) := collectPage page offsets
      (dir64 offset :: entries, rest)
    else ([], offset :: offsets)

def padEntries (entries : List ℕ) : List ℕ := if entries.length % 2 ≠ 0 then entries ++ [0] else entries

def packBlock (page : ℕ) (entries : List ℕ) : Option (List Byte) := do
  let entries := padEntries entries
  let blockSize := 8 + entries.length * 2
  let head ← pack 4 page
  let size ← pack 4 blockSize
  let words ← entries.mapM (pack 2)
  pure (head ++ size ++ words.flatten)

/-- The outer loop; every round takes an offset, so their number is fuel enough. -/
def buildBlocks : ℕ → List ℕ → Option (List (List Byte))
  | _, [] => some []
  | 0, _ :: _ => none
  | fuel + 1, offset :: offsets => do
    let page := pageOf offset
    let (entries, rest) := collectPage page (offset :: offsets)
    let block ← packBlock page entries
    let blocks ← buildBlocks fuel rest
    pure (block :: blocks)

def buildBaseReloc (relOffsets : List ℕ) : Option (List Byte) :=
  (buildBlocks relOffsets.length relOffsets).map List.flatten

/-! ## Reading a table -/

structure RelocBlock where
  page : ℕ
  size : ℕ
  offsets : List ℕ
deriving DecidableEq, Repr

/-- The entries of a block: type 10 gives the page plus the low 12 bits, type 0 is padding. -/
def decodeEntries (page : ℕ) : List Byte → Option (List ℕ)
  | [] => some []
  | [_] => none
  | low :: high :: rest =>
    let entry := leValue [low, high]
    if entry / 0x1000 = 10 then (decodeEntries page rest).map fun offsets => (page + entry % 0x1000) :: offsets
    else if entry / 0x1000 = 0 then decodeEntries page rest
    else none

/-- The blocks of a table, which they have to fill; every block takes at least a byte. -/
def decodeBlocks : ℕ → List Byte → Option (List RelocBlock)
  | _, [] => some []
  | 0, _ :: _ => none
  | fuel + 1, table => do
    let page := leValue (table.take 4)
    let size := leValue ((table.drop 4).take 4)
    if size < 8 ∨ table.length < size then none
    else
      let offsets ← decodeEntries page ((table.take size).drop 8)
      let blocks ← decodeBlocks fuel (table.drop size)
      pure (⟨page, size, offsets⟩ :: blocks)

def decodeBaseReloc (table : List Byte) : Option (List RelocBlock) := decodeBlocks table.length table

/-! ## One page -/

theorem dir64_eq (offset : ℕ) : dir64 offset = 0xA000 + offset % 0x1000 := by
  have hlow : offset % 0x1000 < 2 ^ 12 := Nat.mod_lt _ (by decide)
  have hor := Nat.shiftLeft_add_eq_or_of_lt hlow 10
  rw [Nat.shiftLeft_eq] at hor
  exact hor.symm

variable {n fuel : ℕ} {run : List ℕ}

theorem pack_some {v : ℕ} (hv : v < 256 ^ n) : pack n v = some (leBytes n v) := if_pos hv

theorem pack_none {v : ℕ} (hv : ¬v < 256 ^ n) : pack n v = none := if_neg hv

theorem mapM_pack {vs : List ℕ} (hv : ∀ v ∈ vs, v < 256 ^ n) : vs.mapM (pack n) = some (vs.map (leBytes n)) := by
  induction vs with
  | nil => rfl
  | cons v vs ih =>
    rw [List.mapM_cons, pack_some (hv v List.mem_cons_self), ih fun w hw => hv w (List.mem_cons_of_mem v hw)]
    rfl

theorem flatten_length (ws : List ℕ) : ((ws.map (leBytes 2)).flatten).length = ws.length * 2 := by
  induction ws with
  | nil => rfl
  | cons w ws ih =>
    rw [List.map_cons, List.flatten_cons, List.length_append, ih, leBytes_length, List.length_cons]
    ring

variable {page o : ℕ} {offsets : List ℕ}

theorem decodeEntries_cons {w : ℕ} (hw : w < 256 ^ 2) (rest : List Byte) :
    decodeEntries page (leBytes 2 w ++ rest) =
      if w / 0x1000 = 10 then (decodeEntries page rest).map fun offsets => (page + w % 0x1000) :: offsets
      else if w / 0x1000 = 0 then decodeEntries page rest else none := by
  have hval : leValue [BitVec.ofNat 8 w, BitVec.ofNat 8 (w / 256)] = w := leValue_leBytes hw
  show decodeEntries page (BitVec.ofNat 8 w :: BitVec.ofNat 8 (w / 256) :: rest) = _
  rw [decodeEntries, hval]

theorem decodeEntries_dir64 (hrun : ∀ o ∈ run, pageOf o = page) (tail : List Byte) :
    decodeEntries page (((run.map dir64).map (leBytes 2)).flatten ++ tail) =
      (decodeEntries page tail).map fun offsets => run ++ offsets := by
  induction run with
  | nil =>
    show decodeEntries page tail = _
    cases decodeEntries page tail <;> rfl
  | cons o run ih =>
    have hpage := hrun o List.mem_cons_self
    have hlow : o % 0x1000 < 0x1000 := Nat.mod_lt _ (by decide)
    have hw : dir64 o < 256 ^ 2 := by
      rw [dir64_eq]
      omega
    have hsum : page + dir64 o % 0x1000 = o := by
      rw [← hpage, dir64_eq, pageOf]
      omega
    have htype : dir64 o / 0x1000 = 10 := by
      rw [dir64_eq]
      omega
    rw [List.map_cons, List.map_cons, List.flatten_cons, List.append_assoc, decodeEntries_cons hw, if_pos htype, hsum,
      ih fun p hp => hrun p (List.mem_cons_of_mem o hp), Option.map_map]
    rfl

def blockSize (n : ℕ) : ℕ := 8 + (n + n % 2) * 2

theorem padEntries_length (entries : List ℕ) : 8 + (padEntries entries).length * 2 = blockSize entries.length := by
  rw [padEntries, blockSize]
  split
  · rw [List.length_append, List.length_singleton]
    omega
  · omega

theorem decodeEntries_padded (hrun : ∀ o ∈ run, pageOf o = page) :
    decodeEntries page ((padEntries (run.map dir64)).map (leBytes 2)).flatten = some run := by
  rw [padEntries]
  split
  · rw [List.map_append, List.flatten_append, decodeEntries_dir64 hrun]
    show (decodeEntries page (leBytes 2 0 ++ [])).map _ = some run
    rw [decodeEntries_cons (by decide)]
    show some (run ++ []) = some run
    rw [List.append_nil]
  · have hall := decodeEntries_dir64 hrun []
    rw [List.append_nil] at hall
    rw [hall]
    show some (run ++ []) = some run
    rw [List.append_nil]

def blockBytes (page : ℕ) (run : List ℕ) : List Byte :=
  leBytes 4 page ++ leBytes 4 (blockSize run.length) ++ ((padEntries (run.map dir64)).map (leBytes 2)).flatten

theorem blockBytes_length (page : ℕ) (run : List ℕ) : (blockBytes page run).length = blockSize run.length := by
  have hpad := padEntries_length (run.map dir64)
  rw [List.length_map] at hpad
  rw [blockBytes, List.length_append, List.length_append, leBytes_length, leBytes_length, flatten_length, ← hpad]

theorem dir64_lt (offset : ℕ) : dir64 offset < 256 ^ 2 := by
  have hlow : offset % 0x1000 < 0x1000 := Nat.mod_lt _ (by decide)
  rw [dir64_eq]
  omega

theorem packBlock_eq (hpage : page < 2 ^ 32) (run : List ℕ) : packBlock page (run.map dir64) =
    if blockSize run.length < 2 ^ 32 then some (blockBytes page run) else none := by
  have hpad := padEntries_length (run.map dir64)
  rw [List.length_map] at hpad
  have hwords : (padEntries (run.map dir64)).mapM (pack 2) = some ((padEntries (run.map dir64)).map (leBytes 2)) := by
    apply mapM_pack
    intro v hv
    have hor : v ∈ run.map dir64 ∨ v = 0 := by
      rw [padEntries] at hv
      split at hv
      · exact (List.mem_append.1 hv).imp_right List.mem_singleton.1
      · exact Or.inl hv
    rcases hor with hmem | rfl
    · obtain ⟨o, -, rfl⟩ := List.mem_map.1 hmem
      exact dir64_lt o
    · decide
  have hhead : pack 4 page = some (leBytes 4 page) := pack_some hpage
  simp only [packBlock, hpad, hhead, hwords]
  by_cases hsize : blockSize run.length < 2 ^ 32
  · have hfit : pack 4 (blockSize run.length) = some (leBytes 4 (blockSize run.length)) := pack_some hsize
    rw [hfit, if_pos hsize]
    rfl
  · have hfit : pack 4 (blockSize run.length) = none := pack_none hsize
    rw [hfit, if_neg hsize]
    rfl

theorem decodeBlocks_block (hpage : page < 2 ^ 32) (hrun : ∀ o ∈ run, pageOf o = page)
    (hsize : blockSize run.length < 2 ^ 32) (fuel : ℕ) (rest : List Byte) :
    decodeBlocks (fuel + 1) (blockBytes page run ++ rest) =
      (decodeBlocks fuel rest).map fun blocks => ⟨page, blockSize run.length, run⟩ :: blocks := by
  have hlen := blockBytes_length page run
  have hpos : 8 ≤ blockSize run.length := Nat.le_add_right 8 _
  have hfirst : (blockBytes page run ++ rest).take 4 = leBytes 4 page := by
    rw [blockBytes, List.append_assoc, List.append_assoc, List.take_append_of_le_length (by rw [leBytes_length]),
      List.take_of_length_le (by rw [leBytes_length])]
  have hsecond : ((blockBytes page run ++ rest).drop 4).take 4 = leBytes 4 (blockSize run.length) := by
    rw [blockBytes, List.append_assoc, List.append_assoc, List.drop_append_of_le_length (by rw [leBytes_length]),
      List.drop_of_length_le (by rw [leBytes_length]), List.nil_append,
      List.take_append_of_le_length (by rw [leBytes_length]), List.take_of_length_le (by rw [leBytes_length])]
  have hbody : ((blockBytes page run ++ rest).take (blockSize run.length)).drop 8 =
      ((padEntries (run.map dir64)).map (leBytes 2)).flatten := by
    have hhead : (leBytes 4 page ++ leBytes 4 (blockSize run.length)).length = 8 := by
      rw [List.length_append, leBytes_length, leBytes_length]
    rw [List.take_append_of_le_length hlen.ge, List.take_of_length_le hlen.le, blockBytes,
      List.drop_append_of_le_length hhead.ge, List.drop_of_length_le hhead.le, List.nil_append]
  have hrest : (blockBytes page run ++ rest).drop (blockSize run.length) = rest := by
    rw [List.drop_append_of_le_length hlen.ge, List.drop_of_length_le hlen.le, List.nil_append]
  have hgo : ¬(blockSize run.length < 8 ∨ (blockBytes page run ++ rest).length < blockSize run.length) := by
    rw [List.length_append, hlen]
    omega
  have hnonempty : ∃ b bs, blockBytes page run ++ rest = b :: bs := by
    apply List.exists_cons_of_ne_nil
    intro hnil
    have := congrArg List.length hnil
    rw [List.length_append, hlen, List.length_nil] at this
    omega
  obtain ⟨b, bs, hcons⟩ := hnonempty
  have hpval : leValue (leBytes 4 page) = page := leValue_leBytes hpage
  have hsval : leValue (leBytes 4 (blockSize run.length)) = blockSize run.length := leValue_leBytes hsize
  rw [hcons, decodeBlocks, ← hcons, hfirst, hsecond, hpval, hsval]
  · simp only [if_neg hgo, hbody, decodeEntries_padded hrun, hrest]
    cases decodeBlocks fuel rest <;> rfl
  · exact List.cons_ne_nil _ _

/-! ## The whole table -/

def inPage (page : ℕ) (offsets : List ℕ) : ℕ := offsets.countP (pageOf · = page)

theorem collectPage_eq (page : ℕ) (offsets : List ℕ) : collectPage page offsets =
    ((offsets.takeWhile (pageOf · = page)).map dir64, offsets.dropWhile (pageOf · = page)) := by
  induction offsets with
  | nil => rfl
  | cons o offsets ih =>
    rw [collectPage, List.takeWhile_cons, List.dropWhile_cons]
    by_cases hpage : pageOf o = page
    · simp only [hpage, if_true, decide_true, ih, List.map_cons]
    · simp only [hpage, if_false, decide_false, Bool.false_eq_true, List.map_nil]

theorem pageOf_mono {o' : ℕ} (h : o ≤ o') : pageOf o ≤ pageOf o' := by
  rw [pageOf, pageOf]
  omega

theorem rest_not_page (hasc : (o :: offsets).Pairwise (· ≤ ·)) :
    ∀ x ∈ (o :: offsets).dropWhile (pageOf · = pageOf o), pageOf x ≠ pageOf o := by
  have hge : ∀ x ∈ o :: offsets, pageOf o ≤ pageOf x := by
    intro x hx
    rcases List.mem_cons.1 hx with rfl | hx
    · exact le_rfl
    · exact pageOf_mono ((List.pairwise_cons.1 hasc).1 x hx)
  have hsorted : ((o :: offsets).dropWhile (pageOf · = pageOf o)).Pairwise (· ≤ ·) :=
    hasc.sublist (List.dropWhile_sublist _)
  cases hrest : (o :: offsets).dropWhile (pageOf · = pageOf o) with
  | nil => exact fun x hx => absurd hx List.not_mem_nil
  | cons y ys =>
    have hy : pageOf y ≠ pageOf o := by
      have hhead := List.head_dropWhile_not (pageOf · = pageOf o) (by rw [hrest]; exact List.cons_ne_nil y ys)
      simp only [hrest, List.head_cons, decide_eq_false_iff_not] at hhead
      exact hhead
    have hmem : y ∈ o :: offsets := (List.dropWhile_sublist _).subset (by rw [hrest]; exact List.mem_cons_self)
    have hlt : pageOf o < pageOf y := lt_of_le_of_ne (hge y hmem) (Ne.symm hy)
    rw [hrest] at hsorted
    intro x hx
    rcases List.mem_cons.1 hx with rfl | hx
    · exact hy
    · exact (lt_of_lt_of_le hlt (pageOf_mono ((List.pairwise_cons.1 hsorted).1 x hx))).ne'

/-- The sizes of all blocks fit their fields. -/
def SizesFit (offsets : List ℕ) : Prop := ∀ page, blockSize (inPage page offsets) < 2 ^ 32

theorem sizesFit_nil : SizesFit [] := fun page => show blockSize 0 < 2 ^ 32 by decide

theorem sizesFit_of_nodup (hnodup : offsets.Nodup) : SizesFit offsets := by
  intro page
  have hsub : (offsets.filter (pageOf · = page)).toFinset ⊆ Finset.Ico page (page + 0x1000) := by
    intro o ho
    have hpage := of_decide_eq_true (List.mem_filter.1 (List.mem_toFinset.1 ho)).2
    rw [Finset.mem_Ico, ← hpage, pageOf]
    omega
  have hcard := Finset.card_le_card hsub
  rw [List.toFinset_card_of_nodup (hnodup.filter _), Nat.card_Ico, ← List.countP_eq_length_filter] at hcard
  rw [inPage, blockSize]
  omega

theorem inPage_rest (hasc : (o :: offsets).Pairwise (· ≤ ·)) :
    inPage (pageOf o) ((o :: offsets).dropWhile (pageOf · = pageOf o)) = 0 := by
  rw [inPage, List.countP_eq_zero]
  intro x hx
  simpa using rest_not_page hasc x hx

theorem mem_run {x : ℕ} (hx : x ∈ (o :: offsets).takeWhile (pageOf · = pageOf o)) :
    pageOf x = pageOf o := by
  have hpage := List.mem_takeWhile_imp hx
  exact of_decide_eq_true hpage

theorem inPage_run (hasc : (o :: offsets).Pairwise (· ≤ ·)) (page : ℕ) :
    inPage page (o :: offsets) =
      if page = pageOf o then ((o :: offsets).takeWhile (pageOf · = pageOf o)).length
      else inPage page ((o :: offsets).dropWhile (pageOf · = pageOf o)) := by
  have hsplit : inPage page (o :: offsets) = inPage page ((o :: offsets).takeWhile (pageOf · = pageOf o)) +
      inPage page ((o :: offsets).dropWhile (pageOf · = pageOf o)) := by
    rw [inPage, inPage, inPage, ← List.countP_append, List.takeWhile_append_dropWhile]
  rw [hsplit]
  by_cases hpage : page = pageOf o
  · rw [if_pos hpage, hpage, inPage_rest hasc, Nat.add_zero, inPage, List.countP_eq_length]
    intro x hx
    simpa using mem_run hx
  · have hnone : inPage page ((o :: offsets).takeWhile (pageOf · = pageOf o)) = 0 := by
      rw [inPage, List.countP_eq_zero]
      intro x hx
      rw [mem_run hx]
      simpa using Ne.symm hpage
    rw [if_neg hpage, hnone, Nat.zero_add]

theorem sizesFit_cons (hasc : (o :: offsets).Pairwise (· ≤ ·)) : SizesFit (o :: offsets) ↔
    blockSize ((o :: offsets).takeWhile (pageOf · = pageOf o)).length < 2 ^ 32 ∧
      SizesFit ((o :: offsets).dropWhile (pageOf · = pageOf o)) := by
  constructor
  · intro hfit
    refine ⟨?_, fun page => ?_⟩
    · have := hfit (pageOf o)
      rwa [inPage_run hasc, if_pos rfl] at this
    · have hpage := hfit page
      rw [inPage_run hasc] at hpage
      by_cases hsame : page = pageOf o
      · rw [hsame, inPage_rest hasc]
        decide
      · rwa [if_neg hsame] at hpage
  · rintro ⟨hrun, hrest⟩ page
    rw [inPage_run hasc]
    split
    · exact hrun
    · exact hrest page

structure Decoded (offsets : List ℕ) (table : List Byte) (blocks : List RelocBlock) : Prop where
  decode : decodeBaseReloc table = some blocks
  offsets : blocks.flatMap (·.offsets) = offsets
  aligned : ∀ b ∈ blocks, 4 ∣ b.size
  fills : (blocks.map (·.size)).sum = table.length
  pages : (blocks.map (·.page)).Nodup

theorem buildBlocks_cons (h32 : o < 2 ^ 32) :
    buildBlocks (fuel + 1) (o :: offsets) =
      if blockSize ((o :: offsets).takeWhile (pageOf · = pageOf o)).length < 2 ^ 32 then
        (buildBlocks fuel ((o :: offsets).dropWhile (pageOf · = pageOf o))).map fun blocks =>
          blockBytes (pageOf o) ((o :: offsets).takeWhile (pageOf · = pageOf o)) :: blocks
      else none := by
  have hpage : pageOf o < 2 ^ 32 := by
    rw [pageOf]
    omega
  rw [buildBlocks, collectPage_eq]
  simp only [packBlock_eq hpage]
  split
  · cases buildBlocks fuel ((o :: offsets).dropWhile (pageOf · = pageOf o)) <;> rfl
  · rfl

theorem blockSize_aligned (n : ℕ) : 4 ∣ blockSize n := by
  rw [blockSize]
  omega

theorem buildBlocks_decoded (hasc : offsets.Pairwise (· ≤ ·))
    (h32 : ∀ o ∈ offsets, o < 2 ^ 32) (hfuel : offsets.length ≤ fuel) (hfit : SizesFit offsets) :
    ∃ bytes blocks, buildBlocks fuel offsets = some bytes ∧
      (∀ n, bytes.flatten.length ≤ n → decodeBlocks n bytes.flatten = some blocks) ∧
      blocks.flatMap (·.offsets) = offsets ∧ (∀ b ∈ blocks, 4 ∣ b.size) ∧
      (blocks.map (·.size)).sum = bytes.flatten.length ∧ (blocks.map (·.page)).Nodup ∧
      ∀ b ∈ blocks, ∃ o ∈ offsets, pageOf o = b.page := by
  induction fuel generalizing offsets with
  | zero =>
    obtain rfl := List.length_eq_zero_iff.1 (Nat.le_zero.1 hfuel)
    exact ⟨[], [], rfl, fun n _ => by cases n <;> rfl, rfl, nofun, rfl, List.nodup_nil, nofun⟩
  | succ fuel ih =>
    cases offsets with
    | nil => exact ⟨[], [], rfl, fun n _ => by cases n <;> rfl, rfl, nofun, rfl, List.nodup_nil, nofun⟩
    | cons o offsets =>
      obtain ⟨hsize, hrest⟩ := (sizesFit_cons hasc).1 hfit
      have hsub := List.dropWhile_sublist (l := o :: offsets) (pageOf · = pageOf o)
      have hshort : ((o :: offsets).dropWhile (pageOf · = pageOf o)).length ≤ fuel := by
        have hle := List.length_dropWhile_le (pageOf · = pageOf o) offsets
        rw [List.length_cons] at hfuel
        rw [List.dropWhile_cons, decide_eq_true rfl, if_pos rfl]
        omega
      have ho := h32 o List.mem_cons_self
      have hpage : pageOf o < 2 ^ 32 := by
        rw [pageOf]
        omega
      have hnot := rest_not_page hasc
      have hrun : ∀ x ∈ (o :: offsets).takeWhile (pageOf · = pageOf o), pageOf x = pageOf o := fun x hx => mem_run hx
      have hjoin := List.takeWhile_append_dropWhile (p := (pageOf · = pageOf o)) (l := o :: offsets)
      obtain ⟨bytes, blocks, hbuild, hdecode, hoff, haligned, hfills, hnodup, hpages⟩ :=
        ih (hasc.sublist hsub) (fun x hx => h32 x (hsub.subset hx)) hshort hrest
      rw [buildBlocks_cons ho, if_pos hsize, hbuild]
      generalize (o :: offsets).takeWhile (pageOf · = pageOf o) = run at *
      generalize (o :: offsets).dropWhile (pageOf · = pageOf o) = rest at *
      have hlen := blockBytes_length (pageOf o) run
      refine ⟨blockBytes (pageOf o) run :: bytes, ⟨pageOf o, blockSize run.length, run⟩ :: blocks, rfl, ?_, ?_, ?_, ?_,
        ?_, ?_⟩
      · intro n hn
        rw [List.flatten_cons] at hn ⊢
        rw [List.length_append, hlen, blockSize] at hn
        cases n with
        | zero => omega
        | succ n =>
          rw [decodeBlocks_block hpage hrun hsize, hdecode n (by omega)]
          rfl
      · rw [List.flatMap_cons, hoff]
        exact hjoin
      · intro b hb
        rcases List.mem_cons.1 hb with rfl | hb
        · exact blockSize_aligned _
        · exact haligned b hb
      · rw [List.map_cons, List.sum_cons, hfills, List.flatten_cons, List.length_append, hlen]
      · rw [List.map_cons, List.nodup_cons]
        refine ⟨fun hmem => ?_, hnodup⟩
        obtain ⟨b, hb, hbp⟩ := List.mem_map.1 hmem
        obtain ⟨x, hx, hxp⟩ := hpages b hb
        exact hnot x hx (hxp.trans hbp)
      · intro b hb
        rcases List.mem_cons.1 hb with rfl | hb
        · exact ⟨o, List.mem_cons_self, rfl⟩
        · obtain ⟨x, hx, hxp⟩ := hpages b hb
          exact ⟨x, hsub.subset hx, hxp⟩

theorem buildBlocks_none (hasc : offsets.Pairwise (· ≤ ·))
    (h32 : ∀ o ∈ offsets, o < 2 ^ 32) (hfit : ¬SizesFit offsets) : buildBlocks fuel offsets = none := by
  induction fuel generalizing offsets with
  | zero =>
    cases offsets with
    | nil => exact absurd sizesFit_nil hfit
    | cons o offsets => rfl
  | succ fuel ih =>
    cases offsets with
    | nil => exact absurd sizesFit_nil hfit
    | cons o offsets =>
      have hsub := List.dropWhile_sublist (l := o :: offsets) (pageOf · = pageOf o)
      rw [sizesFit_cons hasc] at hfit
      rw [buildBlocks_cons (h32 o List.mem_cons_self)]
      split
      · rename_i hsize
        rw [ih (hasc.sublist hsub) (fun x hx => h32 x (hsub.subset hx)) fun hrest => hfit ⟨hsize, hrest⟩]
        rfl
      · rfl

/-- `build_base_reloc` returns a table, and it reads back as the offsets. -/
def RoundTrips (offsets : List ℕ) : Prop :=
  ∃ table blocks, buildBaseReloc offsets = some table ∧ Decoded offsets table blocks

theorem base_reloc_round_trip (offsets : List ℕ) (hasc : offsets.Pairwise (· ≤ ·)) (h32 : ∀ o ∈ offsets, o < 2 ^ 32) :
    RoundTrips offsets ↔ SizesFit offsets := by
  constructor
  · rintro ⟨table, blocks, hbuild, -⟩
    by_contra hfit
    rw [buildBaseReloc, buildBlocks_none hasc h32 hfit] at hbuild
    cases hbuild
  · intro hfit
    obtain ⟨bytes, blocks, hbuild, hdecode, hoff, haligned, hfills, hnodup, -⟩ :=
      buildBlocks_decoded hasc h32 le_rfl hfit
    refine ⟨bytes.flatten, blocks, ?_, hdecode _ le_rfl, hoff, haligned, hfills, hnodup⟩
    rw [buildBaseReloc, hbuild]
    rfl

/-- The list that names offset 0 two to the 31 times has no table: the size of its block needs 33 bits. -/
theorem base_reloc_too_long :
    (List.replicate (2 ^ 31) 0).Pairwise (· ≤ ·) ∧ (∀ o ∈ List.replicate (2 ^ 31) 0, o < 2 ^ 32) ∧
      buildBaseReloc (List.replicate (2 ^ 31) 0) = none := by
  have hasc : (List.replicate (2 ^ 31) 0).Pairwise (· ≤ ·) := List.pairwise_replicate_of_refl
  have h32 : ∀ o ∈ List.replicate (2 ^ 31) 0, o < 2 ^ 32 := fun o ho => by
    rw [List.eq_of_mem_replicate ho]
    norm_num
  refine ⟨hasc, h32, ?_⟩
  rw [buildBaseReloc, buildBlocks_none hasc h32]
  · rfl
  · intro hfit
    have hsize := hfit 0
    rw [inPage, List.countP_replicate, blockSize] at hsize
    norm_num [pageOf] at hsize

theorem base_reloc_round_trip_three : RoundTrips [0x1010, 0x1ff8, 0x3000] ↔ SizesFit [0x1010, 0x1ff8, 0x3000] :=
  base_reloc_round_trip [0x1010, 0x1ff8, 0x3000] (by decide) (by decide)

example : (buildBaseReloc [0x1010, 0x1ff8, 0x3000]).bind decodeBaseReloc =
    some [⟨0x1000, 12, [0x1010, 0x1ff8]⟩, ⟨0x3000, 12, [0x3000]⟩] := by decide +kernel

end Zonix.Efi
