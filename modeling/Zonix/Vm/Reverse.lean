import Mathlib
import Zonix.Vm.SwapOut

/-!
# From a frame back to its address

`scan_pt_for_pa` and `find_va_for_page` of `kernel/mm/swap.cpp` against the walk. The scan goes through the tables in
the order of the addresses, so what it finds is the lowest one. Its result 0 stands for "not found" at every level: a
match at address 0 ends the scan of the first leaf table with that result, and the rest of this table is not looked at.
-/

namespace Zonix.Vm

open Zonix.Lib.Radix

variable {a : Arch} {h : Heap 512 Word} {target : Word}

def LeastOrZero (S : Set ℕ) (x : ℕ) : Prop := x = 0 ∧ S = ∅ ∨ x ≠ 0 ∧ IsLeast S x

/-- A scan of entries in ascending order, with the addresses of each entry below those of the next, finds the least
address of all entries. -/
theorem scanTable_least {entries : List (Fin 512)} {look : Fin 512 → ℕ} {S : Fin 512 → Set ℕ}
    (hsorted : entries.Pairwise (· < ·)) (hord : ∀ i j, i < j → ∀ x ∈ S i, ∀ y ∈ S j, x ≤ y)
    (hlook : ∀ i, LeastOrZero (S i) (look i)) :
    LeastOrZero {x | ∃ i ∈ entries, x ∈ S i} (scanTable entries look) := by
  induction entries with
  | nil => exact Or.inl ⟨rfl, Set.eq_empty_of_forall_notMem fun x ⟨i, hi, _⟩ => List.not_mem_nil hi⟩
  | cons i rest ih =>
    obtain ⟨hhead, htail⟩ := List.pairwise_cons.1 hsorted
    rw [scanTable]
    obtain ⟨hzero, hnone⟩ | ⟨hne, hleast⟩ := hlook i
    · rw [if_neg (not_not.2 hzero)]
      have hsame : {x | ∃ j ∈ i :: rest, x ∈ S j} = {x | ∃ j ∈ rest, x ∈ S j} := by
        ext x
        simp only [Set.mem_ofPred_eq, List.mem_cons, exists_eq_or_imp, hnone, Set.mem_empty_iff_false, false_or]
      rw [hsame]
      exact ih htail
    · rw [if_pos hne]
      refine Or.inr ⟨hne, ⟨i, List.mem_cons_self, hleast.1⟩, ?_⟩
      rintro y ⟨j, hj, hy⟩
      rcases List.mem_cons.1 hj with rfl | hj
      · exact hleast.2 hy
      · exact hord i j (hhead j hj) _ hleast.1 _ hy

/-! ## Addresses below a table -/

theorem levelShift_succ (l : ℕ) : 2 ^ levelShift (l + 1) = 2 ^ levelShift l * 512 := by
  rw [levelShift, levelShift, show 12 + 9 * (l + 1) = 12 + 9 * l + 9 by ring, pow_add]
  norm_num

variable {l base va g : ℕ} {i : Fin 512}

theorem join_eq_add (hb : 2 ^ levelShift (l + 1) ∣ base) (i : Fin 512) :
    base ||| i.val <<< levelShift l = base + i.val * 2 ^ levelShift l := by
  obtain ⟨b, rfl⟩ := hb
  have hlt : i.val <<< levelShift l < 2 ^ levelShift (l + 1) := by
    rw [Nat.shiftLeft_eq, levelShift_succ, Nat.mul_comm]
    exact Nat.mul_lt_mul_of_pos_left i.isLt (Nat.two_pow_pos _)
  rw [Nat.mul_comm, ← Nat.shiftLeft_eq, ← Nat.shiftLeft_add_eq_or_of_lt hlt, Nat.shiftLeft_eq, Nat.shiftLeft_eq]

theorem levelIndex_iff (hb : 2 ^ levelShift (l + 1) ∣ base)
    (hva : base ≤ va ∧ va < base + 2 ^ levelShift (l + 1)) (i : Fin 512) :
    levelIndex va l = i ↔
      base + i.val * 2 ^ levelShift l ≤ va ∧ va < base + i.val * 2 ^ levelShift l + 2 ^ levelShift l := by
  obtain ⟨b, rfl⟩ := hb
  have hpos : 0 < 2 ^ levelShift l := Nat.two_pow_pos _
  have hs := levelShift_succ l
  have hlow : 512 * b ≤ va / 2 ^ levelShift l := by
    rw [Nat.le_div_iff_mul_le hpos]
    calc 512 * b * 2 ^ levelShift l = 2 ^ levelShift (l + 1) * b := by rw [hs]; ring
      _ ≤ va := hva.1
  have hhigh : va / 2 ^ levelShift l < 512 * b + 512 := by
    rw [Nat.div_lt_iff_lt_mul hpos]
    calc va < 2 ^ levelShift (l + 1) * b + 2 ^ levelShift (l + 1) := hva.2
      _ = (512 * b + 512) * 2 ^ levelShift l := by rw [hs]; ring
  have hidx : levelIndex va l = i ↔ va / 2 ^ levelShift l = 512 * b + i.val := by
    rw [Fin.ext_iff, levelIndex]
    have := i.isLt
    show va / 2 ^ levelShift l % 512 = i.val ↔ _
    omega
  rw [hidx, Nat.div_eq_iff hpos]
  have heq : 2 ^ levelShift (l + 1) * b + i.val * 2 ^ levelShift l = (512 * b + i.val) * 2 ^ levelShift l := by
    rw [hs]
    ring
  rw [heq]
  constructor
  · rintro ⟨h₁, h₂⟩
    exact ⟨h₁, by omega⟩
  · rintro ⟨h₁, h₂⟩
    exact ⟨h₁, by omega⟩

/-! ## What the scan finds -/

def Hit (a : Arch) (h : Heap 512 Word) (target : Word) (s : ℕ × Fin 512) : Prop :=
  a.ptePresent (h s.1 s.2) = true ∧ a.pteAddr (h s.1 s.2) = target

def hits (a : Arch) (h : Heap 512 Word) (target : Word) (l g base : ℕ) : Set ℕ :=
  {va | pgSize ∣ va ∧ (base ≤ va ∧ va < base + 2 ^ levelShift (l + 1)) ∧
    ∃ s, slot a.tableOf h (levelIndex va) l g = some s ∧ Hit a h target s}

def hitsBelow (a : Arch) (h : Heap 512 Word) (target : Word) (l g base : ℕ) (i : Fin 512) : Set ℕ :=
  (a.tableOf (h g i)).elim ∅ fun c => hits a h target l c (base + i.val * 2 ^ levelShift (l + 1))

/-- What a scan can find: if there is a hit at 0, those of the first leaf table stay hidden. -/
def visible (S : Set ℕ) : Set ℕ := {va | va ∈ S ∧ (0 ∈ S → 2 ^ levelShift 1 ≤ va)}

theorem zero_notMem_visible (S : Set ℕ) : 0 ∉ visible S := fun hz => absurd (hz.2 hz.1) (by decide)

theorem visible_of_notMem {S : Set ℕ} (hz : 0 ∉ S) : visible S = S := by
  ext va
  exact ⟨fun hva => hva.1, fun hva => ⟨hva, fun hS => absurd hS hz⟩⟩

theorem hitsBelow_bounds {x : ℕ} (hx : x ∈ hitsBelow a h target l g base i) :
    base + i.val * 2 ^ levelShift (l + 1) ≤ x ∧ x < base + (i.val + 1) * 2 ^ levelShift (l + 1) := by
  rw [hitsBelow] at hx
  cases hg : a.tableOf (h g i) with
  | none =>
    rw [hg] at hx
    exact absurd hx (Set.notMem_empty x)
  | some c =>
    rw [hg] at hx
    have hb := hx.2.1
    rw [Nat.add_mul, Nat.one_mul, ← Nat.add_assoc]
    exact hb

theorem hitsBelow_ordered {j : Fin 512} (hij : i < j) :
    ∀ x ∈ hitsBelow a h target l g base i, ∀ y ∈ hitsBelow a h target l g base j, x ≤ y := by
  intro x hx y hy
  have hle : (i.val + 1) * 2 ^ levelShift (l + 1) ≤ j.val * 2 ^ levelShift (l + 1) := Nat.mul_le_mul_right _ hij
  have hxb := hitsBelow_bounds hx
  have hyb := hitsBelow_bounds hy
  omega

theorem mem_hits_succ (hb : 2 ^ levelShift (l + 2) ∣ base) :
    va ∈ hits a h target (l + 1) g base ↔ ∃ i, va ∈ hitsBelow a h target l g base i := by
  have hs : 2 ^ levelShift (l + 2) = 2 ^ levelShift (l + 1) * 512 := levelShift_succ (l + 1)
  constructor
  · rintro ⟨hdvd, hrange, s, hslot, hhit⟩
    obtain ⟨hlow, hhigh⟩ := (levelIndex_iff hb hrange (levelIndex va (l + 1))).1 rfl
    refine ⟨levelIndex va (l + 1), ?_⟩
    rw [slot] at hslot
    rw [hitsBelow]
    cases hg : a.tableOf (h g (levelIndex va (l + 1))) with
    | none =>
      rw [hg] at hslot
      cases hslot
    | some c =>
      rw [hg] at hslot
      exact ⟨hdvd, ⟨hlow, hhigh⟩, s, hslot, hhit⟩
  · rintro ⟨i, hva⟩
    have hbounds := hitsBelow_bounds hva
    have hi : (i.val + 1) * 2 ^ levelShift (l + 1) ≤ 512 * 2 ^ levelShift (l + 1) := Nat.mul_le_mul_right _ i.isLt
    have hrange : base ≤ va ∧ va < base + 2 ^ levelShift (l + 2) := by
      rw [hs]
      omega
    have hidx : levelIndex va (l + 1) = i := by
      rw [levelIndex_iff hb hrange]
      rw [Nat.add_mul] at hbounds
      omega
    rw [hitsBelow] at hva
    cases hg : a.tableOf (h g i) with
    | none =>
      rw [hg] at hva
      exact absurd hva (Set.notMem_empty va)
    | some c =>
      rw [hg] at hva
      obtain ⟨hdvd, -, s, hslot, hhit⟩ := hva
      refine ⟨hdvd, hrange, s, ?_, hhit⟩
      rw [slot, hidx, hg]
      exact hslot

theorem visible_below (entries : List (Fin 512)) :
    visible {x | ∃ i ∈ entries, x ∈ hitsBelow a h target l g base i} =
      {x | ∃ i ∈ entries, x ∈ visible (hitsBelow a h target l g base i)} := by
  have hpos : 0 < 2 ^ levelShift (l + 1) := Nat.two_pow_pos _
  have hsmall : 2 ^ levelShift 1 ≤ 2 ^ levelShift (l + 1) :=
    Nat.pow_le_pow_right (by decide) (by rw [levelShift, levelShift]; omega)
  ext x
  constructor
  · rintro ⟨⟨i, hi, hx⟩, hbig⟩
    exact ⟨i, hi, hx, fun hz => hbig ⟨i, hi, hz⟩⟩
  · rintro ⟨i, hi, hx, hbig⟩
    refine ⟨⟨i, hi, hx⟩, ?_⟩
    rintro ⟨j, hj, hz⟩
    by_cases hij : j = i
    · exact hbig (hij ▸ hz)
    · have hzb := (hitsBelow_bounds hz).1
      have hxb := (hitsBelow_bounds hx).1
      have hjz : j.val = 0 := by
        by_contra hne
        have : 1 * 2 ^ levelShift (l + 1) ≤ j.val * 2 ^ levelShift (l + 1) :=
          Nat.mul_le_mul_right _ (Nat.one_le_iff_ne_zero.2 hne)
        omega
      have hiz : i.val ≠ 0 := fun h0 => hij (Fin.ext (hjz.trans h0.symm))
      have : 1 * 2 ^ levelShift (l + 1) ≤ i.val * 2 ^ levelShift (l + 1) :=
        Nat.mul_le_mul_right _ (Nat.one_le_iff_ne_zero.2 hiz)
      omega

theorem find?_least {entries : List (Fin 512)} {q : Fin 512 → Bool}
    (hsorted : entries.Pairwise (· < ·)) (hf : entries.find? q = some i) : ∀ j ∈ entries, q j = true → i ≤ j := by
  induction entries with
  | nil => cases hf
  | cons k rest ih =>
    obtain ⟨hhead, htail⟩ := List.pairwise_cons.1 hsorted
    intro j hj hq
    rw [List.find?_cons] at hf
    cases hk : q k with
    | true =>
      rw [hk] at hf
      cases hf
      rcases List.mem_cons.1 hj with rfl | hj
      · exact le_rfl
      · exact (hhead j hj).le
    | false =>
      rw [hk] at hf
      rcases List.mem_cons.1 hj with rfl | hj
      · exact absurd hq (by rw [hk]; decide)
      · exact ih htail hf j hj hq

theorem mem_pageTableEntries (i : Fin 512) : i ∈ pageTableEntries := by
  rw [pageTableEntries]
  exact List.mem_finRange i

theorem pageTableEntries_sorted : pageTableEntries.Pairwise (· < ·) := List.pairwise_lt_finRange 512

theorem mem_hits_zero (hb : 2 ^ levelShift (0 + 1) ∣ base) :
    va ∈ hits a h target 0 g base ↔ ∃ i, va = base + i.val * 2 ^ levelShift 0 ∧ Hit a h target (g, i) := by
  constructor
  · rintro ⟨⟨k, hk⟩, hrange, s, hslot, hhit⟩
    cases hslot
    refine ⟨levelIndex va 0, ?_, hhit⟩
    have hbounds := (levelIndex_iff hb hrange (levelIndex va 0)).1 rfl
    obtain ⟨b, rfl⟩ := hb
    rw [pgSize] at hk
    simp only [levelShift, Nat.mul_zero, Nat.add_zero, Nat.reducePow, Nat.reduceAdd, Nat.reduceMul] at hbounds ⊢
    omega
  · rintro ⟨i, rfl, hhit⟩
    have hi := i.isLt
    have hrange : base ≤ base + i.val * 2 ^ levelShift 0 ∧
        base + i.val * 2 ^ levelShift 0 < base + 2 ^ levelShift (0 + 1) := by
      simp only [levelShift, Nat.mul_zero, Nat.add_zero, Nat.reducePow, Nat.reduceAdd, Nat.reduceMul]
      omega
    have hidx : levelIndex (base + i.val * 2 ^ levelShift 0) 0 = i := by
      rw [levelIndex_iff hb hrange]
      exact ⟨le_rfl, Nat.lt_add_of_pos_right (Nat.two_pow_pos _)⟩
    refine ⟨?_, hrange, (g, i), ?_, hhit⟩
    · have hpg : pgSize = 2 ^ levelShift 0 := by decide
      rw [hpg]
      exact Nat.dvd_add (Dvd.dvd.trans (by decide) hb) (Nat.dvd_mul_left _ _)
    · rw [slot, hidx]

theorem scanLeaf_least (hb : 2 ^ levelShift (0 + 1) ∣ base) :
    LeastOrZero (visible (hits a h target 0 g base)) (scanPtForPa a h target 0 g base) := by
  unfold scanPtForPa
  cases hf : pageTableEntries.find? fun i => a.ptePresent (h g i) && a.pteAddr (h g i) == target with
  | none =>
    refine Or.inl ⟨rfl, Set.eq_empty_of_forall_notMem ?_⟩
    rintro va ⟨hva, -⟩
    obtain ⟨i, -, hp, ht⟩ := (mem_hits_zero hb).1 hva
    have hnone := List.find?_eq_none.1 hf i (mem_pageTableEntries i)
    rw [Bool.and_eq_true, beq_iff_eq] at hnone
    exact hnone ⟨hp, ht⟩
  | some i =>
    have hmatch := List.find?_some hf
    rw [Bool.and_eq_true, beq_iff_eq] at hmatch
    have hself : base + i.val * 2 ^ levelShift 0 ∈ hits a h target 0 g base :=
      (mem_hits_zero hb).2 ⟨i, rfl, hmatch⟩
    have hleast : ∀ va ∈ hits a h target 0 g base, base + i.val * 2 ^ levelShift 0 ≤ va := by
      intro va hva
      obtain ⟨j, rfl, hp, ht⟩ := (mem_hits_zero hb).1 hva
      have hle := find?_least pageTableEntries_sorted hf j (mem_pageTableEntries j) (by
        rw [Bool.and_eq_true, beq_iff_eq]
        exact ⟨hp, ht⟩)
      exact Nat.add_le_add_left (Nat.mul_le_mul_right _ hle) _
    simp only [join_eq_add hb]
    by_cases hz : base + i.val * 2 ^ levelShift 0 = 0
    · -- the match is at address 0: every other hit of this table is hidden
      refine Or.inl ⟨hz, Set.eq_empty_of_forall_notMem ?_⟩
      rintro va ⟨hva, hbig⟩
      rw [hz] at hself
      have hrange := hva.2.1.2
      have hle := hbig hself
      rw [Nat.zero_add] at hrange
      omega
    · refine Or.inr ⟨hz, ?_⟩
      rw [visible_of_notMem]
      · exact ⟨hself, hleast⟩
      · intro h0
        exact hz (Nat.le_zero.1 (hleast 0 h0))

theorem scanBelow_least (hb : 2 ^ levelShift (l + 2) ∣ base) {entries : List (Fin 512)}
    (hsorted : entries.Pairwise (· < ·))
    (hchild : ∀ c base, 2 ^ levelShift (l + 1) ∣ base →
      LeastOrZero (visible (hits a h target l c base)) (scanPtForPa a h target l c base)) :
    LeastOrZero (visible {x | ∃ i ∈ entries, x ∈ hitsBelow a h target l g base i})
      (scanTable entries fun i =>
        match a.tableOf (h g i) with
        | none => 0
        | some c => scanPtForPa a h target l c (base ||| i.val <<< levelShift (l + 1))) := by
  rw [visible_below]
  refine scanTable_least hsorted ?_ ?_
  · intro i j hij x hx y hy
    exact hitsBelow_ordered hij x hx.1 y hy.1
  · intro i
    rw [hitsBelow]
    cases hg : a.tableOf (h g i) with
    | none => exact Or.inl ⟨rfl, Set.eq_empty_of_forall_notMem fun x hx => Set.notMem_empty x hx.1⟩
    | some c =>
      simp only [Option.elim_some]
      rw [join_eq_add hb]
      refine hchild c _ (Nat.dvd_add ?_ (Nat.dvd_mul_left _ _))
      exact Dvd.dvd.trans (Dvd.intro _ (levelShift_succ (l + 1)).symm) hb

theorem scanPtForPa_least (hb : 2 ^ levelShift (l + 1) ∣ base) :
    LeastOrZero (visible (hits a h target l g base)) (scanPtForPa a h target l g base) := by
  induction l generalizing g base with
  | zero => exact scanLeaf_least hb
  | succ l ih =>
    have hset : hits a h target (l + 1) g base = {x | ∃ i ∈ pageTableEntries, x ∈ hitsBelow a h target l g base i} := by
      ext va
      rw [mem_hits_succ hb]
      exact ⟨fun ⟨i, hi⟩ => ⟨i, mem_pageTableEntries i, hi⟩, fun ⟨i, _, hi⟩ => ⟨i, hi⟩⟩
    rw [hset]
    unfold scanPtForPa
    exact scanBelow_least hb pageTableEntries_sorted fun c base hb => ih hb

/-! ## The lookup -/

def userHits (a : Arch) (h : Heap 512 Word) (target : Word) (r : ℕ) : Set ℕ :=
  {va | pgSize ∣ va ∧ va < a.userSpaceTop ∧
    ∃ s, slot a.tableOf h (levelIndex va) (a.ptWalkLevels - 1) r = some s ∧ Hit a h target s}

theorem userSpaceTop_eq (a : Arch) : a.userSpaceTop = 256 * 2 ^ levelShift (a.top + 1) := by
  cases a <;> rfl

theorem userTopEntries_sorted : userTopEntries.Pairwise (· < ·) :=
  pageTableEntries_sorted.sublist List.filter_sublist

theorem mem_userTopEntries : i ∈ userTopEntries ↔ i.val < 256 := by
  rw [userTopEntries, List.mem_filter, userTop, decide_eq_true_eq]
  exact and_iff_right (mem_pageTableEntries i)

theorem userHits_eq (a : Arch) (h : Heap 512 Word) (target : Word) (r : ℕ) :
    userHits a h target r = {x | ∃ i ∈ userTopEntries, x ∈ hitsBelow a h target a.top r 0 i} := by
  have hs : 2 ^ levelShift (a.top + 2) = 2 ^ levelShift (a.top + 1) * 512 := levelShift_succ (a.top + 1)
  have hpos : 0 < 2 ^ levelShift (a.top + 1) := Nat.two_pow_pos _
  ext va
  constructor
  · rintro ⟨hdvd, htop, hslot⟩
    rw [userSpaceTop_eq] at htop
    rw [ptWalkLevels_eq] at hslot
    obtain ⟨i, hi⟩ := (mem_hits_succ (Nat.dvd_zero _)).1 ⟨hdvd, ⟨Nat.zero_le va, by
      rw [hs]
      omega⟩, hslot⟩
    refine ⟨i, mem_userTopEntries.2 ?_, hi⟩
    have hlow := (hitsBelow_bounds hi).1
    have hlt : i.val * 2 ^ levelShift (a.top + 1) < 256 * 2 ^ levelShift (a.top + 1) := by omega
    exact Nat.lt_of_mul_lt_mul_right hlt
  · rintro ⟨i, hi, hva⟩
    have hhigh := (hitsBelow_bounds hva).2
    have hle : (i.val + 1) * 2 ^ levelShift (a.top + 1) ≤ 256 * 2 ^ levelShift (a.top + 1) :=
      Nat.mul_le_mul_right _ (mem_userTopEntries.1 hi)
    obtain ⟨hdvd, -, hslot⟩ := (mem_hits_succ (Nat.dvd_zero _)).2 ⟨i, hva⟩
    refine ⟨hdvd, ?_, ?_⟩
    · rw [userSpaceTop_eq]
      omega
    · rw [ptWalkLevels_eq]
      exact hslot

theorem findVaForPage_least (a : Arch) (r page : ℕ) (v : State) :
    LeastOrZero (visible (userHits a v.pmm.mem (pageToPhys page) r)) (findVaForPage a r page v) := by
  have hbelow : ∀ c base, 2 ^ levelShift (a.top + 1) ∣ base →
      LeastOrZero (visible (hits a v.pmm.mem (pageToPhys page) a.top c base))
        (scanPtForPa a v.pmm.mem (pageToPhys page) a.top c base) := fun c base hb => scanPtForPa_least hb
  have hscan := scanBelow_least (g := r) (Nat.dvd_zero _) userTopEntries_sorted hbelow
  rw [userHits_eq]
  simp only [Nat.zero_or] at hscan
  exact hscan

/-! ## What the hardware makes of it -/

theorem translateWith_pa (lim : Word → Limits) {f : ℕ} {s : ℕ × Fin 512}
    (hs : slot a.tableOf h (levelIndex va) l f = some s) :
    (translateWith a lim h va l f).map Mapping.pa =
      if a.ptePresent (h s.1 s.2) then some ((a.pteAddr (h s.1 s.2)).toNat + va % pgSize) else none := by
  induction l generalizing f with
  | zero =>
    cases hs
    rw [translateWith]
    cases a.ptePresent (h f (levelIndex va 0)) with
    | false => rfl
    | true =>
      simp only [if_true, Option.map_some, leafMapping, a.leafBase_zero]
      rfl
  | succ l ih =>
    rw [slot] at hs
    cases hg : a.tableOf (h f (levelIndex va (l + 1))) with
    | none =>
      rw [hg] at hs
      cases hs
    | some g =>
      rw [hg] at hs
      rw [translateWith_child hg, Option.map_map]
      exact ih hs

theorem pteAddr_mod (a : Arch) (w : Word) : (a.pteAddr w).toNat % pgSize = 0 := by
  rw [← a.leafBase_zero, Arch.leafBase, Zonix.Lib.Bits.toNat_and_not_lowMask]
  exact Nat.mul_mod_left _ _

theorem pteAddr_eq_iff {w : Word} {page : ℕ} (hp : page < 2 ^ 52) :
    ((a.pteAddr w).toNat + va % pgSize) / pgSize = page ↔ a.pteAddr w = pageToPhys page := by
  have hmod := pteAddr_mod a w
  have hval : (pageToPhys page).toNat = page * pgSize := by
    unfold pageToPhys pgSize
    rw [BitVec.toNat_ofNat, Nat.mod_eq_of_lt (by omega)]
  rw [BitVec.toNat_eq, hval]
  unfold pgSize at hmod ⊢
  omega

/-- A user address that is translated into the frame, whatever the size of the leaf. -/
def MapsFrame (a : Arch) (h : Heap 512 Word) (r page va : ℕ) : Prop :=
  va < a.userSpaceTop ∧ ∃ x, translate a h r va = some x ∧ x.pa / pgSize = page

/-- The frame is mapped by 4 KiB leaves only: wherever it is mapped the walk reaches a leaf table. -/
def SmallLeaves (a : Arch) (h : Heap 512 Word) (r page : ℕ) : Prop :=
  ∀ va, MapsFrame a h r page va → (slot a.tableOf h (levelIndex va) (a.ptWalkLevels - 1) r).isSome = true

theorem mem_userHits {r page : ℕ} (hp : page < 2 ^ 52) (hsmall : SmallLeaves a h r page) :
    va ∈ userHits a h (pageToPhys page) r ↔ pgSize ∣ va ∧ MapsFrame a h r page va := by
  constructor
  · rintro ⟨hdvd, htop, s, hs, hpres, haddr⟩
    have hpa := translateWith_pa a.limits hs
    rw [hpres, if_pos rfl] at hpa
    obtain ⟨x, hx, hxpa⟩ := Option.map_eq_some_iff.1 hpa
    exact ⟨hdvd, htop, x, hx, by rw [hxpa, pteAddr_eq_iff hp]; exact haddr⟩
  · rintro ⟨hdvd, hmaps⟩
    obtain ⟨s, hs⟩ := Option.isSome_iff_exists.1 (hsmall va hmaps)
    obtain ⟨htop, x, hx, hxpa⟩ := hmaps
    have hpa := translateWith_pa a.limits hs
    rw [show translateWith a a.limits h va (a.ptWalkLevels - 1) r = some x from hx, Option.map_some] at hpa
    refine ⟨hdvd, htop, s, hs, ?_⟩
    cases hpres : a.ptePresent (h s.1 s.2) with
    | false =>
      rw [hpres] at hpa
      cases hpa
    | true =>
      rw [hpres, if_pos rfl, Option.some.injEq] at hpa
      rw [hpa] at hxpa
      exact ⟨hpres, (pteAddr_eq_iff hp).1 hxpa⟩

/-- `find_va_for_page` inverts the table: its result is the lowest non-zero page address that maps the frame, 0 just
when there is none, and the walk for a non-zero result ends at the entry that holds the frame. -/
structure Inverts (a : Arch) (E : Env) (r page : ℕ) (v : State) : Prop where
  zero : findVaForPage a r page v = 0 ↔ ∀ va, va ≠ 0 → pgSize ∣ va → ¬MapsFrame a v.pmm.mem r page va
  maps : findVaForPage a r page v ≠ 0 → MapsFrame a v.pmm.mem r page (findVaForPage a r page v)
  lowest : findVaForPage a r page v ≠ 0 →
    ∀ va, va ≠ 0 → pgSize ∣ va → MapsFrame a v.pmm.mem r page va → findVaForPage a r page v ≤ va
  entry : findVaForPage a r page v ≠ 0 → ∃ s, getPte a E r (findVaForPage a r page v) false v.pmm = (some s, v.pmm) ∧
    a.ptePresent (v.pmm.mem s.1 s.2) = true ∧ a.pteAddr (v.pmm.mem s.1 s.2) = pageToPhys page

/-- Two pages of the first leaf table map the frame, one of them at address 0. -/
def Shadowed (a : Arch) (h : Heap 512 Word) (r page : ℕ) : Prop :=
  MapsFrame a h r page 0 ∧ ∃ va, va ≠ 0 ∧ pgSize ∣ va ∧ va < 2 ^ levelShift 1 ∧ MapsFrame a h r page va

theorem getPte_of_userHits (E : Env) {v : State} {r : ℕ} (hva : va ∈ userHits a v.pmm.mem target r) :
    ∃ s, getPte a E r va false v.pmm = (some s, v.pmm) ∧ Hit a v.pmm.mem target s := by
  obtain ⟨-, -, s, hs, hhit⟩ := hva
  exact ⟨s, by rw [getPte, getPteFrom_lookup, hs], hhit⟩

theorem find_va_inverts (a : Arch) (E : Env) (v : State) (r page : ℕ) (hp : page < 2 ^ 52)
    (hsmall : SmallLeaves a v.pmm.mem r page) :
    Inverts a E r page v ↔ ¬Shadowed a v.pmm.mem r page := by
  have hmem : ∀ va, va ∈ userHits a v.pmm.mem (pageToPhys page) r ↔ pgSize ∣ va ∧ MapsFrame a v.pmm.mem r page va :=
    fun _ => mem_userHits hp hsmall
  have hleast := findVaForPage_least a r page v
  constructor
  · rintro hinv ⟨hzero, va, hne, hdvd, hlt, hmaps⟩
    have h0 : 0 ∈ userHits a v.pmm.mem (pageToPhys page) r := (hmem 0).2 ⟨Nat.dvd_zero _, hzero⟩
    obtain ⟨hres, -⟩ | ⟨hres, hin, -⟩ := hleast
    · exact hinv.zero.1 hres va hne hdvd hmaps
    · have hle := hinv.lowest hres va hne hdvd hmaps
      have hbig := hin.2 h0
      omega
  · intro hshadow
    -- nothing but address 0 is hidden
    have hvis : ∀ va, va ∈ visible (userHits a v.pmm.mem (pageToPhys page) r) ↔
        va ≠ 0 ∧ pgSize ∣ va ∧ MapsFrame a v.pmm.mem r page va := by
      intro va
      constructor
      · intro hva
        refine ⟨fun h0 => zero_notMem_visible _ (h0 ▸ hva), (hmem va).1 hva.1⟩
      · rintro ⟨hne, hdvd, hmaps⟩
        refine ⟨(hmem va).2 ⟨hdvd, hmaps⟩, fun h0 => ?_⟩
        by_contra hlt
        exact hshadow ⟨((hmem 0).1 h0).2, va, hne, hdvd, Nat.lt_of_not_le hlt, hmaps⟩
    obtain ⟨hres, hnone⟩ | ⟨hres, hin, hlow⟩ := hleast
    · refine ⟨⟨fun _ va hne hdvd hmaps => ?_, fun _ => hres⟩, fun h => absurd hres h, fun h => absurd hres h,
        fun h => absurd hres h⟩
      exact Set.notMem_empty va (hnone ▸ (hvis va).2 ⟨hne, hdvd, hmaps⟩)
    · obtain ⟨hne, hdvd, hmaps⟩ := (hvis _).1 hin
      refine ⟨⟨fun h => absurd h hres, fun h => absurd hmaps (h _ hne hdvd)⟩, fun _ => hmaps, ?_, fun _ => ?_⟩
      · exact fun _ va hne hdvd hmaps => hlow ((hvis va).2 ⟨hne, hdvd, hmaps⟩)
      · exact getPte_of_userHits E hin.1

/-! ## A table of three levels -/

def threeLevels (here : Fin 512 → Bool) : Heap 512 Word := fun f i =>
  if f = 1 ∧ i = 0 then Arch.riscv64.makePteTable (pageToPhys 2)
  else if f = 2 ∧ i = 0 then Arch.riscv64.makePteTable (pageToPhys 3)
  else if f = 3 ∧ here i then Arch.riscv64.makePtePage (pageToPhys 7) (userPagePerm true false)
  else 0

def threeLevelState (here : Fin 512 → Bool) : State where
  pmm := ⟨threeLevels here, 0, fun _ => 0, fun _ => false, fun _ => false, fun _ => 0, 8, 0, false⟩
  kernelPgdir := 0
  spaces := {1}
  queue := fun _ => []
  device := true
  slotLimit := 2
  nextSlot := 1
  occupied := fun _ => false
  disk := fun _ _ => 0
  ioClock := 0

theorem threeLevels_root (here : Fin 512 → Bool) (hi : i ≠ 0) : threeLevels here 1 i = 0 := by
  simp [threeLevels, hi]

theorem threeLevels_middle (here : Fin 512 → Bool) (hi : i ≠ 0) : threeLevels here 2 i = 0 := by
  simp [threeLevels, hi]

theorem translateWith_zero {lim : Word → Limits} {f : ℕ} (hw : h f (levelIndex va (l + 1)) = 0) :
    translateWith a lim h va (l + 1) f = none := by
  rw [translateWith_missing (by rw [hw]; exact tableOf_zero a), hw, a.ptePresent_zero]
  rfl

theorem smallLeaves_threeLevels (here : Fin 512 → Bool) (page : ℕ) :
    SmallLeaves .riscv64 (threeLevels here) 1 page := by
  have hroot : Arch.riscv64.tableOf (threeLevels here 1 0) = some 2 := tableOf_makePteTable _ (by decide)
  have hmiddle : Arch.riscv64.tableOf (threeLevels here 2 0) = some 3 := tableOf_makePteTable _ (by decide)
  rintro va ⟨-, x, hx, -⟩
  change translateWith .riscv64 _ (threeLevels here) va 2 1 = some x at hx
  show (slot Arch.riscv64.tableOf (threeLevels here) (levelIndex va) 2 1).isSome = true
  by_cases h2 : levelIndex va 2 = 0
  · rw [translateWith_child (g := 2) (by rw [h2]; exact hroot)] at hx
    by_cases h1 : levelIndex va 1 = 0
    · simp only [slot, h2, h1, hroot, hmiddle, Option.elim_some, Option.isSome_some]
    · rw [translateWith_zero (threeLevels_middle here h1)] at hx
      cases hx
  · rw [translateWith_zero (threeLevels_root here h2)] at hx
    cases hx

/-- The frame is mapped at 0 and at 0x1000, and the lookup finds neither. -/
theorem find_va_misses_second_page :
    SmallLeaves .riscv64 (threeLevelState (· < 2)).pmm.mem 1 7 ∧
      MapsFrame .riscv64 (threeLevelState (· < 2)).pmm.mem 1 7 0x1000 ∧
      findVaForPage .riscv64 1 7 (threeLevelState (· < 2)) = 0 := by
  have hpage : (translate .riscv64 (threeLevelState (· < 2)).pmm.mem 1 0x1000).map (·.pa / pgSize) = some 7 := by
    decide +kernel
  refine ⟨smallLeaves_threeLevels _ _, ⟨by decide, ?_⟩, by decide +kernel⟩
  exact Option.map_eq_some_iff.1 hpage

theorem find_va_inverts_second_page :
    Inverts .riscv64 ⟨fun _ _ _ => none, fun _ => none, fun _ => none⟩ 1 7 (threeLevelState (· == 1)) ∧
      findVaForPage .riscv64 1 7 (threeLevelState (· == 1)) = 0x1000 := by
  have hzero : translate .riscv64 (threeLevelState (· == 1)).pmm.mem 1 0 = none := by decide +kernel
  have hsmall : SmallLeaves .riscv64 (threeLevelState (· == 1)).pmm.mem 1 7 := smallLeaves_threeLevels (· == 1) 7
  refine ⟨(find_va_inverts .riscv64 _ (threeLevelState (· == 1)) 1 7 (by norm_num) hsmall).2 ?_, by decide +kernel⟩
  rintro ⟨⟨-, x, hx, -⟩, -⟩
  rw [hzero] at hx
  cases hx

end Zonix.Vm
