import Mathlib
import Zonix.Vm.SwapIn

/-!
# Tearing an address space down

`free_user_pgdir`: what the recursion over the tables gives back is what the address space owned, each frame and each
slot once. `Held` is what the code needs of the frames and slots still to come, `Released` what it has done so far.
-/

namespace Zonix.Vm

open Zonix.Lib.Radix

variable {a : Arch} {pool : Multiset ℕ} {v v' : State} {r : ℕ} {F F' S S' : Multiset ℕ}

structure Held (F S : Multiset ℕ) (v : State) : Prop where
  nodup : F.Nodup
  refs : ∀ f ∈ F, v.pmm.refCount f = 1
  slotsNodup : S.Nodup
  inUse : ∀ s ∈ S, v.device = true ∧ (0 < s ∧ s < v.slotLimit) ∧ v.occupied s = true

/-- The frames `F` went back to the allocator and the slots `S` were released. -/
structure Released (F S : Multiset ℕ) (v v' : State) : Prop where
  free : v'.pmm.free = F + v.pmm.free
  mem : v'.pmm.mem = v.pmm.mem
  refCount : ∀ g, v'.pmm.refCount g = if g ∈ F then 0 else v.pmm.refCount g
  blockPages : v'.pmm.blockPages = v.pmm.blockPages
  panicked : v'.pmm.panicked = v.pmm.panicked
  occupied : ∀ s, v'.occupied s = if s ∈ S then false else v.occupied s
  queue : ∀ r, (∀ f ∈ F, f ∉ v.queue r) → v'.queue r = v.queue r
  spaces : v'.spaces = v.spaces
  kernelPgdir : v'.kernelPgdir = v.kernelPgdir
  device : v'.device = v.device
  slotLimit : v'.slotLimit = v.slotLimit
  nextSlot : v'.nextSlot = v.nextSlot
  disk : v'.disk = v.disk
  ioClock : v'.ioClock = v.ioClock

theorem Released.refl : Released 0 0 v v where
  free := (zero_add _).symm
  mem := rfl
  refCount _ := rfl
  blockPages := rfl
  panicked := rfl
  occupied _ := rfl
  queue _ _ := rfl
  spaces := rfl
  kernelPgdir := rfl
  device := rfl
  slotLimit := rfl
  nextSlot := rfl
  disk := rfl
  ioClock := rfl

theorem Released.trans {v'' : State} (h₁ : Released F S v v') (h₂ : Released F' S' v' v'') :
    Released (F + F') (S + S') v v'' where
  free := by
    rw [h₂.free, h₁.free]
    abel
  mem := h₂.mem.trans h₁.mem
  refCount g := by
    rw [h₂.refCount, h₁.refCount]
    by_cases hF : g ∈ F
    · simp [hF]
    · simp [hF]
  blockPages := h₂.blockPages.trans h₁.blockPages
  panicked := h₂.panicked.trans h₁.panicked
  occupied s := by
    rw [h₂.occupied, h₁.occupied]
    by_cases hS : s ∈ S
    · simp [hS]
    · simp [hS]
  queue r hr := by
    have h1 := h₁.queue r fun f hf => hr f (Multiset.mem_add.2 (Or.inl hf))
    rw [← h1]
    apply h₂.queue r
    rw [h1]
    exact fun f hf => hr f (Multiset.mem_add.2 (Or.inr hf))
  spaces := h₂.spaces.trans h₁.spaces
  kernelPgdir := h₂.kernelPgdir.trans h₁.kernelPgdir
  device := h₂.device.trans h₁.device
  slotLimit := h₂.slotLimit.trans h₁.slotLimit
  nextSlot := h₂.nextSlot.trans h₁.nextSlot
  disk := h₂.disk.trans h₁.disk
  ioClock := h₂.ioClock.trans h₁.ioClock

theorem Held.left (h : Held (F + F') (S + S') v) : Held F S v where
  nodup := (Multiset.nodup_add.1 h.nodup).1
  refs f hf := h.refs f (Multiset.mem_add.2 (Or.inl hf))
  slotsNodup := (Multiset.nodup_add.1 h.slotsNodup).1
  inUse s hs := h.inUse s (Multiset.mem_add.2 (Or.inl hs))

theorem Held.rest (h : Held (F + F') (S + S') v) (hrel : Released F S v v') : Held F' S' v' where
  nodup := (Multiset.nodup_add.1 h.nodup).2.1
  refs f hf := by
    rw [hrel.refCount, if_neg fun hF => Multiset.disjoint_left.1 (Multiset.nodup_add.1 h.nodup).2.2 hF hf]
    exact h.refs f (Multiset.mem_add.2 (Or.inr hf))
  slotsNodup := (Multiset.nodup_add.1 h.slotsNodup).2.1
  inUse s hs := by
    rw [hrel.device, hrel.slotLimit, hrel.occupied,
      if_neg fun hS => Multiset.disjoint_left.1 (Multiset.nodup_add.1 h.slotsNodup).2.2 hS hs]
    exact h.inUse s (Multiset.mem_add.2 (Or.inr hs))

theorem foldl_released {step : State → Fin 512 → State} {frame share : Fin 512 → Multiset ℕ} (is : List (Fin 512))
    (hstep : ∀ i ∈ is, ∀ u, u.pmm.mem = v.pmm.mem → u.slotLimit = v.slotLimit → Held (frame i) (share i) u →
      Released (frame i) (share i) u (step u i))
    (hheld : Held (is.map frame).sum (is.map share).sum v) :
    Released (is.map frame).sum (is.map share).sum v (is.foldl step v) := by
  induction is generalizing v with
  | nil => exact Released.refl
  | cons i rest ih =>
    rw [List.map_cons, List.map_cons, List.sum_cons, List.sum_cons] at hheld ⊢
    have hone := hstep i List.mem_cons_self v rfl rfl hheld.left
    apply hone.trans
    apply ih _ (hheld.rest hone)
    intro j hj u hm hl
    exact hstep j (List.mem_cons_of_mem i hj) u (hm.trans hone.mem) (hl.trans hone.slotLimit)

/-! ## One entry -/

theorem releaseEntry_released {slot : ℕ} (w x : Bool) (hl : v.slotLimit ≤ 2 ^ 24) (h : Held 0 {slot} v) :
    Released 0 {slot} v (releaseEntry (swapEntry slot w x) v) := by
  obtain ⟨hd, hs, ho⟩ := h.inUse slot (Multiset.mem_singleton_self slot)
  rw [releaseEntry_occupied w x hd hl hs ho]
  exact { Released.refl (v := v) with occupied := fun s => by simp only [setOccupied, Multiset.mem_singleton] }

theorem freePages_released {p : ℕ} (refs : ℕ → ℤ) (queue : ℕ → List ℕ)
    (hrefs : ∀ g, g ≠ p → refs g = v.pmm.refCount g) (hp : refs p = 0) (hq : ∀ r, p ∉ v.queue r → queue r = v.queue r) :
    Released {p} 0 v { v with queue := queue, pmm := freePages p 1 { v.pmm with refCount := refs } } where
  free := rfl
  mem := rfl
  refCount g := by
    simp only [freePages, Multiset.mem_singleton]
    by_cases hg : g = p
    · rw [if_pos (by omega), if_pos hg]
    · rw [if_neg (by omega), if_neg hg, hrefs g hg]
  blockPages := rfl
  panicked := by simp [freePages, hp]
  occupied _ := rfl
  queue r hr := hq r (hr p (Multiset.mem_singleton_self p))
  spaces := rfl
  kernelPgdir := rfl
  device := rfl
  slotLimit := rfl
  nextSlot := rfl
  disk := rfl
  ioClock := rfl

theorem freeLeafEntry_released {w : Word} (hw : LeafWord a v.slotLimit w) (hl : v.slotLimit ≤ 2 ^ 24)
    (h : Held (pageOf a w) (slotsOf a w) v) : Released (pageOf a w) (slotsOf a w) v (freeLeafEntry a w v) := by
  cases hw with
  | empty =>
    rw [pageOf_zero, slotsOf_zero, freeLeafEntry]
    simp only [a.ptePresent_zero, Bool.not_false, if_true, ne_eq, not_true_eq_false, if_false]
    exact Released.refl
  | page f perm hf =>
    have hpresent := (a.isPage_makePtePage perm (fits_pageToPhys a f hf)).present
    have haddr := (a.isPage_makePtePage perm (fits_pageToPhys a f hf)).addr
    rw [pageOf_makePtePage a hf, slotsOf_makePtePage a hf] at h ⊢
    have href := h.refs f (Multiset.mem_singleton_self f)
    simp only [freeLeafEntry, hpresent, haddr, physToPage_pageToPhys hf, href, Bool.not_true, Bool.false_eq_true,
      if_false, zero_lt_one, if_true, sub_self]
    apply freePages_released
    · intro g hg
      exact if_neg hg
    · exact if_pos rfl
    · intro r hr
      exact List.erase_of_not_mem hr
  | out slot write execute h0 hs =>
    rw [pageOf_swapEntry, slotsOf_swapEntry _ _ (by omega)] at h ⊢
    simp only [freeLeafEntry, ptePresent_swapEntry, Bool.not_false, if_true, ne_eq, swapEntry_ne_zero,
      not_false_eq_true]
    exact releaseEntry_released write execute hl h

theorem freeTablePage_released {t : ℕ} (ht : v.pmm.refCount t = 1) :
    Released {t} 0 v { v with pmm := freeTablePage t v.pmm } := by
  have h := freePages_released (v := v) (p := t) (fun f => if f = t then v.pmm.refCount t - 1 else v.pmm.refCount f)
    v.queue (fun g hg => if_neg hg) (by simp [ht]) fun _ _ => rfl
  have hp : (v.pmm.panicked || v.pmm.refCount t != 1) = v.pmm.panicked := by simp [ht]
  rw [freeTablePage, hp]
  exact h

/-! ## The recursion over the tables -/

def treeFrames (a : Arch) (h : Heap 512 Word) (l g : ℕ) : Multiset ℕ :=
  weight a.tableOf h (fun f => {f}) (pageOf a) l g

def treeSlots (a : Arch) (h : Heap 512 Word) (l g : ℕ) : Multiset ℕ :=
  weight a.tableOf h (fun _ => 0) (slotsOf a) l g

def entryFrames (a : Arch) (h : Heap 512 Word) : ℕ → Word → Multiset ℕ
  | 0, w => pageOf a w
  | l + 1, w => (a.tableOf w).elim 0 fun g => treeFrames a h l g

def entrySlots (a : Arch) (h : Heap 512 Word) : ℕ → Word → Multiset ℕ
  | 0, w => slotsOf a w
  | l + 1, w => (a.tableOf w).elim 0 fun g => treeSlots a h l g

theorem treeFrames_eq (a : Arch) (h : Heap 512 Word) (l g : ℕ) :
    treeFrames a h l g = {g} + (pageTableEntries.map fun i => entryFrames a h l (h g i)).sum := by
  rw [pageTableEntries, ← Fin.sum_univ_def]
  cases l with
  | zero => exact weight_zero
  | succ l => exact weight_succ

theorem treeSlots_eq (a : Arch) (h : Heap 512 Word) (l g : ℕ) :
    treeSlots a h l g = (pageTableEntries.map fun i => entrySlots a h l (h g i)).sum := by
  rw [pageTableEntries, ← Fin.sum_univ_def, ← zero_add (∑ i, _)]
  cases l with
  | zero => exact weight_zero
  | succ l => exact weight_succ

def LeafWords (a : Arch) (limit : ℕ) (h : Heap 512 Word) (l g : ℕ) : Prop :=
  ∀ q s, slot a.tableOf h q l g = some s → LeafWord a limit (h s.1 s.2)

variable {h : Heap 512 Word}

theorem LeafWords.child {limit l g c : ℕ} {i : Fin 512} (hl : LeafWords a limit h (l + 1) g)
    (hc : a.tableOf (h g i) = some c) : LeafWords a limit h l c := by
  intro q s hs
  apply hl (fun k => if k = l + 1 then i else q k) s
  have hq : slot a.tableOf h (fun k => if k = l + 1 then i else q k) l c = slot a.tableOf h q l c :=
    slot_path fun k hk => if_neg (by omega)
  simp only [slot, if_true, hc, Option.elim_some, hq, hs]

theorem freeTableEntry_released {w : Word} {l : ℕ} {sub : ℕ → State → State} (h : Heap 512 Word)
    (hsub : ∀ g, a.tableOf w = some g → ∀ F S, treeFrames a h l g = {g} + F → treeSlots a h l g = S → Held F S v →
      Released F S v (sub g v))
    (hheld : Held (entryFrames a h (l + 1) w) (entrySlots a h (l + 1) w) v) :
    Released (entryFrames a h (l + 1) w) (entrySlots a h (l + 1) w) v (freeTableEntry a sub w v) := by
  simp only [entryFrames, entrySlots, freeTableEntry] at hheld ⊢
  cases hg : a.tableOf w with
  | none => exact Released.refl
  | some g =>
    rw [hg] at hheld
    simp only [Option.elim_some] at hheld ⊢
    have heq := treeFrames_eq a h l g
    rw [heq, add_comm, ← add_zero (treeSlots a h l g)] at hheld ⊢
    have hrel := hsub g hg _ _ heq rfl hheld.left
    apply hrel.trans
    exact freeTablePage_released ((hheld.rest hrel).refs g (Multiset.mem_singleton_self g))

theorem freeUserPtSubtree_released {l g : ℕ} (hm : v.pmm.mem = h) (hl : v.slotLimit ≤ 2 ^ 24)
    (hleaves : LeafWords a v.slotLimit h l g) (hF : treeFrames a h l g = {g} + F) (hS : treeSlots a h l g = S)
    (hheld : Held F S v) : Released F S v (freeUserPtSubtree a l g v) := by
  rw [treeFrames_eq] at hF
  rw [treeSlots_eq] at hS
  obtain rfl := add_left_cancel hF
  subst hS
  induction l generalizing g v with
  | zero =>
    rw [freeUserPtSubtree]
    apply foldl_released _ _ hheld
    intro i _ u hu hlimit hone
    rw [hu, hm]
    apply freeLeafEntry_released _ (by omega) hone
    rw [hlimit]
    exact hleaves (fun _ => i) (g, i) rfl
  | succ l ih =>
    rw [freeUserPtSubtree]
    apply foldl_released _ _ hheld
    intro i _ u hu hlimit hone
    rw [hu, hm]
    apply freeTableEntry_released h _ hone
    intro c hc F S hF hS hsub
    rw [treeFrames_eq] at hF
    rw [treeSlots_eq] at hS
    obtain rfl := add_left_cancel hF
    subst hS
    exact ih (hu.trans hm) (by omega) (by rw [hlimit]; exact hleaves.child hc) rfl hsub

/-! ## The root -/

theorem userHeap_kernel (h : Heap 512 Word) {i : Fin 512} (hi : userTop i = false) : userHeap r h r i = 0 := by
  simp [userHeap, hi]

theorem sum_userTopEntries {share : Fin 512 → Multiset ℕ} (hk : ∀ i, userTop i = false → share i = 0) :
    (pageTableEntries.map share).sum = (userTopEntries.map share).sum := by
  rw [userTopEntries]
  induction pageTableEntries with
  | nil => rfl
  | cons i rest ih =>
    rw [List.map_cons, List.sum_cons, ih]
    cases hi : userTop i with
    | false => rw [List.filter_cons_of_neg (by simp [hi]), hk i hi, zero_add]
    | true => rw [List.filter_cons_of_pos hi, List.map_cons, List.sum_cons]

theorem entry_userHeap (ht : (tables a h r).Nodup) (i : Fin 512) (hi : userTop i = true) :
    entryFrames a (userHeap r h) (a.top + 1) (userHeap r h r i) = entryFrames a h (a.top + 1) (h r i) ∧
      entrySlots a (userHeap r h) (a.top + 1) (userHeap r h r i) = entrySlots a h (a.top + 1) (h r i) := by
  rw [userHeap_user _ hi]
  simp only [entryFrames, entrySlots]
  cases hg : a.tableOf (h r i) with
  | none => simp only [Option.elim_none, and_self]
  | some g =>
    have hnot := (nodup_child ht (show a.tableOf (userHeap r h r i) = some g by rw [userHeap_user _ hi]; exact hg)).2
    have hh : ∀ k ∈ nodes a.tableOf (userHeap r h) a.top g, h k = userHeap r h k := by
      intro k hk
      rw [userHeap_other]
      rintro rfl
      exact hnot hk
    exact ⟨(weight_congr hh).symm, (weight_congr hh).symm⟩

theorem owned_eq (ht : (tables a h r).Nodup) :
    owned a h r = {r} + (userTopEntries.map fun i => entryFrames a h (a.top + 1) (h r i)).sum := by
  have htree : owned a h r = treeFrames a (userHeap r h) (a.top + 1) r := nodes_add_leaves
  have hentries : ∀ i ∈ userTopEntries, entryFrames a (userHeap r h) (a.top + 1) (userHeap r h r i) =
      entryFrames a h (a.top + 1) (h r i) := fun i hi => (entry_userHeap ht i (List.mem_filter.1 hi).2).1
  rw [htree, treeFrames_eq, sum_userTopEntries, List.map_congr_left hentries]
  intro i hi
  rw [userHeap_kernel _ hi, entryFrames, tableOf_zero]
  rfl

theorem slots_eq (ht : (tables a h r).Nodup) :
    slots a h r = (userTopEntries.map fun i => entrySlots a h (a.top + 1) (h r i)).sum := by
  have htree : slots a h r = treeSlots a (userHeap r h) (a.top + 1) r := rfl
  have hentries : ∀ i ∈ userTopEntries, entrySlots a (userHeap r h) (a.top + 1) (userHeap r h r i) =
      entrySlots a h (a.top + 1) (h r i) := fun i hi => (entry_userHeap ht i (List.mem_filter.1 hi).2).2
  rw [htree, treeSlots_eq, sum_userTopEntries, List.map_congr_left hentries]
  intro i hi
  rw [userHeap_kernel _ hi, entrySlots, tableOf_zero]
  rfl

theorem Inv.slot_range (hI : Inv a pool v) (hr : r ∈ v.spaces) {s : ℕ} (hs : s ∈ slots a v.pmm.mem r) :
    0 < s ∧ s < v.slotLimit := by
  have hS := hI.space r hr
  obtain ⟨q, t, ht, hm⟩ := mem_weight_leaf hs
  have hne := leafSlot_ne_root (Multiset.nodup_add.1 hS.nodup).1 ht
  rw [userHeap_other _ hne] at hm
  have hlimit := hI.limit
  have hw := hS.leaves q t ht
  generalize v.pmm.mem t.1 t.2 = w at hm hw
  cases hw with
  | empty =>
    rw [slotsOf_zero] at hm
    exact absurd hm (Multiset.notMem_zero s)
  | page f perm hf =>
    rw [slotsOf_makePtePage a hf] at hm
    exact absurd hm (Multiset.notMem_zero s)
  | out slot write execute h0 hlt =>
    rw [slotsOf_swapEntry _ _ (by omega), Multiset.mem_singleton] at hm
    omega

theorem Inv.slots_count_le (hI : Inv a pool v) (hr : r ∈ v.spaces) {s : ℕ} (h0 : 0 < s) (hs : s < v.slotLimit) :
    (slots a v.pmm.mem r).count s ≤ (v.occupied s).toNat := by
  obtain ⟨rest, hrest⟩ := Multiset.exists_cons_of_mem hr
  have hc := hI.slotCount s h0 hs
  rw [hrest, Multiset.map_cons, Multiset.sum_cons, Multiset.count_add] at hc
  omega

theorem Inv.held (hI : Inv a pool v) (hr : r ∈ v.spaces) (hF : owned a v.pmm.mem r = {r} + F) :
    Held F (slots a v.pmm.mem r) v := by
  have hS := hI.space r hr
  have hnodup := hS.nodup
  rw [hF, Multiset.singleton_add, Multiset.nodup_cons] at hnodup
  refine ⟨hnodup.2, ?_, ?_, ?_⟩
  · intro f hf
    have hne : f ≠ r := fun h => hnodup.1 (h ▸ hf)
    have hown : f ∈ owned a v.pmm.mem r := by
      rw [hF]
      exact Multiset.mem_add.2 (Or.inr hf)
    rcases Multiset.mem_add.1 hown with ht | hm
    · rw [hS.refTable f ht, if_neg hne]
    · exact hS.refPage f hm
  · rw [Multiset.nodup_iff_count_le_one]
    intro s
    by_cases hs : s ∈ slots a v.pmm.mem r
    · obtain ⟨h0, hlt⟩ := hI.slot_range hr hs
      exact (hI.slots_count_le hr h0 hlt).trans (Bool.toNat_le _)
    · rw [Multiset.count_eq_zero.2 hs]
      exact Nat.zero_le 1
  · intro s hs
    obtain ⟨h0, hlt⟩ := hI.slot_range hr hs
    have hcount := hI.slots_count_le hr h0 hlt
    have hpos := Multiset.count_pos.2 hs
    refine ⟨?_, ⟨h0, hlt⟩, ?_⟩
    · by_contra hd
      have := hI.device (by simpa using hd)
      omega
    · cases ho : v.occupied s with
      | true => rfl
      | false =>
        rw [ho, Bool.toNat_false] at hcount
        omega

theorem SpaceInv.leafWords (hS : SpaceInv a v r) {i : Fin 512} (hi : userTop i = true) {c : ℕ}
    (hc : a.tableOf (v.pmm.mem r i) = some c) : LeafWords a v.slotLimit v.pmm.mem a.top c := by
  have hroot : ∀ q s, userTop (q (a.top + 1)) = true → slot a.tableOf v.pmm.mem q (a.top + 1) r = some s →
      LeafWord a v.slotLimit (v.pmm.mem s.1 s.2) := by
    intro q s hq hs
    rw [slot_eq_leafSlot (Multiset.nodup_add.1 hS.nodup).1 hq] at hs
    exact hS.leaves q s hs
  intro q s hs
  apply hroot (fun k => if k = a.top + 1 then i else q k) s (by simp [hi])
  have hq : slot a.tableOf v.pmm.mem (fun k => if k = a.top + 1 then i else q k) a.top c =
      slot a.tableOf v.pmm.mem q a.top c := slot_path fun k hk => if_neg (by omega)
  simp only [slot, if_true, hc, Option.elim_some, hq, hs]

theorem freeRootEntries_released (hI : Inv a pool v) (hr : r ∈ v.spaces) (hF : owned a v.pmm.mem r = {r} + F) :
    Released F (slots a v.pmm.mem r) v (userTopEntries.foldl (fun v i =>
      freeTableEntry a (freeUserPtSubtree a (a.ptWalkLevels - 2)) (v.pmm.mem r i) v) v) := by
  have hS := hI.space r hr
  have ht := (Multiset.nodup_add.1 hS.nodup).1
  have hheld := hI.held hr hF
  rw [owned_eq ht] at hF
  obtain rfl := add_left_cancel hF
  rw [slots_eq ht] at hheld ⊢
  apply foldl_released _ _ hheld
  intro i hi u hu hlimit hone
  rw [hu]
  apply freeTableEntry_released v.pmm.mem _ hone
  intro c hc F S hF hS' hsub
  apply freeUserPtSubtree_released hu _ _ hF hS' hsub
  · rw [hlimit]
    exact hI.limit
  · rw [hlimit]
    exact hS.leafWords (List.mem_filter.1 hi).2 hc

theorem freeUserPgdir_released (hI : Inv a pool v) (hr : r ∈ v.spaces) :
    ∃ u, Released (owned a v.pmm.mem r) (slots a v.pmm.mem r) v u ∧
      freeUserPgdir a r v = { u with spaces := v.spaces.erase r } := by
  have hS := hI.space r hr
  have hF := owned_eq (Multiset.nodup_add.1 hS.nodup).1
  have hnodup := hS.nodup
  rw [hF, Multiset.singleton_add, Multiset.nodup_cons] at hnodup
  have hfold := freeRootEntries_released hI hr hF
  rw [freeUserPgdir]
  generalize (userTopEntries.foldl (fun v i =>
      freeTableEntry a (freeUserPtSubtree a (a.ptWalkLevels - 2)) (v.pmm.mem r i) v) v) = u at hfold
  have href : u.pmm.refCount r = 0 := by
    rw [hfold.refCount, if_neg hnodup.1, hS.refTable r self_mem_tables, if_pos rfl]
  have hblock : u.pmm.blockPages r = 1 := by rw [hfold.blockPages, hS.root]
  have hfree : kfree r u.pmm = freePages r 1 u.pmm := by rw [kfree, hblock, if_pos Nat.one_pos]
  have hlast := hfold.trans (freePages_released u.pmm.refCount u.queue (fun _ _ => rfl) href fun _ _ => rfl)
  rw [add_comm, ← hF, add_zero] at hlast
  refine ⟨_, hlast, ?_⟩
  rw [hfree, hfold.spaces]

theorem Inv.freeUserPgdir (hI : Inv a pool v) (hr : r ∈ v.spaces) : Inv a pool (freeUserPgdir a r v) := by
  obtain ⟨u, hrel, heq⟩ := freeUserPgdir_released hI hr
  obtain ⟨rest, hrest⟩ := Multiset.exists_cons_of_mem hr
  rw [heq, hrest, Multiset.erase_cons_head]
  have hrmem : ∀ r' ∈ rest, r' ∈ v.spaces := fun r' hr' => by rw [hrest]; exact Multiset.mem_cons_of_mem hr'
  refine ⟨hI.nodup, hI.bound, ?_, ?_, ?_, ?_, ?_, ?_, ?_, ?_, ?_⟩
  · rw [hrel.mem, hrel.free, ← hI.conserve, hrest, Multiset.map_cons, Multiset.sum_cons]
    abel
  · intro r' hr'
    have happart := fun g hg => hI.apart hrest hr' (g := g) hg
    refine (hI.space r' (hrmem r' hr')).frame (fun g _ => ?_) (fun g hg => ?_) ?_ ?_ hrel.slotLimit ?_
    · rw [hrel.mem]
    · rw [hrel.refCount, if_neg (happart g hg).2]
    · rw [hrel.blockPages]
    · apply hrel.queue r'
      intro f hf hq
      have hfm := (hI.space r' (hrmem r' hr')).queued f hq
      exact (happart f (Multiset.mem_add.2 (Or.inr hfm))).2 hf
    · rw [hrel.mem, hrel.kernelPgdir]
  · intro f hf
    rw [hrel.free, Multiset.mem_add] at hf
    rw [hrel.refCount]
    by_cases hfo : f ∈ owned a v.pmm.mem r
    · rw [if_pos hfo]
    · rw [if_neg hfo]
      exact hI.refFree f (hf.resolve_left hfo)
  · intro s h0 hs
    rw [hrel.slotLimit] at hs
    have hc := hI.slotCount s h0 hs
    rw [hrest, Multiset.map_cons, Multiset.sum_cons, Multiset.count_add] at hc
    show (rest.map (slots a u.pmm.mem)).sum.count s = (u.occupied s).toNat
    rw [hrel.mem, hrel.occupied]
    by_cases hin : s ∈ slots a v.pmm.mem r
    · have hpos := Multiset.count_pos.2 hin
      have hle := Bool.toNat_le (v.occupied s)
      rw [if_pos hin, Bool.toNat_false]
      omega
    · rw [if_neg hin]
      rw [Multiset.count_eq_zero.2 hin, zero_add] at hc
      exact hc
  · rw [hrel.kernelPgdir]
    exact hI.kernel
  · rw [hrel.device, hrel.slotLimit]
    exact hI.device
  · rw [hrel.slotLimit]
    exact hI.limit
  · rw [hrel.device, hrel.slotLimit, hrel.nextSlot]
    exact hI.next
  · rw [hrel.panicked]
    exact hI.running

end Zonix.Vm
