import Mathlib
import Zonix.Vm.Mapping

/-!
# Moving a page out

`swap::out`: the scan for the address of the victim, the reservation of a slot, the transfer, and the eviction with
its ways back.
-/

namespace Zonix.Vm

open Zonix.Lib.Radix

variable {a : Arch} {pool : Multiset ℕ} {v : State} {r : ℕ}

/-! ## The scan of the tables -/

theorem scanTable_found {entries : List (Fin 512)} {look : Fin 512 → ℕ} (h : scanTable entries look ≠ 0) :
    ∃ i ∈ entries, look i ≠ 0 ∧ scanTable entries look = look i := by
  induction entries with
  | nil => exact absurd rfl h
  | cons i rest ih =>
    rw [scanTable] at h ⊢
    by_cases hi : look i ≠ 0
    · rw [if_pos hi]
      exact ⟨i, List.mem_cons_self, hi, rfl⟩
    · rw [if_neg hi] at h ⊢
      obtain ⟨j, hj, hlook⟩ := ih h
      exact ⟨j, List.mem_cons_of_mem i hj, hlook⟩

variable {l victim : ℕ} {rest : List ℕ} {v' : State} {b : Bool}

theorem join_index {base : ℕ} (hb : 2 ^ levelShift (l + 1) ∣ base) (i : Fin 512) :
    2 ^ levelShift l ∣ base ||| i.val <<< levelShift l ∧
      (base ||| i.val <<< levelShift l) / 2 ^ levelShift (l + 1) = base / 2 ^ levelShift (l + 1) ∧
      (base ||| i.val <<< levelShift l) / 2 ^ levelShift l % 512 = i.val := by
  obtain ⟨b, rfl⟩ := hb
  have hs : 2 ^ levelShift (l + 1) = 2 ^ levelShift l * 512 := by
    rw [levelShift, levelShift, show 12 + 9 * (l + 1) = 12 + 9 * l + 9 by ring, pow_add]
    norm_num
  have hpos : 0 < 2 ^ levelShift l := Nat.two_pow_pos _
  have hlt : i.val <<< levelShift l < 2 ^ levelShift (l + 1) := by
    rw [Nat.shiftLeft_eq, hs, Nat.mul_comm]
    exact Nat.mul_lt_mul_of_pos_left i.isLt hpos
  have hor : 2 ^ levelShift (l + 1) * b ||| i.val <<< levelShift l =
      2 ^ levelShift l * (512 * b + i.val) := by
    rw [Nat.mul_comm, ← Nat.shiftLeft_eq, ← Nat.shiftLeft_add_eq_or_of_lt hlt, Nat.shiftLeft_eq, Nat.shiftLeft_eq, hs]
    ring
  rw [hor]
  refine ⟨Nat.dvd_mul_right _ _, ?_, ?_⟩
  · rw [hs, ← Nat.div_div_eq_div_mul, Nat.mul_div_cancel_left _ hpos, mul_assoc, ← Nat.div_div_eq_div_mul,
      Nat.mul_div_cancel_left _ hpos]
    omega
  · rw [Nat.mul_div_cancel_left _ hpos]
    omega

theorem levelIndex_eq {va : ℕ} {i : Fin 512} (h : va / 2 ^ levelShift l % 512 = i.val) : levelIndex va l = i := by
  apply Fin.ext
  rw [levelIndex]
  exact h

theorem scanPtForPa_found {h : Heap 512 Word} {target : Word} {g base : ℕ}
    (hb : 2 ^ levelShift (l + 1) ∣ base) (hne : scanPtForPa a h target l g base ≠ 0) :
    (∃ s, slot a.tableOf h (levelIndex (scanPtForPa a h target l g base)) l g = some s ∧
        a.ptePresent (h s.1 s.2) = true ∧ a.pteAddr (h s.1 s.2) = target) ∧
      scanPtForPa a h target l g base / 2 ^ levelShift (l + 1) = base / 2 ^ levelShift (l + 1) := by
  induction l generalizing g base with
  | zero =>
    unfold scanPtForPa at hne ⊢
    cases hf : pageTableEntries.find? fun i => a.ptePresent (h g i) && a.pteAddr (h g i) == target with
    | none =>
      rw [hf] at hne
      exact absurd rfl hne
    | some i =>
      obtain ⟨-, hup, hi⟩ := join_index hb i
      have hmatch := List.find?_some hf
      rw [Bool.and_eq_true, beq_iff_eq] at hmatch
      refine ⟨⟨(g, i), ?_, hmatch⟩, hup⟩
      simp only [slot, levelIndex_eq hi]
  | succ l ih =>
    unfold scanPtForPa at hne ⊢
    obtain ⟨i, -, hlook, heq⟩ := scanTable_found hne
    rw [heq]
    cases hg : a.tableOf (h g i) with
    | none =>
      rw [hg] at hlook
      exact absurd rfl hlook
    | some c =>
      rw [hg] at hlook
      obtain ⟨hdvd, hup, hi⟩ := join_index hb i
      obtain ⟨⟨s, hs, hmatch⟩, hdiv⟩ := ih hdvd hlook
      simp only
      generalize scanPtForPa a h target l c (base ||| i.val <<< levelShift (l + 1)) = va at hs hdiv
      have hidx : levelIndex va (l + 1) = i := levelIndex_eq (by rw [hdiv, hi])
      refine ⟨⟨s, ?_, hmatch⟩, ?_⟩
      · simp only [slot, hidx, hg, Option.elim_some]
        exact hs
      · rw [← hup]
        have hs : 2 ^ levelShift (l + 1 + 1) = 2 ^ levelShift (l + 1) * 512 := by
          rw [levelShift, levelShift, show 12 + 9 * (l + 1 + 1) = 12 + 9 * (l + 1) + 9 by ring, pow_add]
          norm_num
        rw [hs, ← Nat.div_div_eq_div_mul, ← Nat.div_div_eq_div_mul, hdiv]

theorem findVaForPage_found {page : ℕ} (ht : (tables a v.pmm.mem r).Nodup) (hne : findVaForPage a r page v ≠ 0) :
    IsUser a (findVaForPage a r page v) ∧
      ∃ s, leafSlot a v.pmm.mem r (levelIndex (findVaForPage a r page v)) = some s ∧
        a.ptePresent (v.pmm.mem s.1 s.2) = true ∧ a.pteAddr (v.pmm.mem s.1 s.2) = pageToPhys page := by
  rw [findVaForPage] at hne ⊢
  obtain ⟨i, hi, hlook, heq⟩ := scanTable_found hne
  have huser : userTop i = true := (List.mem_filter.1 hi).2
  rw [heq]
  cases hg : a.tableOf (v.pmm.mem r i) with
  | none =>
    rw [hg] at hlook
    exact absurd rfl hlook
  | some c =>
    rw [hg] at hlook
    change scanPtForPa a v.pmm.mem (pageToPhys page) a.top c (i.val <<< levelShift (a.top + 1)) ≠ 0 at hlook
    change IsUser a (scanPtForPa a v.pmm.mem (pageToPhys page) a.top c (i.val <<< levelShift (a.top + 1))) ∧
      ∃ s, leafSlot a v.pmm.mem r (levelIndex (scanPtForPa a v.pmm.mem (pageToPhys page) a.top c
        (i.val <<< levelShift (a.top + 1)))) = some s ∧ _
    have hdvd : 2 ^ levelShift (a.top + 1) ∣ i.val <<< levelShift (a.top + 1) := by
      rw [Nat.shiftLeft_eq]
      exact Nat.dvd_mul_left _ _
    obtain ⟨⟨s, hs, hmatch⟩, hdiv⟩ := scanPtForPa_found hdvd hlook
    generalize scanPtForPa a v.pmm.mem (pageToPhys page) a.top c (i.val <<< levelShift (a.top + 1)) = va at hs hdiv
    have hidx : levelIndex va (a.top + 1) = i := by
      apply levelIndex_eq
      rw [hdiv, Nat.shiftLeft_eq, Nat.mul_div_cancel _ (Nat.two_pow_pos _), Nat.mod_eq_of_lt i.isLt]
    have hva : IsUser a va := by rw [IsUser, hidx]; exact huser
    refine ⟨hva, s, ?_, hmatch⟩
    rw [← slot_eq_leafSlot ht hva]
    simp only [slot, hidx, hg, Option.elim_some]
    exact hs

/-! ## Reserving a slot -/

def State.reserve (v : State) (slot k : ℕ) : State := setOccupied slot true { v with nextSlot := k }

theorem reserveLoop_cases {n : ℕ} (hn : 0 < v.nextSlot ∧ v.nextSlot < v.slotLimit) :
    ∃ k, (0 < k ∧ k < v.slotLimit) ∧
      (reserveLoop n v = (none, { v with nextSlot := k }) ∨
        ∃ slot, (0 < slot ∧ slot < v.slotLimit) ∧ v.occupied slot = false ∧
          reserveLoop n v = (some slot, v.reserve slot k)) := by
  induction n generalizing v with
  | zero => exact ⟨v.nextSlot, hn, Or.inl rfl⟩
  | succ n ih =>
    have hnext : 0 < (if v.nextSlot + 1 = v.slotLimit then 1 else v.nextSlot + 1) ∧
        (if v.nextSlot + 1 = v.slotLimit then 1 else v.nextSlot + 1) < v.slotLimit := by
      split <;> omega
    simp only [reserveLoop]
    by_cases ho : v.occupied v.nextSlot = true
    · rw [if_pos ho]
      exact ih (v := { v with nextSlot := if v.nextSlot + 1 = v.slotLimit then 1 else v.nextSlot + 1 }) hnext
    · rw [if_neg ho]
      exact ⟨_, hnext, Or.inr ⟨v.nextSlot, hn, by simpa using ho, rfl⟩⟩

theorem reserveSlot_cases (hd : v.device = true) (hn : 0 < v.nextSlot ∧ v.nextSlot < v.slotLimit) :
    ∃ k, (0 < k ∧ k < v.slotLimit) ∧
      (reserveSlot v = (none, { v with nextSlot := k }) ∨
        ∃ slot, (0 < slot ∧ slot < v.slotLimit) ∧ v.occupied slot = false ∧
          reserveSlot v = (some slot, v.reserve slot k)) := by
  rw [reserveSlot, if_pos hd]
  exact reserveLoop_cases hn

variable {slot : ℕ}

theorem allocatedSlot_occupied (w x : Bool) (hd : v.device = true) (hl : v.slotLimit ≤ 2 ^ 24)
    (hs : 0 < slot ∧ slot < v.slotLimit) (ho : v.occupied slot = true) :
    allocatedSlot v (swapEntry slot w x) = slot := by
  rw [allocatedSlot_swapEntry v w x (by omega), hd, ho]
  simp [hs.1, hs.2]

theorem releaseEntry_occupied (w x : Bool) (hd : v.device = true) (hl : v.slotLimit ≤ 2 ^ 24)
    (hs : 0 < slot ∧ slot < v.slotLimit) (ho : v.occupied slot = true) :
    releaseEntry (swapEntry slot w x) v = setOccupied slot false v := by
  have hne : slot ≠ 0 := by omega
  simp only [releaseEntry, allocatedSlot_occupied w x hd hl hs ho, hne, ne_eq, not_false_eq_true, if_true]

/-! ## The blocks of a slot -/

theorem startLba_eq (hs : slot < 2 ^ 24) : startLba slot = (slot - 1) * 8 := by
  rw [startLba, Nat.mod_eq_of_lt (by omega)]

theorem readBlocks_writeBlocks (disk : ℕ → Fin 64 → Word) (lba : ℕ) (page : Fin 512 → Word) :
    readBlocks (writeBlocks disk lba page) lba = page := by
  funext i
  have hi := i.isLt
  have hlba : lba ≤ lba + i.val / 64 ∧ lba + i.val / 64 < lba + 8 := by omega
  simp only [readBlocks, writeBlocks, hlba, and_self, dif_pos]
  congr 1
  apply Fin.ext
  simp only
  omega

theorem readBlocks_other {slot' : ℕ} (disk : ℕ → Fin 64 → Word) (page : Fin 512 → Word) (h0 : 0 < slot)
    (hs : slot < 2 ^ 24) (h0' : 0 < slot') (hs' : slot' < 2 ^ 24) (hne : slot' ≠ slot) :
    readBlocks (writeBlocks disk (startLba slot) page) (startLba slot') = readBlocks disk (startLba slot') := by
  funext i
  have hi := i.isLt
  have hlba : ¬ (startLba slot ≤ startLba slot' + i.val / 64 ∧
      startLba slot' + i.val / 64 < startLba slot + 8) := by
    rw [startLba_eq hs, startLba_eq hs']
    omega
  simp only [readBlocks, writeBlocks, hlba, dif_neg, not_false_eq_true]

/-! ## One round -/

def State.evicted (a : Arch) (v : State) (r victim : ℕ) (rest : List ℕ) (s : ℕ × Fin 512) (slot k : ℕ) : State :=
  { v with queue := fun f => if f = r then rest else v.queue f, nextSlot := k,
           occupied := fun t => if t = slot then true else v.occupied t,
           disk := writeBlocks v.disk (startLba slot) (v.pmm.mem victim), ioClock := v.ioClock + 1,
           pmm := freePages victim 1 { v.pmm with
             mem := write v.pmm.mem s
               (swapEntry slot (a.pteWritable (v.pmm.mem s.1 s.2)) (a.pteExecutable (v.pmm.mem s.1 s.2))),
             refCount := fun f => if f = victim then v.pmm.refCount victim - 1 else v.pmm.refCount f } }

/-- What one round of `swap::out` did: nothing that matters to any page, or one page of `r` is out. -/
inductive OutStep (a : Arch) (r : ℕ) (v v' : State) : Bool → Prop where
  | kept (k : ℕ) (disk : ℕ → Fin 64 → Word) (c : ℕ) (hk : 0 < k ∧ k < v.slotLimit)
      (hdisk : ∀ s, 0 < s → s < v.slotLimit → v.occupied s = true →
        readBlocks disk (startLba s) = readBlocks v.disk (startLba s))
      (hv : v' = { v with nextSlot := k, disk := disk, ioClock := c }) : OutStep a r v v' false
  | moved (victim : ℕ) (rest : List ℕ) (va : ℕ) (s : ℕ × Fin 512) (slot k : ℕ) (hqueue : v.queue r = victim :: rest)
      (hva : IsUser a va) (hs : leafSlot a v.pmm.mem r (levelIndex va) = some s)
      (hpresent : a.ptePresent (v.pmm.mem s.1 s.2) = true) (huser : a.pteUser (v.pmm.mem s.1 s.2) = true)
      (haddr : a.pteAddr (v.pmm.mem s.1 s.2) = pageToPhys victim) (href : v.pmm.refCount victim = 1)
      (hslot : 0 < slot ∧ slot < v.slotLimit) (hfree : v.occupied slot = false) (hk : 0 < k ∧ k < v.slotLimit)
      (hv : v' = v.evicted a r victim rest s slot k) : OutStep a r v v' true

def State.popped (v : State) (r : ℕ) (rest : List ℕ) : State :=
  { v with queue := fun f => if f = r then rest else v.queue f }

theorem requeue_popped (hq : v.queue r = victim :: rest) :
    requeue r victim (v.popped r rest) = v := by
  have : (fun f => if f = r then victim :: rest else if f = r then rest else v.queue f) = v.queue := by
    funext f
    by_cases hf : f = r
    · rw [if_pos hf, hf, hq]
    · rw [if_neg hf, if_neg hf]
  simp only [requeue, State.popped, if_true, this]

theorem requeue_released {k : ℕ} (disk : ℕ → Fin 64 → Word) (c : ℕ) (w x : Bool)
    (hd : v.device = true) (hl : v.slotLimit ≤ 2 ^ 24) (hq : v.queue r = victim :: rest)
    (hs : 0 < slot ∧ slot < v.slotLimit) (hfree : v.occupied slot = false) :
    requeue r victim (releaseEntry (swapEntry slot w x) { (v.popped r rest).reserve slot k with
      disk := disk, ioClock := c }) = { v with nextSlot := k, disk := disk, ioClock := c } := by
  rw [releaseEntry_occupied (v := { (v.popped r rest).reserve slot k with disk := disk, ioClock := c }) w x hd hl hs
    (by simp [State.reserve, setOccupied])]
  have hocc : (fun s => if s = slot then false else if s = slot then true else v.occupied s) = v.occupied := by
    funext s
    by_cases h : s = slot
    · rw [if_pos h, h, hfree]
    · rw [if_neg h, if_neg h]
  have hback := requeue_popped (v := { v with nextSlot := k, disk := disk, ioClock := c }) hq
  rw [← hback]
  simp only [State.reserve, State.popped, setOccupied, requeue]
  rw [hocc]

theorem swapfsWrite_slot (E : Env) {entry : Word} (page : ℕ) (hne : slot ≠ 0) (hd : v.device = true)
    (hs : allocatedSlot v entry = slot) :
    swapfsWrite E entry page v = match E.writeError v.ioClock with
      | none =>
        (.none, { v with ioClock := v.ioClock + 1, disk := writeBlocks v.disk (startLba slot) (v.pmm.mem page) })
      | some left =>
        (.io, { v with ioClock := v.ioClock + 1, disk := writeBlocks v.disk (startLba slot) left }) := by
  cases herr : E.writeError v.ioClock with
  | none => simp only [swapfsWrite, hs, hd, hne, herr, Bool.not_true, Bool.false_eq_true, if_false]
  | some left => simp only [swapfsWrite, hs, hd, hne, herr, Bool.not_true, Bool.false_eq_true, if_false]

theorem evict_cases (E : Env) {k : ℕ} {va : ℕ} {s : ℕ × Fin 512} (hd : v.device = true)
    (hl : v.slotLimit ≤ 2 ^ 24) (hqueue : v.queue r = victim :: rest) (hva : IsUser a va)
    (hs : leafSlot a v.pmm.mem r (levelIndex va) = some s) (hpresent : a.ptePresent (v.pmm.mem s.1 s.2) = true)
    (huser : a.pteUser (v.pmm.mem s.1 s.2) = true) (haddr : a.pteAddr (v.pmm.mem s.1 s.2) = pageToPhys victim)
    (href : v.pmm.refCount victim = 1) (hslot : 0 < slot ∧ slot < v.slotLimit) (hfree : v.occupied slot = false)
    (hk : 0 < k ∧ k < v.slotLimit) :
    OutStep a r v (evict a E r victim slot s
        ((v.popped r rest).reserve slot k)).2
      (evict a E r victim slot s
        ((v.popped r rest).reserve slot k)).1 := by
  have hocc : ((v.popped r rest).reserve slot k).occupied slot = true := by simp [State.reserve, setOccupied]
  have hwrite := fun w x => swapfsWrite_slot E (v := (v.popped r rest).reserve slot k) victim (by omega) hd
    (allocatedSlot_occupied w x hd hl hslot hocc)
  simp only [evict, hwrite]
  cases E.writeError ((v.popped r rest).reserve slot k).ioClock with
  | none =>
    simp only [ne_eq, not_true_eq_false, false_or]
    rw [if_neg]
    · exact .moved victim rest va s slot k hqueue hva hs hpresent huser haddr href hslot hfree hk rfl
    · exact fun h => h href
  | some left =>
    simp only [ne_eq, reduceCtorEq, not_false_eq_true, true_or, if_true]
    refine .kept k _ _ hk ?_ (requeue_released _ _ _ _ hd hl hqueue hslot hfree)
    intro t h0 ht hocc'
    apply readBlocks_other _ _ hslot.1 (by omega) h0 (by omega)
    rintro rfl
    rw [hfree] at hocc'
    cases hocc'

/-- What swapping relies on: the tables form a tree outside the free frames, no free frame is on a queue, and the
slot numbers fit their field. Frames may be mapped more than once and the queue may hold pages that are not mapped. -/
structure SwapSpace (a : Arch) (v : State) (r : ℕ) : Prop where
  nodup : (tables a v.pmm.mem r).Nodup
  held : ∀ g ∈ tables a v.pmm.mem r, g ∉ v.pmm.free
  unqueued : ∀ g ∈ v.pmm.free, unqueued v g = true
  bound : ∀ g ∈ v.pmm.free, g < 2 ^ 32
  limit : v.slotLimit ≤ 2 ^ 24
  next : v.device = true → 0 < v.nextSlot ∧ v.nextSlot < v.slotLimit

theorem Inv.swapSpace (hI : Inv a pool v) (hr : r ∈ v.spaces) : SwapSpace a v r := by
  refine ⟨(Multiset.nodup_add.1 (hI.space r hr).nodup).1, (hI.userTree hr).tree.held, ?_,
    fun g hg => hI.bound g (hI.free_mem_pool hg), hI.limit, hI.next⟩
  intro g hg
  rw [Zonix.Vm.unqueued, decide_eq_true_eq, Multiset.filter_eq_nil]
  intro r' hr' hgq
  have hn := hI.local_nodup hr'
  exact Multiset.disjoint_left.1 (Multiset.nodup_add.1 hn).2.2 hg
    (Multiset.mem_add.2 (Or.inr ((hI.space r' hr').queued g hgq)))

theorem swapOutOne_cases (E : Env) (ht : (tables a v.pmm.mem r).Nodup) (hl : v.slotLimit ≤ 2 ^ 24)
    (hnext : 0 < v.nextSlot ∧ v.nextSlot < v.slotLimit) (hd : v.device = true) :
    OutStep a r v (swapOutOne a E r v).2 (swapOutOne a E r v).1 := by
  cases hq : v.queue r with
  | nil =>
    simp only [swapOutOne, swapOutVictim, hq]
    exact .kept v.nextSlot v.disk v.ioClock hnext (fun _ _ _ _ => rfl) rfl
  | cons victim rest =>
    have hpop : swapOutVictim r v = (some victim, v.popped r rest) := by
      simp only [swapOutVictim, hq]
      rfl
    change (tables a (v.popped r rest).pmm.mem r).Nodup at ht
    simp only [swapOutOne, hpop]
    obtain ⟨k, hk, hres | ⟨slot, hslot, hfree, hres⟩⟩ := reserveSlot_cases (v := v.popped r rest) hd hnext
    · rw [hres]
      -- without a slot both branches put the victim back
      have hback : requeue r victim { v.popped r rest with nextSlot := k } = { v with nextSlot := k } :=
        requeue_popped (v := { v with nextSlot := k }) hq
      have hkept : OutStep a r v (requeue r victim (releaseReserved none { v.popped r rest with nextSlot := k })) false :=
        .kept k v.disk v.ioClock hk (fun _ _ _ _ => rfl) hback
      generalize (if findVaForPage a r victim (v.popped r rest) ≠ 0 then
        (getPte a E r (findVaForPage a r victim (v.popped r rest)) false (v.popped r rest).pmm).1 else none) = ptep
      cases ptep with
      | none => exact hkept
      | some s => exact hkept
    · rw [hres]
      have hkept : OutStep a r v (requeue r victim (releaseReserved (some slot) ((v.popped r rest).reserve slot k)))
          false :=
        .kept k v.disk v.ioClock hk (fun _ _ _ _ => rfl)
          (requeue_released (k := k) v.disk v.ioClock false false hd hl hq hslot hfree)
      by_cases hva : findVaForPage a r victim (v.popped r rest) ≠ 0
      · obtain ⟨huser, s, hs, hpresent, haddr⟩ := findVaForPage_found ht hva
        rw [if_pos hva, getPte_lookup E ht huser, hs]
        simp only
        split
        · rename_i hok
          rw [Bool.and_eq_true, Bool.and_eq_true, beq_iff_eq] at hok
          exact evict_cases E hd hl hq huser hs hpresent hok.1.2 haddr hok.2 hslot hfree hk
        · exact hkept
      · rw [if_neg hva]
        exact hkept

/-! ## What a round preserves -/

theorem pageOf_swapEntry (slot : ℕ) (w x : Bool) : pageOf a (swapEntry slot w x) = 0 := by
  rw [pageOf, ptePresent_swapEntry]
  rfl

theorem slotsOf_swapEntry (w x : Bool) (hs : slot < 2 ^ 24) : slotsOf a (swapEntry slot w x) = {slot} := by
  have hne : ¬ (a.ptePresent (swapEntry slot w x) = true ∨ swapEntry slot w x = 0) := by
    rw [ptePresent_swapEntry]
    rintro (h | h)
    · cases h
    · exact swapEntry_ne_zero slot w x h
  rw [slotsOf, if_neg hne, slotOf_swapEntry w x hs]

theorem pageOf_present {w : Word} {p : ℕ} (hw : a.ptePresent w = true) (hp : a.pteAddr w = pageToPhys p)
    (h32 : p < 2 ^ 32) : pageOf a w = {p} := by
  rw [pageOf, if_pos hw, hp, physToPage_pageToPhys h32]

theorem Inv.queue_lt (hI : Inv a pool v) (hr : r ∈ v.spaces) {p : ℕ} (hp : p ∈ v.queue r) : p < 2 ^ 32 :=
  hI.bound p (hI.owned_mem_pool hr (Multiset.mem_add.2 (Or.inr ((hI.space r hr).queued p hp))))

theorem Inv.outStep (hI : Inv a pool v) (hr : r ∈ v.spaces) (hstep : OutStep a r v v' b) :
    Inv a pool v' := by
  cases hstep with
  | kept k disk c hk hdisk hv =>
    subst hv
    exact hI.congr rfl (fun _ _ => rfl) (fun _ _ => rfl) (fun _ _ => rfl) (fun _ _ => rfl) rfl rfl rfl rfl rfl rfl
      (fun _ => hk) rfl
  | moved victim rest va s slot k hqueue hva hs hpresent huser haddr href hslot hfree hk hv =>
    subst hv
    have hS := hI.space r hr
    have ht := (Multiset.nodup_add.1 hS.nodup).1
    have h32 : victim < 2 ^ 32 := hI.queue_lt hr (by rw [hqueue]; exact List.mem_cons_self)
    have h24 : slot < 2 ^ 24 := by
      have := hI.limit
      omega
    have hnodup := hS.queueNodup
    rw [hqueue, List.nodup_cons] at hnodup
    have hold := pageOf_present hpresent haddr h32
    have hslotsOld : slotsOf a (v.pmm.mem s.1 s.2) = 0 := by rw [slotsOf, if_pos (Or.inl hpresent)]
    have hrefs : ∀ g, (v.evicted a r victim rest s slot k).pmm.refCount g =
        if g = victim then 0 else v.pmm.refCount g := by
      intro g
      simp only [State.evicted, freePages]
      by_cases hg : g = victim
      · rw [if_pos (by omega), if_pos hg]
      · rw [if_neg (by omega), if_neg hg, if_neg hg]
    apply hI.step hr
    have hw := pageOf_swapEntry (a := a) slot (a.pteWritable (v.pmm.mem s.1 s.2)) (a.pteExecutable (v.pmm.mem s.1 s.2))
    rw [← hw]
    apply localStep_write hI hr hs (.out slot _ _ hslot.1 hslot.2) rfl
    · rw [hold, add_comm]
      rfl
    · intro p hp
      rw [hw] at hp
      exact absurd hp (Multiset.notMem_zero p)
    · intro g
      rw [hrefs, hw, hold, if_neg (Multiset.notMem_zero g)]
      simp only [Multiset.mem_singleton]
    · rfl
    · intro t _ _
      rw [slotsOf_swapEntry _ _ h24, hslotsOld]
      simp only [State.evicted, Multiset.count_singleton, Multiset.count_zero]
      by_cases htk : t = slot
      · rw [if_pos htk, if_pos htk, htk, hfree]
        rfl
      · rw [if_neg htk, if_neg htk]
    · show (if r = r then rest else v.queue r).Nodup
      rw [if_pos rfl]
      exact hnodup.2
    · intro f hf
      change f ∈ (if r = r then rest else v.queue r) at hf
      rw [if_pos rfl] at hf
      have hmapped := (written_of_leafSlot (w := swapEntry slot (a.pteWritable (v.pmm.mem s.1 s.2))
        (a.pteExecutable (v.pmm.mem s.1 s.2))) ht hs).mapped_add
      have hfm : f ∈ mapped a v.pmm.mem r := hS.queued f (by rw [hqueue]; exact List.mem_cons_of_mem victim hf)
      rw [hw, hold, add_zero] at hmapped
      rw [← hmapped, Multiset.mem_add, Multiset.mem_singleton] at hfm
      exact hfm.resolve_right fun h => hnodup.1 (h ▸ hf)
    · intro r' hr'
      exact if_neg hr'
    · rfl
    · rfl
    · rfl
    · rfl
    · exact fun _ => hk
    · simp [State.evicted, freePages, href]

theorem OutStep.device (h : OutStep a r v v' b) : v'.device = v.device := by
  cases h with
  | kept k disk c hk hdisk hv => rw [hv]
  | moved victim rest va s slot k hqueue hva hs hpresent huser haddr href hslot hfree hk hv => rw [hv]; rfl

theorem OutStep.spaces (h : OutStep a r v v' b) : v'.spaces = v.spaces := by
  cases h with
  | kept k disk c hk hdisk hv => rw [hv]
  | moved victim rest va s slot k hqueue hva hs hpresent huser haddr href hslot hfree hk hv => rw [hv]; rfl

theorem swapOutLoop_induct (E : Env) {P : State → Prop} (n : ℕ) (hI : Inv a pool v) (hr : r ∈ v.spaces)
    (hd : v.device = true) (hP : P v)
    (hstep : ∀ u u' b, Inv a pool u → r ∈ u.spaces → OutStep a r u u' b → P u → P u') :
    Inv a pool (swapOutLoop a E r n v).2 ∧ P (swapOutLoop a E r n v).2 := by
  induction n generalizing v with
  | zero => exact ⟨hI, hP⟩
  | succ n ih =>
    have hone := swapOutOne_cases E (hI.swapSpace hr).nodup hI.limit (hI.next hd) hd
    rw [swapOutLoop]
    generalize swapOutOne a E r v = res at hone
    obtain ⟨_ | _, u⟩ := res
    · exact ⟨hI.outStep hr hone, hstep v u false hI hr hone hP⟩
    · exact ih (hI.outStep hr hone) (by rw [hone.spaces]; exact hr) (by rw [hone.device]; exact hd)
        (hstep v u true hI hr hone hP)

theorem swapOut_induct (E : Env) {P : State → Prop} (current n : ℕ) (tick : Bool) (hI : Inv a pool v)
    (hr : r ∈ v.spaces) (hP : P v)
    (hstep : ∀ u u' b, Inv a pool u → r ∈ u.spaces → OutStep a r u u' b → P u → P u') :
    Inv a pool (swapOut a E current r n tick v).2 ∧ P (swapOut a E current r n tick v).2 := by
  rw [swapOut]
  split
  · exact ⟨hI, hP⟩
  · split
    · exact ⟨hI, hP⟩
    · rename_i hd
      exact swapOutLoop_induct E n hI hr (by simpa using hd) hP hstep

end Zonix.Vm
