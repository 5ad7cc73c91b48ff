import Mathlib
import Zonix.Vm.SwapOut

/-!
# Bringing a page back

`swap::in` and the page fault that calls it. Once the page was read nothing can fail: the tables exist, the new page
is on no queue, and the entry is the one that was read.
-/

namespace Zonix.Vm

open Zonix.Lib.Radix

variable {a : Arch} {pool : Multiset ℕ} {v : State} {r : ℕ}

/-- The state after the page of the entry at `s` was read from `slot` into page `p`. -/
def State.read (v : State) (p slot : ℕ) : State :=
  { v.takePage p with ioClock := v.ioClock + 1,
                      pmm := { (v.takePage p).pmm with mem := fill v.pmm.mem p (readBlocks v.disk (startLba slot)) } }

def State.restored (a : Arch) (v : State) (r p : ℕ) (s : ℕ × Fin 512) (slot : ℕ) (write execute : Bool) : State :=
  { v with ioClock := v.ioClock + 1,
           queue := fun f => if f = r then v.queue r ++ [p] else v.queue f,
           occupied := fun t => if t = slot then false else v.occupied t,
           pmm := (v.read p slot).pmm.enter s p (a.makePtePage (pageToPhys p) (userPagePerm write execute)) }

/-- What `swap::in` did: at most the contents of a free frame changed, or the page of the entry at `s` came back. -/
inductive InStep (a : Arch) (r va : ℕ) (v v' : State) : Error → Prop where
  | failed (error : Error) (herror : error ≠ .none) (pmm : Pmm) (c : ℕ) (hfree : pmm.free = v.pmm.free)
      (hmem : ∀ g ∉ v.pmm.free, pmm.mem g = v.pmm.mem g)
      (hv : v' = { v with pmm := pmm, ioClock := c }) : InStep a r va v v' error
  | restored (p : ℕ) (s : ℕ × Fin 512) (slot : ℕ) (write execute : Bool) (hp : p ∈ v.pmm.free)
      (hva : IsUser a va) (hs : leafSlot a v.pmm.mem r (levelIndex va) = some s)
      (hword : v.pmm.mem s.1 s.2 = swapEntry slot write execute) (hslot : 0 < slot ∧ slot < v.slotLimit)
      (hocc : v.occupied slot = true)
      (hv : v' = v.restored a r p s slot write execute) : InStep a r va v v' .none

/-! ## The entry -/

theorem swapfsRead_slot (E : Env) {entry : Word} (page : ℕ) {slot : ℕ} (hne : slot ≠ 0) (hd : v.device = true)
    (hs : allocatedSlot v entry = slot) :
    swapfsRead E entry page v = match E.readError v.ioClock with
      | none =>
        (.none, { v with ioClock := v.ioClock + 1,
                         pmm := { v.pmm with mem := fill v.pmm.mem page (readBlocks v.disk (startLba slot)) } })
      | some left =>
        (.io, { v with ioClock := v.ioClock + 1, pmm := { v.pmm with mem := fill v.pmm.mem page left } }) := by
  cases herr : E.readError v.ioClock with
  | none => simp only [swapfsRead, hs, hd, hne, herr, Bool.not_true, Bool.false_eq_true, if_false]
  | some left => simp only [swapfsRead, hs, hd, hne, herr, Bool.not_true, Bool.false_eq_true, if_false]

/-! ## The page that was read -/

variable {p va : ℕ} {s : ℕ × Fin 512}

theorem Inv.fillPage (hI : Inv a (pool.erase p) v) (hnd : pool.Nodup) (hk : p ≠ v.kernelPgdir)
    (ws : Fin 512 → Word) (c : ℕ) :
    Inv a (pool.erase p) { v with ioClock := c, pmm := { v.pmm with mem := fill v.pmm.mem p ws } } := by
  refine hI.congr rfl ?_ (fun _ _ => rfl) (fun _ _ => rfl) (fun _ _ => rfl) rfl rfl rfl ?_ rfl rfl hI.next rfl
  · intro g hg
    apply fill_node
    rintro rfl
    exact hnd.notMem_erase hg
  · exact fill_node _ _ _ hk.symm

theorem SwapSpace.read_tables (hS : SwapSpace a v r) (hp : p ∈ v.pmm.free) (slot : ℕ) :
    ∀ g ∈ tables a v.pmm.mem r, (v.read p slot).pmm.mem g = v.pmm.mem g := by
  intro g hg
  apply fill_node
  rintro rfl
  exact hS.held g hg hp

theorem swapInMap_read (E : Env) {slot : ℕ} {write execute : Bool} (hS : SwapSpace a v r)
    (hd : v.device = true) (hp : p ∈ v.pmm.free) (hva : IsUser a va)
    (hs : leafSlot a v.pmm.mem r (levelIndex va) = some s)
    (hword : v.pmm.mem s.1 s.2 = swapEntry slot write execute) (hslot : 0 < slot ∧ slot < v.slotLimit)
    (hocc : v.occupied slot = true) :
    swapInMap a E r va p s (swapEntry slot write execute) (v.read p slot) =
      (.none, v.restored a r p s slot write execute) := by
  have hfill := hS.read_tables hp slot
  have hentry : (v.read p slot).pmm.mem s.1 s.2 = swapEntry slot write execute := by
    rw [hfill s.1 (leafSlot_mem hs), hword]
  have hs' : leafSlot a (v.read p slot).pmm.mem r (levelIndex va) = some s := by rw [leafSlot_congr hfill, hs]
  have ht' : (tables a (v.read p slot).pmm.mem r).Nodup := by rw [tables_congr hfill]; exact hS.nodup
  have hqueue : mapSwappable r p (v.read p slot) = (.none, { v.read p slot with
      queue := fun f => if f = r then v.queue r ++ [p] else v.queue f }) := by
    have hoff : unqueued (v.read p slot) p = true := hS.unqueued p hp
    rw [mapSwappable, if_pos hoff]
    rfl
  have hwalk : getPte a E r va true (v.read p slot).pmm = (some s, (v.read p slot).pmm) := by
    rw [getPte, ptWalkLevels_eq]
    exact getPteFrom_existing E (by rw [slot_eq_leafSlot ht' hva, hs'])
  have hinsert : pageInsert a E r p va (userPagePerm write execute) (v.read p slot).pmm =
      (.none, (v.read p slot).pmm.enter s p (a.makePtePage (pageToPhys p) (userPagePerm write execute))) := by
    simp only [pageInsert, hwalk, hentry, ptePresent_swapEntry, Bool.false_eq_true, if_false]
    rfl
  rw [swapInMap, if_neg (not_not.2 hentry)]
  simp only [swapEntry_write, swapEntry_execute, hqueue, hinsert]
  refine congrArg (Prod.mk Error.none) (releaseEntry_occupied write execute ?_ ?_ ?_ ?_)
  · exact hd
  · exact hS.limit
  · exact hslot
  · exact hocc

theorem Inv.restored {slot : ℕ} {write execute : Bool} (hI : Inv a pool v)
    (hr : r ∈ v.spaces) (hp : p ∈ v.pmm.free) (hs : leafSlot a v.pmm.mem r (levelIndex va) = some s)
    (hword : v.pmm.mem s.1 s.2 = swapEntry slot write execute) (hslot : 0 < slot ∧ slot < v.slotLimit)
    (hocc : v.occupied slot = true) : Inv a pool (v.restored a r p s slot write execute) := by
  obtain ⟨hI₁, hpool, hpp, h32, href⟩ := hI.takePage hp
  have hpk : p ≠ v.kernelPgdir := fun h => hI.kernel (h ▸ hpp)
  have hI₂ : Inv a (pool.erase p) (v.read p slot) := hI₁.fillPage hI.nodup hpk _ _
  have hfill := (hI.swapSpace hr).read_tables hp slot
  have hs' : leafSlot a (v.read p slot).pmm.mem r (levelIndex va) = some s := by rw [leafSlot_congr hfill, hs]
  have hword' : (v.read p slot).pmm.mem s.1 s.2 = swapEntry slot write execute := by
    rw [hfill s.1 (leafSlot_mem hs), hword]
  have hS := hI₂.space r hr
  have hW := written_of_leafSlot (w := a.makePtePage (pageToPhys p) (userPagePerm write execute))
    (Multiset.nodup_add.1 hS.nodup).1 hs'
  have hpage := pageOf_makePtePage a h32 (userPagePerm write execute)
  have h24 : slot < 2 ^ 24 := by
    have := hI.limit
    omega
  apply hI₂.handIn hI.nodup hpp h32 hpk hr
  rw [← hpage]
  apply localStep_write hI₂ hr hs' (.page p _ h32) rfl
  · rw [hword', pageOf_swapEntry, add_zero]
    rfl
  · intro f hf
    rw [hpage, Multiset.mem_singleton] at hf
    subst hf
    exact ⟨fun h => hpool (hI₂.free_mem_pool h), fun h => hpool (hI₂.owned_mem_pool hr h)⟩
  · intro g
    rw [hpage, hword', pageOf_swapEntry, if_neg (Multiset.notMem_zero g)]
    simp only [State.restored, Pmm.enter, Multiset.mem_singleton]
    rw [show (v.read p slot).pmm.refCount p = 0 from href, zero_add]
  · rfl
  · intro k _ _
    rw [slotsOf_makePtePage a h32, hword', slotsOf_swapEntry _ _ h24, Multiset.count_zero, Multiset.count_singleton]
    show 0 + (v.occupied k).toNat = (if k = slot then 1 else 0) + (if k = slot then false else v.occupied k).toNat
    by_cases hk : k = slot
    · rw [if_pos hk, if_pos hk, hk, hocc]
      rfl
    · rw [if_neg hk, if_neg hk]
  · show (if r = r then v.queue r ++ [p] else v.queue r).Nodup
    rw [if_pos rfl]
    apply List.Nodup.append hS.queueNodup (List.nodup_singleton p)
    rw [List.disjoint_singleton]
    exact fun h => hpool (hI₂.owned_mem_pool hr (Multiset.mem_add.2 (Or.inr (hS.queued p h))))
  · intro f hf
    change f ∈ (if r = r then v.queue r ++ [p] else v.queue r) at hf
    have hm := hW.mapped_add
    rw [hword', pageOf_swapEntry, add_zero, hpage] at hm
    show f ∈ mapped a (Zonix.Lib.Radix.write (v.read p slot).pmm.mem s _) r
    rw [if_pos rfl, List.mem_append, List.mem_singleton] at hf
    rw [hm, Multiset.mem_add, Multiset.mem_singleton]
    exact hf.imp_left (hS.queued f)
  · intro r' hr'
    exact if_neg hr'
  · rfl
  · rfl
  · rfl
  · rfl
  · exact hI₂.next
  · rfl

/-! ## `swap::in` -/

theorem swapInEntry_read (E : Env) (va : ℕ) {slot : ℕ} {w x : Bool} (hd : v.device = true)
    (hword : v.pmm.mem s.1 s.2 = swapEntry slot w x) (hslot : slot ≠ 0)
    (halloc : ∀ u : State, u.device = v.device → u.slotLimit = v.slotLimit → u.occupied = v.occupied →
      allocatedSlot u (swapEntry slot w x) = slot)
    (hget : allocPages E 1 v.pmm = (some p, (v.takePage p).pmm)) :
    swapInEntry a E r va s v = match E.readError v.ioClock with
      | none => swapInMap a E r va p s (swapEntry slot w x) (v.read p slot)
      | some left => (.io, { v with ioClock := v.ioClock + 1, pmm := freePages p 1 { (v.takePage p).pmm with
          mem := fill v.pmm.mem p left } }) := by
  have hread := swapfsRead_slot E (v := v.takePage p) p hslot hd (halloc (v.takePage p) rfl rfl rfl)
  have hok : (a.ptePresent (swapEntry slot w x) || allocatedSlot v (swapEntry slot w x) == 0) = false := by
    rw [ptePresent_swapEntry, halloc v rfl rfl rfl]
    simpa using hslot
  have hstate : ({ v with pmm := (v.takePage p).pmm } : State) = v.takePage p := rfl
  simp only [swapInEntry, hword, hok, Bool.false_eq_true, if_false, hget, hstate, hread]
  rw [show (v.takePage p).ioClock = v.ioClock from rfl]
  cases E.readError v.ioClock with
  | none => rfl
  | some left => rfl

def State.unread (v : State) (p : ℕ) (left : Fin 512 → Word) : State :=
  { v with ioClock := v.ioClock + 1,
           pmm := freePages p 1 { (v.takePage p).pmm with mem := fill v.pmm.mem p left } }

theorem swapInEntry_cases (E : Env) (hS : SwapSpace a v r) (hd : v.device = true)
    (hva : IsUser a va) (hs : leafSlot a v.pmm.mem r (levelIndex va) = some s) :
    swapInEntry a E r va s v = (.invalid, v) ∨
      swapInEntry a E r va s v = (.noMem, { v with pmm := { v.pmm with clock := v.pmm.clock + 1 } }) ∨
      ∃ p ∈ v.pmm.free, (∃ left, swapInEntry a E r va s v = (.io, v.unread p left)) ∨
        ∃ slot write execute, v.pmm.mem s.1 s.2 = swapEntry slot write execute ∧ (0 < slot ∧ slot < v.slotLimit) ∧
          v.occupied slot = true ∧ swapInEntry a E r va s v = (.none, v.restored a r p s slot write execute) := by
  by_cases hbad : (a.ptePresent (v.pmm.mem s.1 s.2) || allocatedSlot v (v.pmm.mem s.1 s.2) == 0) = true
  · left
    rw [swapInEntry]
    simp only [hbad, if_true]
  · right
    have hgood := hbad
    rw [Bool.or_eq_true, not_or, beq_iff_eq] at hgood
    obtain ⟨hword, hslot, hocc⟩ := allocatedSlot_ne_zero hgood.2
    generalize slotOf (v.pmm.mem s.1 s.2) = slot at hword hslot hocc
    generalize (v.pmm.mem s.1 s.2 &&& entryWrite != 0) = write at hword
    generalize (v.pmm.mem s.1 s.2 &&& entryExecute != 0) = execute at hword
    obtain hno | ⟨p, hp, hget⟩ := allocPages_one_cases E v.pmm
    · left
      rw [swapInEntry]
      simp only [hbad, hno, Bool.false_eq_true, if_false]
    · have halloc : ∀ u : State, u.device = v.device → u.slotLimit = v.slotLimit → u.occupied = v.occupied →
          allocatedSlot u (swapEntry slot write execute) = slot := fun u h1 h2 h3 =>
        allocatedSlot_occupied write execute (h1.trans hd) (by rw [h2]; exact hS.limit) (by rw [h2]; exact hslot)
          (by rw [h3]; exact hocc)
      refine Or.inr ⟨p, hp, ?_⟩
      rw [swapInEntry_read (a := a) (r := r) E va hd hword (by omega) halloc hget]
      cases E.readError v.ioClock with
      | none =>
        exact Or.inr ⟨slot, write, execute, hword, hslot, hocc, swapInMap_read E hS hd hp hva hs hword hslot hocc⟩
      | some left => exact Or.inl ⟨left, rfl⟩

theorem swapInEntry_step (E : Env) (hS : SwapSpace a v r) (hd : v.device = true)
    (hva : IsUser a va) (hs : leafSlot a v.pmm.mem r (levelIndex va) = some s) :
    InStep a r va v (swapInEntry a E r va s v).2 (swapInEntry a E r va s v).1 := by
  obtain heq | heq | ⟨p, hp, ⟨left, heq⟩ | ⟨slot, write, execute, hword, hslot, hocc, heq⟩⟩ :=
    swapInEntry_cases E hS hd hva hs
  · rw [heq]
    exact .failed .invalid (by decide) v.pmm v.ioClock rfl (fun _ _ => rfl) rfl
  · rw [heq]
    exact .failed .noMem (by decide) { v.pmm with clock := v.pmm.clock + 1 } v.ioClock rfl (fun _ _ => rfl) rfl
  · rw [heq]
    refine .failed .io (by decide) _ (v.ioClock + 1) (Multiset.cons_erase hp) ?_ rfl
    intro g hg
    exact fill_node _ _ _ fun h => hg (h ▸ hp)
  · rw [heq]
    exact .restored p s slot write execute hp hva hs hword hslot hocc rfl

theorem Inv.swapInEntry (E : Env) (hI : Inv a pool v) (hr : r ∈ v.spaces)
    (hd : v.device = true) (hva : IsUser a va) (hs : leafSlot a v.pmm.mem r (levelIndex va) = some s) :
    Inv a pool (swapInEntry a E r va s v).2 := by
  obtain heq | heq | ⟨p, hp, ⟨left, heq⟩ | ⟨slot, write, execute, hword, hslot, hocc, heq⟩⟩ :=
    swapInEntry_cases E (hI.swapSpace hr) hd hva hs
  · rw [heq]
    exact hI
  · rw [heq]
    exact hI.tick _
  · rw [heq]
    have hpk : p ≠ v.kernelPgdir := fun h => hI.kernel (h ▸ hI.free_mem_pool hp)
    obtain ⟨hI₁, -, hpp, h32, href⟩ := hI.takePage hp
    exact (hI₁.fillPage hI.nodup hpk left (v.ioClock + 1)).giveBack hpp hI.nodup h32 hpk href
  · rw [heq]
    exact hI.restored hr hp hs hword hslot hocc

theorem swapIn_cases (E : Env) (va : ℕ) (ht : (tables a v.pmm.mem r).Nodup) :
    (∃ error, error ≠ Error.none ∧ swapIn a E r va v = (error, v)) ∨
      ∃ s, v.device = true ∧ IsUser a va ∧ leafSlot a v.pmm.mem r (levelIndex va) = some s ∧
        swapIn a E r va v = swapInEntry a E r va s v := by
  rw [swapIn]
  split
  · exact Or.inl ⟨.invalid, by decide, rfl⟩
  · rename_i hargs
    rw [not_or, not_or, not_le] at hargs
    have hva := isUser_of_lt hargs.2.2
    split
    · exact Or.inl ⟨.noDevice, by decide, rfl⟩
    · rename_i hd
      rw [getPte_lookup E ht hva]
      cases hs : leafSlot a v.pmm.mem r (levelIndex va) with
      | none => exact Or.inl ⟨.notFound, by decide, rfl⟩
      | some s => exact Or.inr ⟨s, by simpa using hd, hva, rfl, rfl⟩

theorem swapIn_step (E : Env) (va : ℕ) (hS : SwapSpace a v r) :
    InStep a r va v (swapIn a E r va v).2 (swapIn a E r va v).1 := by
  obtain ⟨error, herror, heq⟩ | ⟨s, hd, hva, hs, heq⟩ := swapIn_cases E va hS.nodup
  · rw [heq]
    exact .failed error herror v.pmm v.ioClock rfl (fun _ _ => rfl) rfl
  · rw [heq]
    exact swapInEntry_step E hS hd hva hs

theorem swapIn_spec (E : Env) (va : ℕ) (hI : Inv a pool v) (hr : r ∈ v.spaces) :
    Inv a pool (swapIn a E r va v).2 ∧ InStep a r va v (swapIn a E r va v).2 (swapIn a E r va v).1 := by
  refine ⟨?_, swapIn_step E va (hI.swapSpace hr)⟩
  obtain ⟨error, -, heq⟩ | ⟨s, hd, hva, hs, heq⟩ := swapIn_cases E va (hI.swapSpace hr).nodup
  · rw [heq]
    exact hI
  · rw [heq]
    exact hI.swapInEntry E hr hd hva hs

theorem pgFault_cases (E : Env) (code : FaultCode) (va : ℕ) :
    pgFault a E r code va v = (false, v) ∨
      pgFault a E r code va v =
        ((swapIn a E r (va / pgSize * pgSize) v).1 == .none, (swapIn a E r (va / pgSize * pgSize) v).2) := by
  simp only [pgFault]
  split
  · exact Or.inl rfl
  · split
    · exact Or.inl rfl
    · split
      · exact Or.inl rfl
      · exact Or.inr rfl

end Zonix.Vm
