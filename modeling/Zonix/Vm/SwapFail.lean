import Mathlib
import Zonix.Vm.RoundTrip

/-!
# Failed swap operations

What is left of a `swap::out`, `swap::in` or page fault that gives up, whichever step failed: `kernel/mm/swap.cpp` and
`vmm::pg_fault`. Pages of the queue may be shared or not mapped, and entries may be any words.
-/

namespace Zonix.Vm

open Zonix.Lib.Radix

variable {a : Arch} {v v' : State} {r va : ℕ}

/-! ## Moving pages out -/

/-- Entries, contents, reference counts, free pages, queues and occupied slots are the same; the search for a slot may
start elsewhere and blocks of slots that are not occupied may have been written. -/
structure OutUnchanged (v v' : State) : Prop where
  pmm : v'.pmm = v.pmm
  queue : v'.queue = v.queue
  occupied : v'.occupied = v.occupied
  spaces : v'.spaces = v.spaces
  slotLimit : v'.slotLimit = v.slotLimit
  blocks : ∀ s, 0 < s → s < v.slotLimit → v.occupied s = true →
    readBlocks v'.disk (startLba s) = readBlocks v.disk (startLba s)

theorem OutUnchanged.refl (v : State) : OutUnchanged v v := ⟨rfl, rfl, rfl, rfl, rfl, fun _ _ _ _ => rfl⟩

theorem OutStep.unchanged (h : OutStep a r v v' false) : OutUnchanged v v' := by
  cases h with
  | kept k disk c hk hdisk hv =>
    subst hv
    exact ⟨rfl, rfl, rfl, rfl, rfl, hdisk⟩

theorem swapOutOne_noDevice (E : Env) (hd : v.device = false) : swapOutOne a E r v = (false, v) := by
  cases hq : v.queue r with
  | nil => simp only [swapOutOne, swapOutVictim, hq]
  | cons victim rest =>
    have hpop : swapOutVictim r v = (some victim, v.popped r rest) := by
      simp only [swapOutVictim, hq]
      rfl
    have hres : reserveSlot (v.popped r rest) = (none, v.popped r rest) := by
      rw [reserveSlot, if_neg]
      exact fun h => absurd (hd.symm.trans h) (by decide)
    have hback : requeue r victim (releaseReserved none (v.popped r rest)) = v := requeue_popped hq
    simp only [swapOutOne, hpop, hres]
    generalize (if findVaForPage a r victim (v.popped r rest) ≠ 0 then
      (getPte a E r (findVaForPage a r victim (v.popped r rest)) false (v.popped r rest).pmm).1 else none) = ptep
    cases ptep with
    | none => exact congrArg (Prod.mk false) hback
    | some s => exact congrArg (Prod.mk false) hback

inductive Evictions (a : Arch) (r : ℕ) : State → List ℕ → State → Prop where
  | nil (v : State) : Evictions a r v [] v
  | cons {v u v' : State} {victim : ℕ} {victims : List ℕ} (hhead : (v.queue r).head? = some victim)
      (hstep : OutStep a r v u true) (hrest : Evictions a r u victims v') : Evictions a r v (victim :: victims) v'

/-- What the rounds of `swap::out` for `n` pages did when `k` pages went out. -/
inductive OutRounds (a : Arch) (E : Env) (r n : ℕ) (v : State) : ℕ → State → Prop where
  | full {v' : State} (hlen : n ≤ (v.queue r).length) (hrun : Evictions a r v ((v.queue r).take n) v') :
      OutRounds a E r n v n v'
  | stopped {k : ℕ} {u v' : State} (hk : k < n) (hlen : k ≤ (v.queue r).length)
      (hrun : Evictions a r v ((v.queue r).take k) u) (hfail : swapOutOne a E r u = (false, v'))
      (hsame : OutUnchanged u v') : OutRounds a E r n v k v'

/-- What a call of `swap::out` that returned `k` did. -/
inductive OutRun (a : Arch) (E : Env) (current r n : ℕ) (tick : Bool) (v : State) : ℕ → State → Prop where
  | refused (h : r = v.kernelPgdir ∨ current ≠ r ∨ n = 0 ∨ tick = true ∨ v.device = false) :
      OutRun a E current r n tick v 0 v
  | ran {k : ℕ} {v' : State} (h : OutRounds a E r n v k v') : OutRun a E current r n tick v k v'

/-- What the rounds of `swap::out` need of the state and keep. -/
structure OutReady (a : Arch) (v : State) (r : ℕ) : Prop where
  nodup : (tables a v.pmm.mem r).Nodup
  limit : v.slotLimit ≤ 2 ^ 24
  next : 0 < v.nextSlot ∧ v.nextSlot < v.slotLimit
  device : v.device = true

theorem OutReady.step (hR : OutReady a v r) (h : OutStep a r v v' true) : OutReady a v' r := by
  cases h with
  | moved victim rest va s slot k hqueue hva hs hpresent huser haddr href hslot hfree hk hv =>
    subst hv
    refine ⟨?_, hR.limit, hk, hR.device⟩
    have hW := written_of_leafSlot (w := swapEntry slot (a.pteWritable (v.pmm.mem s.1 s.2))
      (a.pteExecutable (v.pmm.mem s.1 s.2))) hR.nodup hs
    show (tables a (write v.pmm.mem s _) r).Nodup
    rw [hW.tables_eq]
    exact hR.nodup

theorem OutStep.queue_tail (h : OutStep a r v v' true) : ∃ victim, v.queue r = victim :: v'.queue r := by
  cases h with
  | moved victim rest va s slot k hqueue hva hs hpresent huser haddr href hslot hfree hk hv =>
    refine ⟨victim, ?_⟩
    rw [hv, hqueue]
    simp only [State.evicted, if_true]

theorem swapOutLoop_rounds (E : Env) (n : ℕ) (hR : OutReady a v r) :
    OutRounds a E r n v (swapOutLoop a E r n v).1 (swapOutLoop a E r n v).2 := by
  induction n generalizing v with
  | zero => exact .full (Nat.zero_le _) (.nil v)
  | succ n ih =>
    have hone := swapOutOne_cases E hR.nodup hR.limit hR.next hR.device
    generalize hround : swapOutOne a E r v = res at hone
    obtain ⟨_ | _, u⟩ := res
    · simp only [swapOutLoop, hround]
      exact .stopped (Nat.succ_pos n) (Nat.zero_le _) (.nil v) hround hone.unchanged
    · change OutStep a r v u true at hone
      obtain ⟨victim, hqueue⟩ := hone.queue_tail
      have hhead : (v.queue r).head? = some victim := by rw [hqueue]; rfl
      have htake : ∀ j, (v.queue r).take (j + 1) = victim :: (u.queue r).take j := fun j => by
        rw [hqueue, List.take_succ_cons]
      have hlength : (v.queue r).length = (u.queue r).length + 1 := by rw [hqueue, List.length_cons]
      have hrest := ih (hR.step hone)
      simp only [swapOutLoop, hround]
      generalize swapOutLoop a E r n u = rest at hrest
      obtain ⟨k, v'⟩ := rest
      cases hrest with
      | full hlen hrun =>
        refine .full (by omega) ?_
        rw [htake]
        exact .cons hhead hone hrun
      | stopped hk hlen hrun hfail hsame =>
        refine .stopped (by omega) (by omega) ?_ hfail hsame
        rw [htake]
        exact .cons hhead hone hrun

theorem swapOut_run (E : Env) (current n : ℕ) (tick : Bool) (hS : SwapSpace a v r) :
    OutRun a E current r n tick v (swapOut a E current r n tick v).1 (swapOut a E current r n tick v).2 := by
  rw [swapOut]
  split
  · rename_i hargs
    refine .refused ?_
    rcases hargs with h | h | h | h
    · exact Or.inl h
    · exact Or.inr (Or.inl h)
    · exact Or.inr (Or.inr (Or.inl h))
    · exact Or.inr (Or.inr (Or.inr (Or.inl h)))
  · split
    · rename_i hd
      exact .refused (Or.inr (Or.inr (Or.inr (Or.inr (by simpa using hd)))))
    · rename_i hd
      have hd' : v.device = true := by simpa using hd
      exact .ran (swapOutLoop_rounds E n ⟨hS.nodup, hS.limit, hS.next hd', hd'⟩)

theorem swapOutOne_failed (E : Env) (hS : SwapSpace a v r) (hfail : (swapOutOne a E r v).1 = false) :
    OutUnchanged v (swapOutOne a E r v).2 := by
  cases hd : v.device with
  | false =>
    rw [swapOutOne_noDevice E hd]
    exact .refl v
  | true =>
    have hone := swapOutOne_cases E hS.nodup hS.limit (hS.next hd) hd
    rw [hfail] at hone
    exact hone.unchanged

/-! ## Bringing pages in -/

/-- Nothing but the contents of free frames and the clocks changed. -/
structure InUnchanged (a : Arch) (r : ℕ) (v v' : State) : Prop where
  words : ∀ va, leafWord a v'.pmm.mem r va = leafWord a v.pmm.mem r va
  mem : ∀ g ∉ v.pmm.free, v'.pmm.mem g = v.pmm.mem g
  free : v'.pmm.free = v.pmm.free
  queue : v'.queue = v.queue
  occupied : v'.occupied = v.occupied

theorem InUnchanged.refl (v : State) : InUnchanged a r v v := ⟨fun _ => rfl, fun _ _ => rfl, rfl, rfl, rfl⟩

theorem InStep.unchanged {error : Error} (hS : SwapSpace a v r) (h : InStep a r va v v' error)
    (herror : error ≠ .none) : InUnchanged a r v v' := by
  cases h with
  | failed error _ pmm c hfree hmem hv =>
    subst hv
    exact ⟨fun va => leafWord_congr fun g hg => hmem g (hS.held g hg), hmem, hfree, rfl, rfl⟩
  | restored p s slot write execute hp hva hs hword hslot hocc hv => exact absurd rfl herror

def EvictedEntry (a : Arch) (r va : ℕ) (resident entry : Word) : Prop :=
  ∃ u u', (tables a u.pmm.mem r).Nodup ∧ OutStep a r u u' true ∧ leafWord a u.pmm.mem r va = resident ∧
    leafWord a u'.pmm.mem r va = entry ∧ entry ≠ resident

/-- The page of `va` came back into frame `p`: its entry named an occupied slot, the new one has the rights of the
entry and of the page that was evicted, and no other entry changed. -/
structure PageRestored (a : Arch) (r va p : ℕ) (v v' : State) : Prop where
  free : p ∈ v.pmm.free
  entry : ∃ slot, v.occupied slot = true ∧ (0 < slot ∧ slot < v.slotLimit) ∧
    leafWord a v.pmm.mem r va = swapEntry slot (a.pteWritable (leafWord a v'.pmm.mem r va))
      (a.pteExecutable (leafWord a v'.pmm.mem r va))
  present : a.ptePresent (leafWord a v'.pmm.mem r va) = true
  user : a.pteUser (leafWord a v'.pmm.mem r va) = true
  addr : a.pteAddr (leafWord a v'.pmm.mem r va) = pageToPhys p
  rights : ∀ resident, EvictedEntry a r va resident (leafWord a v.pmm.mem r va) →
    a.pteWritable (leafWord a v'.pmm.mem r va) = a.pteWritable resident ∧
    a.pteExecutable (leafWord a v'.pmm.mem r va) = a.pteExecutable resident
  others : ∀ va', ¬ SamePage a va va' → leafWord a v'.pmm.mem r va' = leafWord a v.pmm.mem r va'

theorem EvictedEntry.eq {resident entry : Word} (h : EvictedEntry a r va resident entry) :
    ∃ slot, entry = swapEntry slot (a.pteWritable resident) (a.pteExecutable resident) := by
  obtain ⟨u, u', ht, hstep, hold, hnew, hne⟩ := h
  cases hstep with
  | moved victim rest va₀ s slot k hqueue hva hs hpresent huser haddr href hslot hfree hk hv =>
    obtain ⟨hword, hother⟩ := leafWord_write (w := swapEntry slot (a.pteWritable (u.pmm.mem s.1 s.2))
      (a.pteExecutable (u.pmm.mem s.1 s.2))) ht hs
    have hmem : u'.pmm.mem = write u.pmm.mem s (swapEntry slot (a.pteWritable (u.pmm.mem s.1 s.2))
        (a.pteExecutable (u.pmm.mem s.1 s.2))) := by rw [hv]; rfl
    rw [hmem] at hnew
    by_cases hsame : SamePage a va₀ va
    · rw [samePage_leafWord hsame, leafWord_slot hs] at hold
      rw [samePage_leafWord hsame, hword, hold] at hnew
      exact ⟨slot, hnew.symm⟩
    · rw [hother va hsame, hold] at hnew
      exact absurd hnew.symm hne

theorem InStep.restores (hS : SwapSpace a v r) (h : InStep a r va v v' .none) : ∃ p, PageRestored a r va p v v' := by
  cases h with
  | failed error herror pmm c hfree hmem hv => exact absurd rfl herror
  | restored p s slot write execute hp hva hs hword hslot hocc hv =>
    have hfill := hS.read_tables hp slot
    have ht : (tables a (v.read p slot).pmm.mem r).Nodup := by
      rw [tables_congr hfill]
      exact hS.nodup
    obtain ⟨hnew, hother⟩ := leafWord_write (w := a.makePtePage (pageToPhys p) (userPagePerm write execute)) ht
      ((leafSlot_congr hfill).trans hs)
    have hmem : v'.pmm.mem = Zonix.Lib.Radix.write (v.read p slot).pmm.mem s
        (a.makePtePage (pageToPhys p) (userPagePerm write execute)) := by rw [hv]; rfl
    have hpage := a.isPage_makePtePage (userPagePerm write execute) (fits_pageToPhys a p (hS.bound p hp))
    have hold : leafWord a v.pmm.mem r va = swapEntry slot write execute := by rw [leafWord_slot hs, hword]
    have hw : a.pteWritable (leafWord a v'.pmm.mem r va) = write := by
      rw [hmem, hnew, hpage.writable]
      rfl
    have hx : a.pteExecutable (leafWord a v'.pmm.mem r va) = execute := by
      rw [hmem, hnew, hpage.executable]
      simp only [userPagePerm, Bool.not_not]
    refine ⟨p, hp, ⟨slot, hocc, hslot, ?_⟩, ?_, ?_, ?_, ?_, ?_⟩
    · rw [hw, hx, hold]
    · rw [hmem, hnew]
      exact hpage.present
    · rw [hmem, hnew, hpage.user]
      rfl
    · rw [hmem, hnew, hpage.addr]
    · intro resident hev
      obtain ⟨slot', heq⟩ := hev.eq
      rw [hold] at heq
      have hwrite := congrArg (fun w => w &&& entryWrite != 0) heq
      have hexec := congrArg (fun w => w &&& entryExecute != 0) heq
      simp only [swapEntry_write, swapEntry_execute] at hwrite hexec
      rw [hw, hx]
      exact ⟨hwrite, hexec⟩
    · intro va' hva'
      rw [hmem, hother va' hva']
      exact leafWord_congr hfill

/-! ## Page faults -/

theorem pgFault_failed (E : Env) (code : FaultCode) (va : ℕ) (hS : SwapSpace a v r)
    (hfail : (pgFault a E r code va v).1 = false) : InUnchanged a r v (pgFault a E r code va v).2 := by
  obtain heq | heq := pgFault_cases (a := a) (v := v) (r := r) E code va
  · rw [heq]
    exact .refl v
  · rw [heq] at hfail ⊢
    exact (swapIn_step E _ hS).unchanged hS (beq_eq_false_iff_ne.1 hfail)

theorem pgFault_restores (E : Env) (code : FaultCode) (va : ℕ) (hS : SwapSpace a v r)
    (hok : (pgFault a E r code va v).1 = true) :
    ∃ p, PageRestored a r (va / pgSize * pgSize) p v (pgFault a E r code va v).2 := by
  obtain heq | heq := pgFault_cases (a := a) (v := v) (r := r) E code va
  · rw [heq] at hok
    cases hok
  · rw [heq] at hok ⊢
    have hstep := swapIn_step E (va / pgSize * pgSize) hS
    rw [beq_iff_eq.1 hok] at hstep
    exact hstep.restores hS

theorem PageRestored.zero {p va' : ℕ} (h : PageRestored a r va p v v') (hz : leafWord a v.pmm.mem r va' = 0) :
    leafWord a v'.pmm.mem r va' = 0 := by
  by_cases hsame : SamePage a va va'
  · obtain ⟨slot, -, -, hentry⟩ := h.entry
    rw [samePage_leafWord hsame, hentry] at hz
    exact absurd hz (swapEntry_ne_zero _ _ _)
  · rw [h.others va' hsame, hz]

/-- An attempt to move a page out that fails changes nothing that can be seen; `swap::out` moves out the head of the
queue as many times as it says and stops at the first failure; a failed `swap::in` or page fault changes nothing; a page
fault that succeeds brings back a page that was out, with the rights it had, and an empty entry stays empty. -/
theorem failed_swap_invisible (a : Arch) (E : Env) (v : State) (r : ℕ) (hS : SwapSpace a v r) :
    ((swapOutOne a E r v).1 = false → OutUnchanged v (swapOutOne a E r v).2) ∧
    (∀ current n tick,
      OutRun a E current r n tick v (swapOut a E current r n tick v).1 (swapOut a E current r n tick v).2) ∧
    (∀ va, (swapIn a E r va v).1 ≠ .none → InUnchanged a r v (swapIn a E r va v).2) ∧
    (∀ code va, (pgFault a E r code va v).1 = false → InUnchanged a r v (pgFault a E r code va v).2) ∧
    (∀ code va, (pgFault a E r code va v).1 = true →
      ∃ p, PageRestored a r (va / pgSize * pgSize) p v (pgFault a E r code va v).2) ∧
    (∀ code va va', leafWord a v.pmm.mem r va' = 0 → leafWord a (pgFault a E r code va v).2.pmm.mem r va' = 0) := by
  refine ⟨swapOutOne_failed E hS, fun current n tick => swapOut_run E current n tick hS,
    fun va => (swapIn_step E va hS).unchanged hS, fun code va => pgFault_failed E code va hS,
    fun code va => pgFault_restores E code va hS, ?_⟩
  intro code va va' hz
  cases hres : (pgFault a E r code va v).1 with
  | false => rw [(pgFault_failed E code va hS hres).words, hz]
  | true =>
    obtain ⟨p, hp⟩ := pgFault_restores E code va hS hres
    exact hp.zero hz

theorem afterOut_swapSpace : SwapSpace .riscv64 afterOut 10 := by
  have hreach := (afterCreate_reached.trans (afterMap_reached trivial)).trans (afterOut_reached trivial trivial)
  exact (hreach.inv (booted_fresh.inv .riscv64)).swapSpace (by decide +kernel)

/-- The page is out and was not executable: an instruction fetch fails and changes nothing, a store brings it back. -/
theorem failed_swap_invisible_fetch :
    InUnchanged .riscv64 10 afterOut (pgFault .riscv64 ascending 10 ⟨false, false, true, true⟩ 0x1008 afterOut).2 ∧
      ∃ p, PageRestored .riscv64 10 0x1000 p afterOut
        (pgFault .riscv64 ascending 10 ⟨false, true, true, false⟩ 0x1008 afterOut).2 := by
  have hall := failed_swap_invisible .riscv64 ascending afterOut 10 afterOut_swapSpace
  exact ⟨hall.2.2.2.1 ⟨false, false, true, true⟩ 0x1008 (by decide +kernel),
    hall.2.2.2.2.1 ⟨false, true, true, false⟩ 0x1008 (by decide +kernel)⟩

end Zonix.Vm
