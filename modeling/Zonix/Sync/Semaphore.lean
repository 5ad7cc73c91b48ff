import Zonix.Sync.WaitQueue

/-! # `Semaphore`

`kernel/sync/semaphore.cpp`: `down` is the loop over `try_down`'s test, `up` the increment followed by
`wakeup_one`.  The `int` count is exact here, since its overflow has no defined result. -/

namespace Zonix.Sync

structure Semaphore where
  count : ℤ

namespace Semaphore

def tryDown (s : Semaphore) : Option Semaphore := if s.count > 0 then some ⟨s.count - 1⟩ else none

def up (s : Semaphore) : Semaphore := ⟨s.count + 1⟩

def resource (T : Type) : Resource Semaphore T where
  take s _ := s.tryDown
  give s _ := some s.up
  valid s := 0 ≤ s.count
  units s := s.count.toNat
  take_some s _ s' h _ := by
    unfold tryDown at h
    split at h
    · cases h
      simp only
      omega
    · cases h
  take_none s _ h := by
    unfold tryDown at h
    split at h
    · cases h
    · omega
  give_some s _ s' h hs := by
    cases h
    simp only [up]
    omega

end Semaphore

variable {T : Type} [DecidableEq T] [Fintype T]

/-- The count is what was put in less what was taken, and a unit that is free while a task sleeps
is owed to a pending wakeup or to a task that will test again. -/
structure SemaphoreSafe (c : ℤ) (σ : Sys Semaphore T) : Prop where
  count : σ.res.count = c + ∑ t, (σ.given t : ℤ) - ∑ t, (σ.taken t : ℤ)
  nonneg : 0 ≤ σ.res.count
  noLostWakeup : (∃ t, σ.state t = .sleeping) → σ.res.count ≤ (wakers σ).card + (wokens σ).card
  notForGood : (∃ t, σ.state t = .sleeping) → 0 < σ.res.count → ∃ t, σ.pc t = .waking ∨ Woken σ t

theorem semaphore_safe {c : ℤ} (hc : 0 ≤ c) {σ : Sys Semaphore T} (h : Reach (Semaphore.resource T) ⟨c⟩ σ) :
    SemaphoreSafe c σ := by
  have hserved := h.served hc
  have hnonneg : 0 ≤ σ.res.count := hserved.valid
  have hbalance := hserved.balance
  simp only [Semaphore.resource] at hbalance
  have hle : (∃ t, σ.state t = .sleeping) → σ.res.count.toNat ≤ (pending σ).card := fun ⟨t, ht⟩ =>
    hserved.noLoss (List.ne_nil_of_mem ((h.queued.mem t).mpr ht))
  refine ⟨?_, hnonneg, fun hsleep => ?_, fun hsleep hpos => ?_⟩
  · have hcast : (σ.res.count.toNat : ℤ) + ∑ t, (σ.taken t : ℤ) = (c.toNat : ℤ) + ∑ t, (σ.given t : ℤ) := by
      exact_mod_cast hbalance
    rw [Int.toNat_of_nonneg hnonneg, Int.toNat_of_nonneg hc] at hcast
    omega
  · have hle := hle hsleep
    rw [card_pending] at hle
    omega
  · have hle := hle hsleep
    obtain ⟨t, ht⟩ := Finset.card_pos.mp (show 0 < (pending σ).card by omega)
    exact ⟨t, mem_pending.mp ht⟩

/-- A task finds the count at 0 and sleeps; the unit of the next `up` is owed to its pending wakeup. -/
theorem semaphore_safe_owed : ∃ σ : Sys Semaphore (Fin 2), Reach (Semaphore.resource (Fin 2)) ⟨0⟩ σ ∧
    σ.res.count = 1 ∧ σ.state 1 = .sleeping ∧ SemaphoreSafe 0 σ := by
  have h₁ : Reach (Semaphore.resource (Fin 2)) ⟨0⟩ _ := .step .start (.blocked (t := 1) (by decide) (Or.inl rfl) rfl rfl)
  have h₂ := Reach.step h₁ (.released (t := 0) (by decide) rfl rfl)
  exact ⟨_, h₂, rfl, rfl, semaphore_safe (by decide) h₂⟩

end Zonix.Sync
