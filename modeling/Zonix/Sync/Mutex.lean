import Zonix.Sync.WaitQueue

/-! # `Mutex`

`kernel/sync/mutex.cpp`: `lock` is the loop over `try_lock`'s test, `unlock` the release followed by
`wakeup_one`. -/

namespace Zonix.Sync

open Sched Function

structure Mutex (T : Type) where
  held : Bool
  owner : Option T

variable {T : Type} [DecidableEq T]

namespace Mutex

def init : Mutex T := ⟨false, none⟩

def tryLock (m : Mutex T) (current : T) : Option (Mutex T) := if m.held then none else some ⟨true, some current⟩

def unlock (m : Mutex T) (current : T) : Option (Mutex T) :=
  if m.held ∧ m.owner = some current then some ⟨false, none⟩ else none

omit [DecidableEq T] in
theorem tryLock_some {m m' : Mutex T} {t : T} (h : m.tryLock t = some m') : m.held = false ∧ m' = ⟨true, some t⟩ := by
  unfold tryLock at h
  cases hheld : m.held with
  | true => simp [hheld] at h
  | false => exact ⟨rfl, by simpa [hheld] using h.symm⟩

theorem unlock_some {m m' : Mutex T} {t : T} (h : m.unlock t = some m') :
    (m.held = true ∧ m.owner = some t) ∧ m' = ⟨false, none⟩ := by
  unfold unlock at h
  split at h
  · exact ⟨‹_›, (Option.some.inj h).symm⟩
  · cases h

def resource : Resource (Mutex T) T where
  take := tryLock
  give := unlock
  valid _ := True
  units m := if m.held then 0 else 1
  take_some m t m' h _ := by
    obtain ⟨hfree, rfl⟩ := tryLock_some h
    simp [hfree]
  take_none m t h := by
    by_cases hheld : m.held
    · simp [hheld]
    · simp [tryLock, hheld] at h
  give_some m t m' h _ := by
    obtain ⟨hheld, rfl⟩ := unlock_some h
    simp [hheld.1]

end Mutex

/-- Between a successful `lock` or `try_lock` and its `unlock`. -/
def Holding (σ : Sys (Mutex T) T) (t : T) : Prop := σ.given t < σ.taken t

def Owns (m : Mutex T) (t : T) : Prop := m.held = true ∧ m.owner = some t

instance (m : Mutex T) (t : T) : Decidable (Owns m t) := by unfold Owns; infer_instance

def Owned (σ : Sys (Mutex T) T) : Prop := ∀ t, σ.taken t = σ.given t + if Owns σ.res t then 1 else 0

variable {σ σ' : Sys (Mutex T) T} {a : Action T}

theorem Owned.took {t : T} {m : Mutex T} (ho : Owned σ) (h : σ.res.tryLock t = some m) : Owned (σ.took t m) := by
  obtain ⟨hfree, rfl⟩ := Mutex.tryLock_some h
  intro u
  have hu := ho u
  by_cases hut : u = t
  · subst hut
    simp_all [Sys.took, Owns]
  · have htu : t ≠ u := fun h => hut h.symm
    simp_all [Sys.took, Owns]

theorem Owned.gave {t : T} {m : Mutex T} (ho : Owned σ) (h : σ.res.unlock t = some m) : Owned (σ.gave t m) := by
  obtain ⟨⟨hheld, howner⟩, rfl⟩ := Mutex.unlock_some h
  intro u
  have hu := ho u
  by_cases hut : u = t
  · subst hut
    simp_all [Sys.gave, Owns]
  · have htu : t ≠ u := fun h => hut h.symm
    simp_all [Sys.gave, Owns]

theorem Owned.step (ho : Owned σ) (h : Step Mutex.resource σ a σ') : Owned σ' := by
  cases h with
  | took _ _ ht | tried _ _ ht => exact ho.took ht
  | blocked _ _ _ hs =>
    rw [sleep_eq hs]
    exact ho
  | refused => exact ho
  | resumed => exact ho
  | released _ _ hg => exact ho.gave hg
  | wakeup _ _ hw =>
    obtain ⟨-, rfl⟩ | ⟨u, rest, -, rfl⟩ := wakeupOne_cases hw
    · exact ho
    · exact ho

theorem Reach.owned (h : Reach Mutex.resource Mutex.init σ) : Owned σ := by
  induction h with
  | start => exact fun t => by simp [Sys.start, Mutex.init, Owns]
  | step _ hs ih => exact ih.step hs

theorem Owned.holding_iff (ho : Owned σ) (t : T) : Holding σ t ↔ Owns σ.res t := by
  have ht := ho t
  unfold Holding
  split at ht
  · rename_i h
    simp [h, ht]
  · rename_i h
    simp [h, ht]

/-- Mutual exclusion, the queue of the sleepers in the order of their arrival, and no lost wakeup. -/
structure MutexSafe (σ : Sys (Mutex T) T) : Prop where
  owner : ∀ t, Holding σ t → σ.res.held = true ∧ σ.res.owner = some t
  exclusive : ∀ t u, Holding σ t → Holding σ u → t = u
  queued : ∀ t, σ.state t = .sleeping → σ.head.count t = 1
  fifo : σ.slept = σ.woken ++ σ.head
  noLostWakeup : σ.res.held = false → σ.head ≠ [] → ∃ t, σ.pc t = .waking ∨ Woken σ t

theorem mutex_safe [Fintype T] (h : Reach Mutex.resource Mutex.init σ) : MutexSafe σ := by
  have howned := h.owned
  have hqueued := h.queued
  refine ⟨fun t ht => (howned.holding_iff t).mp ht, fun t u ht hu => ?_, fun t ht => ?_, hqueued.fifo, fun hfree hne => ?_⟩
  · have ht := (howned.holding_iff t).mp ht
    have hu := (howned.holding_iff u).mp hu
    exact Option.some.inj (ht.2.symm.trans hu.2)
  · exact List.count_eq_one_of_mem hqueued.nodup ((hqueued.mem t).mpr ht)
  · have hcard : 1 ≤ (pending σ).card := by
      simpa [Mutex.resource, hfree] using (h.served trivial).noLoss hne
    obtain ⟨t, ht⟩ := Finset.card_pos.mp hcard
    exact ⟨t, mem_pending.mp ht⟩

/-- One task locks, a second one queues up, the first has released and not yet woken. -/
theorem mutex_safe_handover : ∃ σ : Sys (Mutex (Fin 2)) (Fin 2), Reach Mutex.resource Mutex.init σ ∧
    σ.res.held = false ∧ σ.head = [1] ∧ MutexSafe σ := by
  have h₁ : Reach Mutex.resource Mutex.init _ := .step .start (.took (t := (0 : Fin 2)) (by decide) (Or.inl rfl) rfl)
  have h₂ := Reach.step h₁ (.blocked (t := 1) (by decide) (Or.inl rfl) rfl rfl)
  have h₃ := Reach.step h₂ (.released (t := 0) (by decide) rfl rfl)
  exact ⟨_, h₃, rfl, rfl, mutex_safe h₃⟩

end Zonix.Sync
