import Mathlib.Algebra.BigOperators.Ring.Finset
import Mathlib.Data.Fintype.BigOperators
import Zonix.Sched.TaskState

/-! # Blocking on a wait queue

`WaitQueue` of `kernel/sync/waitqueue.cpp` under the loop that `Mutex::lock` and `Semaphore::down`
share: test the condition, or queue up and sleep, all in one guarded section.  A step is one
guarded section of one task; the other tasks may run between any two of them. -/

namespace Zonix.Sync

open Sched Function

structure Resource (R T : Type) where
  take : R → T → Option R
  give : R → T → Option R
  valid : R → Prop
  units : R → ℕ
  take_some : ∀ r t r', take r t = some r' → valid r → valid r' ∧ units r = units r' + 1
  take_none : ∀ r t, take r t = none → units r = 0
  give_some : ∀ r t r', give r t = some r' → valid r → valid r' ∧ units r' = units r + 1

/-- Where a task stands: in `schedule` inside `WaitQueue::sleep`, before another round of the loop,
or between the release and the wakeup. -/
inductive Pc where
  | outside | inSleep | retry | waking
  deriving Repr, DecidableEq

/-- `head` is the queue, first waiter first.  The last four fields are records that the code does
not keep: who queued up and who was woken, in order, and how often a task took and gave a unit. -/
structure Sys (R T : Type) where
  res : R
  head : List T
  state : T → TaskState
  pc : T → Pc
  slept : List T
  woken : List T
  taken : T → ℕ
  given : T → ℕ

inductive Action (T : Type) where
  | acquire (t : T)
  | tryAcquire (t : T)
  | resume (t : T)
  | release (t : T)
  | wakeup (t : T)

variable {R T : Type} [DecidableEq T]

namespace Sys

def start (r : R) : Sys R T := ⟨r, [], fun _ => .runnable, fun _ => .outside, [], [], fun _ => 0, fun _ => 0⟩

/-- The first half of `WaitQueue::sleep`. -/
def sleep (σ : Sys R T) (t : T) : Option (Sys R T) := do
  let st ← (σ.state t).sleep
  some { σ with head := σ.head ++ [t], state := update σ.state t st, pc := update σ.pc t .inSleep, slept := σ.slept ++ [t] }

/-- Its end, after `schedule` has returned. -/
def unlink (σ : Sys R T) (t : T) : Sys R T := { σ with head := σ.head.erase t, pc := update σ.pc t .retry }

def wakeupOne (σ : Sys R T) : Option (Sys R T) :=
  match σ.head with
  | [] => some σ
  | u :: rest => do
    let st ← (σ.state u).wakeup
    some { σ with head := rest, state := update σ.state u st, woken := σ.woken ++ [u] }

def took (σ : Sys R T) (t : T) (r : R) : Sys R T :=
  { σ with res := r, pc := update σ.pc t .outside, taken := update σ.taken t (σ.taken t + 1) }

def gave (σ : Sys R T) (t : T) (r : R) : Sys R T :=
  { σ with res := r, pc := update σ.pc t .waking, given := update σ.given t (σ.given t + 1) }

end Sys

/-- One guarded section of a task that the scheduler can run. -/
inductive Step (P : Resource R T) : Sys R T → Action T → Sys R T → Prop
  | took {σ : Sys R T} {t : T} {r : R} (awake : σ.state t ≠ .sleeping) (pc : σ.pc t = .outside ∨ σ.pc t = .retry)
      (take : P.take σ.res t = some r) : Step P σ (.acquire t) (σ.took t r)
  | blocked {σ σ' : Sys R T} {t : T} (awake : σ.state t ≠ .sleeping) (pc : σ.pc t = .outside ∨ σ.pc t = .retry)
      (take : P.take σ.res t = none) (sleep : σ.sleep t = some σ') : Step P σ (.acquire t) σ'
  | tried {σ : Sys R T} {t : T} {r : R} (awake : σ.state t ≠ .sleeping) (pc : σ.pc t = .outside)
      (take : P.take σ.res t = some r) : Step P σ (.tryAcquire t) (σ.took t r)
  | refused {σ : Sys R T} {t : T} (awake : σ.state t ≠ .sleeping) (pc : σ.pc t = .outside)
      (take : P.take σ.res t = none) : Step P σ (.tryAcquire t) σ
  | resumed {σ : Sys R T} {t : T} (awake : σ.state t ≠ .sleeping) (pc : σ.pc t = .inSleep) :
      Step P σ (.resume t) (σ.unlink t)
  | released {σ : Sys R T} {t : T} {r : R} (awake : σ.state t ≠ .sleeping) (pc : σ.pc t = .outside)
      (give : P.give σ.res t = some r) : Step P σ (.release t) (σ.gave t r)
  | wakeup {σ σ' : Sys R T} {t : T} (awake : σ.state t ≠ .sleeping) (pc : σ.pc t = .waking)
      (wake : σ.wakeupOne = some σ') : Step P σ (.wakeup t) { σ' with pc := update σ'.pc t .outside }

inductive Reach (P : Resource R T) (r : R) : Sys R T → Prop
  | start : Reach P r (.start r)
  | step {σ σ' : Sys R T} {a : Action T} (reach : Reach P r σ) (run : Step P σ a σ') : Reach P r σ'

/-! ## The queue -/

structure Queued (σ : Sys R T) : Prop where
  mem : ∀ t, t ∈ σ.head ↔ σ.state t = .sleeping
  asleep : ∀ t, σ.state t = .sleeping → σ.pc t = .inSleep
  nodup : σ.head.Nodup
  fifo : σ.slept = σ.woken ++ σ.head

variable {P : Resource R T} {σ σ' : Sys R T} {t u : T} {r : R} {a : Action T}

theorem sleep_eq (h : σ.sleep t = some σ') : σ' = { σ with
    head := σ.head ++ [t], state := update σ.state t .sleeping, pc := update σ.pc t .inSleep, slept := σ.slept ++ [t] } := by
  unfold Sys.sleep at h
  cases hs : σ.state t with
  | zombie => simp [hs, TaskState.sleep] at h
  | _ => simpa [hs, TaskState.sleep] using h.symm

theorem wakeupOne_cases (h : σ.wakeupOne = some σ') : (σ.head = [] ∧ σ' = σ) ∨ ∃ u rest, σ.head = u :: rest ∧
    σ' = { σ with head := rest, state := update σ.state u .runnable, woken := σ.woken ++ [u] } := by
  unfold Sys.wakeupOne at h
  split at h
  · rename_i hhead
    exact Or.inl ⟨hhead, (Option.some.inj h).symm⟩
  · rename_i u rest hhead
    refine Or.inr ⟨u, rest, hhead, ?_⟩
    cases hs : σ.state u with
    | zombie => simp [hs, TaskState.wakeup] at h
    | _ => simpa [hs, TaskState.wakeup] using h.symm

omit [DecidableEq T] in
theorem Queued.outside (hq : Queued σ) (hpc : σ.pc t ≠ .inSleep) : t ∉ σ.head ∧ σ.state t ≠ .sleeping := by
  have hawake : σ.state t ≠ .sleeping := fun h => hpc (hq.asleep t h)
  exact ⟨fun h => hawake ((hq.mem t).mp h), hawake⟩

omit [DecidableEq T] in
theorem Queued.move (hq : Queued σ) (hawake : σ.state t ≠ .sleeping) (hhead : σ'.head = σ.head)
    (hstate : σ'.state = σ.state) (hpc : ∀ u, u ≠ t → σ'.pc u = σ.pc u) (hslept : σ'.slept = σ.slept)
    (hwoken : σ'.woken = σ.woken) : Queued σ' := by
  refine ⟨fun u => ?_, fun u hu => ?_, ?_, ?_⟩
  · rw [hhead, hstate]
    exact hq.mem u
  · rw [hstate] at hu
    have hne : u ≠ t := fun h => hawake (h ▸ hu)
    rw [hpc u hne]
    exact hq.asleep u hu
  · rw [hhead]
    exact hq.nodup
  · rw [hhead, hslept, hwoken]
    exact hq.fifo

theorem Queued.sleep (hq : Queued σ) (hawake : σ.state t ≠ .sleeping) (h : σ.sleep t = some σ') : Queued σ' := by
  have hout : t ∉ σ.head := fun hm => hawake ((hq.mem t).mp hm)
  rw [sleep_eq h]
  refine ⟨fun u => ?_, fun u hu => ?_, ?_, ?_⟩
  · by_cases hu : u = t
    · simp [hu]
    · simp [hu, hq.mem u]
  · by_cases hut : u = t
    · simp [hut]
    · simp only [update_of_ne hut] at hu ⊢
      exact hq.asleep u hu
  · have := hq.nodup
    simp only [List.nodup_append, List.nodup_singleton, List.mem_singleton]
    exact ⟨this, trivial, fun a ha b hb hab => hout (hb ▸ hab ▸ ha)⟩
  · simp [hq.fifo]

theorem Queued.wakeupOne (hq : Queued σ) (h : σ.wakeupOne = some σ') : Queued σ' := by
  obtain ⟨-, rfl⟩ | ⟨u, rest, hhead, rfl⟩ := wakeupOne_cases h
  · exact hq
  · have hnd := hq.nodup
    rw [hhead, List.nodup_cons] at hnd
    refine ⟨fun v => ?_, fun v hv => ?_, hnd.2, ?_⟩
    · have hmem := hq.mem v
      rw [hhead, List.mem_cons] at hmem
      by_cases hv : v = u
      · simp [hv, hnd.1]
      · simp only [hv, false_or] at hmem
        simp [hv, hmem]
    · by_cases hvu : v = u
      · simp [hvu] at hv
      · simp only [update_of_ne hvu] at hv
        exact hq.asleep v hv
    · simp [hq.fifo, hhead]

theorem Queued.step (hq : Queued σ) (h : Step P σ a σ') : Queued σ' := by
  cases h with
  | took awake | tried awake | released awake =>
    exact hq.move awake rfl rfl (fun u hu => update_of_ne hu ..) rfl rfl
  | blocked awake _ _ hs => exact hq.sleep awake hs
  | refused => exact hq
  | resumed awake =>
    rename_i t _
    -- `wakeup_one` has unlinked the entry already
    have hout : t ∉ σ.head := fun hm => awake ((hq.mem t).mp hm)
    exact hq.move awake (List.erase_of_not_mem hout) rfl (fun u hu => update_of_ne hu ..) rfl rfl
  | wakeup awake hpc hw =>
    rename_i σ₁ t
    have hq₁ := hq.wakeupOne hw
    have hstill : σ₁.pc = σ.pc := by
      obtain ⟨-, rfl⟩ | ⟨u, rest, -, rfl⟩ := wakeupOne_cases hw <;> rfl
    have hawake : σ₁.state t ≠ .sleeping := (hq₁.outside (by rw [hstill, hpc]; decide)).2
    exact hq₁.move hawake rfl rfl (fun u hu => update_of_ne hu ..) rfl rfl

omit [DecidableEq T] in
theorem Queued.start (r : R) : Queued (Sys.start r : Sys R T) :=
  ⟨fun t => by simp [Sys.start], fun t ht => by simp [Sys.start] at ht, List.nodup_nil, rfl⟩

theorem Reach.queued {r₀ : R} (h : Reach P r₀ σ) : Queued σ := by
  induction h with
  | start => exact Queued.start r₀
  | step _ hs ih => exact ih.step hs

/-! ## Units and pending wakeups -/

/-- A woken task that has not tested the condition again. -/
def Woken (σ : Sys R T) (t : T) : Prop := (σ.pc t = .inSleep ∧ σ.state t ≠ .sleeping) ∨ σ.pc t = .retry

instance (σ : Sys R T) : DecidablePred (Woken σ) := fun t => by unfold Woken; infer_instance

variable [Fintype T]

def wakers (σ : Sys R T) : Finset T := Finset.univ.filter fun t => σ.pc t = .waking

def wokens (σ : Sys R T) : Finset T := Finset.univ.filter fun t => Woken σ t

def pending (σ : Sys R T) : Finset T := wakers σ ∪ wokens σ

structure Served (P : Resource R T) (n : ℕ) (σ : Sys R T) : Prop where
  valid : P.valid σ.res
  balance : P.units σ.res + ∑ t, σ.taken t = n + ∑ t, σ.given t
  noLoss : σ.head ≠ [] → P.units σ.res ≤ (pending σ).card

theorem mem_pending : t ∈ pending σ ↔ σ.pc t = .waking ∨ Woken σ t := by
  simp [pending, wakers, wokens]

theorem card_pending (σ : Sys R T) : (pending σ).card = (wakers σ).card + (wokens σ).card := by
  refine Finset.card_union_of_disjoint (Finset.disjoint_filter.mpr fun t _ hw => ?_)
  simp [Woken, hw]

theorem sum_bump (f : T → ℕ) (t : T) : ∑ u, update f t (f t + 1) u = ∑ u, f u + 1 := by
  have hsplit := Finset.add_sum_erase Finset.univ f (Finset.mem_univ t)
  rw [Finset.sum_update_of_mem (Finset.mem_univ t), ← Finset.erase_eq]
  omega

variable {n : ℕ}

section

variable (hs : Served P n σ)
include hs

theorem Served.took (ht : P.take σ.res t = some r) : Served P n (σ.took t r) := by
  obtain ⟨hvalid, hu⟩ := P.take_some _ _ _ ht hs.valid
  refine ⟨hvalid, ?_, fun hne => ?_⟩
  · have := hs.balance
    simp only [Sys.took, sum_bump]
    omega
  · -- at most the pending entry of the task itself is gone
    have hsub : (pending σ).erase t ⊆ pending (σ.took t r) := by
      intro u hu
      obtain ⟨hne, hmem⟩ := Finset.mem_erase.mp hu
      rw [mem_pending] at hmem ⊢
      simpa [Sys.took, Woken, hne] using hmem
    have hcard := Finset.card_le_card hsub
    have hpred := Finset.pred_card_le_card_erase (s := pending σ) (a := t)
    have := hs.noLoss hne
    simp only [Sys.took] at hcard ⊢
    omega

theorem Served.gave (hpc : σ.pc t = .outside) (hg : P.give σ.res t = some r) :
    Served P n (σ.gave t r) := by
  obtain ⟨hvalid, hu⟩ := P.give_some _ _ _ hg hs.valid
  refine ⟨hvalid, ?_, fun hne => ?_⟩
  · have := hs.balance
    simp only [Sys.gave, sum_bump]
    omega
  · have hout : t ∉ pending σ := by
      rw [mem_pending]
      simp [hpc, Woken]
    have hsub : insert t (pending σ) ⊆ pending (σ.gave t r) := by
      intro u hu
      rw [mem_pending]
      by_cases hut : u = t
      · simp [Sys.gave, hut]
      · have hmem := Finset.mem_of_mem_insert_of_ne hu hut
        rw [mem_pending] at hmem
        simpa [Sys.gave, Woken, hut] using hmem
    have hcard := Finset.card_le_card hsub
    rw [Finset.card_insert_of_notMem hout] at hcard
    have := hs.noLoss hne
    simp only [Sys.gave] at hcard ⊢
    omega

theorem Served.sleep (ht : P.take σ.res t = none) (h : σ.sleep t = some σ') :
    Served P n σ' := by
  have hzero := P.take_none _ _ ht
  rw [sleep_eq h]
  exact ⟨hs.valid, hs.balance, fun _ => by simp [hzero]⟩

theorem Served.unlink (t : T) : Served P n (σ.unlink t) := by
  have hsub : pending σ ⊆ pending (σ.unlink t) := by
    intro u hu
    rw [mem_pending] at hu ⊢
    by_cases hut : u = t
    · simp [Sys.unlink, Woken, hut]
    · simpa [Sys.unlink, Woken, hut] using hu
  refine ⟨hs.valid, hs.balance, fun hne => ?_⟩
  have hhead : σ.head ≠ [] := fun h => hne (by simp [Sys.unlink, h])
  exact le_trans (hs.noLoss hhead) (Finset.card_le_card hsub)

theorem Served.wakeup (hq : Queued σ) (hpc : σ.pc t = .waking) (h : σ.wakeupOne = some σ') :
    Served P n { σ' with pc := update σ'.pc t .outside } := by
  obtain ⟨hhead, rfl⟩ | ⟨u, rest, hhead, rfl⟩ := wakeupOne_cases h
  · exact ⟨hs.valid, hs.balance, fun hne => absurd hhead hne⟩
  · refine ⟨hs.valid, hs.balance, fun _ => ?_⟩
    have hsleep : σ.state u = .sleeping := (hq.mem u).mp (by simp [hhead])
    have hin := hq.asleep u hsleep
    have hne : u ≠ t := fun hut => by simp [hut, hpc] at hin
    -- the waker leaves and the woken task takes its place
    have hout : u ∉ (pending σ).erase t := by
      rw [Finset.mem_erase, mem_pending]
      simp [Woken, hin, hsleep]
    have hmem : t ∈ pending σ := mem_pending.mpr (Or.inl hpc)
    have hcard : (insert u ((pending σ).erase t)).card = (pending σ).card := by
      rw [Finset.card_insert_of_notMem hout, Finset.card_erase_add_one hmem]
    have hnoLoss := hs.noLoss (by simp [hhead])
    refine le_trans (hcard ▸ hnoLoss) (Finset.card_le_card fun v hv => ?_)
    rw [mem_pending]
    by_cases hvu : v = u
    · simp [Woken, hvu, hne, hin]
    · obtain ⟨hvt, hv⟩ := Finset.mem_erase.mp (Finset.mem_of_mem_insert_of_ne hv hvu)
      rw [mem_pending] at hv
      simpa [Woken, hvu, hvt] using hv

theorem Served.step (hq : Queued σ) (h : Step P σ a σ') : Served P n σ' := by
  cases h with
  | took _ _ ht | tried _ _ ht => exact hs.took ht
  | blocked _ _ ht hsleep => exact hs.sleep ht hsleep
  | refused => exact hs
  | resumed => exact hs.unlink _
  | released _ hpc hg => exact hs.gave hpc hg
  | wakeup _ hpc hw => exact hs.wakeup hq hpc hw

end

theorem Reach.served {r₀ : R} (hr₀ : P.valid r₀) (h : Reach P r₀ σ) : Served P (P.units r₀) σ := by
  induction h with
  | start => exact ⟨hr₀, by simp [Sys.start], fun hne => absurd rfl hne⟩
  | step hr hs ih => exact ih.step hr.queued hs

end Zonix.Sync
