import Mathlib.Data.List.Nodup
import Zonix.Sched.Lifecycle

/-! # The events of a run

Each `fork` that succeeds gives out the next number, which names its task for the whole run; the pid is
that number as an `int`.  What `wait` returns is what was passed to `exit`. -/

namespace Zonix.Sched

open Linked Function

namespace Event

def isForked : Event → Bool
  | forked .. => true
  | _ => false

def exitedTask : Event → Option ℕ
  | exited task _ => some task
  | _ => none

def reapedTask : Event → Option ℕ
  | reaped _ task _ _ => some task
  | _ => none

end Event

def forks (tr : List Event) : ℕ := tr.countP Event.isForked

@[simp] theorem forks_append (tr es : List Event) : forks (tr ++ es) = forks tr + forks es := by
  simp [forks]

/-- The task `q` forked the task `s` with the pid `p`, or is init and took it over from a forker that exited. -/
def Forker (tr : List Event) (q s : ℕ) (p : ℤ) : Prop :=
  .forked q s p ∈ tr ∨ (q = 1 ∧ ∃ f code, .forked f s p ∈ tr ∧ .exited f code ∈ tr)

variable {T : Type}

structure Ledger (k : Kernel T) (tr : List Event) : Prop where
  count : k.forkCount = forks tr
  next : k.nextPid = ((forks tr : ℤ) + 1).bmod (2 ^ 32)
  number : ∀ t, k.published t = true → k.pid t = (k.serial t : ℤ).bmod (2 ^ 32)
  range : ∀ t, k.published t = true → k.serial t ≤ forks tr
  distinct : ∀ t u, k.published t = true → k.published u = true → k.serial t = k.serial u → t = u
  init : ∀ i, k.init = some i → k.serial i = 1
  exitedRange : ∀ s c, .exited s c ∈ tr → s ≤ forks tr
  reapedRange : ∀ q s p c, .reaped q s p c ∈ tr → s ≤ forks tr
  zombie : ∀ t, k.published t = true → k.state t = .zombie → .exited (k.serial t) (k.exitCode t) ∈ tr
  exited : ∀ t c, k.published t = true → .exited (k.serial t) c ∈ tr → k.state t = .zombie
  exitedOnce : (tr.filterMap Event.exitedTask).Nodup
  reapedOnce : (tr.filterMap Event.reapedTask).Nodup
  gone : ∀ q s p c t, .reaped q s p c ∈ tr → k.published t = true → k.serial t ≠ s
  parentage : ∀ t q, k.published t = true → k.parent t = some q → Forker tr (k.serial q) (k.serial t) (k.pid t)
  delivered : ∀ q s p c, .reaped q s p c ∈ tr → .exited s c ∈ tr ∧ Forker tr q s p

theorem Forker.append {tr : List Event} {q s : ℕ} {p : ℤ} (h : Forker tr q s p) (es : List Event) :
    Forker (tr ++ es) q s p := by
  rcases h with h | ⟨hq, f, c, hf, hc⟩
  · exact Or.inl (by simp [h])
  · exact Or.inr ⟨hq, f, c, by simp [hf], by simp [hc]⟩

variable {k k' : Kernel T} {tr : List Event} {tb : Table T} {t c i cur : T} {st : T → TaskState}

theorem Ledger.congr (hl : Ledger k tr) (hpub : k'.published = k.published) (hnext : k'.nextPid = k.nextPid)
    (hinit : k'.init = k.init) (hserial : k'.serial = k.serial) (hcount : k'.forkCount = k.forkCount)
    (hpid : ∀ t, k.published t = true → k'.pid t = k.pid t)
    (hparent : ∀ t, k.published t = true → k'.parent t = k.parent t)
    (hcode : ∀ t, k.published t = true → k'.exitCode t = k.exitCode t)
    (hz : ∀ t, k.published t = true → (k'.state t = .zombie ↔ k.state t = .zombie)) : Ledger k' tr := by
  refine ⟨hcount ▸ hl.count, hnext ▸ hl.next, fun t ht => ?_, ?_, ?_, ?_, hl.exitedRange, hl.reapedRange,
    fun t ht hzt => ?_, fun t c ht hc => ?_, hl.exitedOnce, hl.reapedOnce, ?_, fun t q ht hq => ?_, hl.delivered⟩
  · rw [hpub] at ht
    rw [hpid t ht, hserial]
    exact hl.number t ht
  · rw [hpub, hserial]
    exact hl.range
  · rw [hpub, hserial]
    exact hl.distinct
  · rw [hinit, hserial]
    exact hl.init
  · rw [hpub] at ht
    rw [hserial, hcode t ht]
    exact hl.zombie t ht ((hz t ht).mp hzt)
  · rw [hpub] at ht
    rw [hserial] at hc
    exact (hz t ht).mpr (hl.exited t c ht hc)
  · rw [hpub, hserial]
    exact hl.gone
  · rw [hpub] at ht
    rw [hparent t ht] at hq
    rw [hpid t ht, hserial]
    exact hl.parentage t q ht hq

variable [DecidableEq T]

theorem Ledger.forkBegin (hl : Ledger k tr) (hc : k.published c = false) : Ledger (k.forkBegin c) tr := by
  have hne : ∀ u, k.published u = true → u ≠ c := fun u hu he => by simp [he, hc] at hu
  refine hl.congr rfl rfl rfl rfl rfl (fun t ht => ?_) (fun t ht => ?_) (fun t ht => ?_) (fun t ht => ?_)
  all_goals simp [Kernel.forkBegin, hne t ht]

theorem Ledger.forkPublish (hl : Ledger k tr) (hs : Sane k) (hpc : k.pc k.current = .forking c)
    (L : Links (Node T)) (n : ℤ) (pr : T → ℤ) :
    Ledger { k with
      links := L, processCount := n, priority := pr, pid := update k.pid c k.nextPid
      nextPid := (k.nextPid + 1).bmod (2 ^ 32), state := update k.state c .runnable
      published := update k.published c true, pc := update k.pc k.current .outside
      serial := update k.serial c (k.forkCount + 1), forkCount := k.forkCount + 1 }
      (tr ++ [.forked (k.serial k.current) (k.forkCount + 1) k.nextPid]) := by
  obtain ⟨-, hc, hparent⟩ := hs.forking _ c hpc
  have hcount := hl.count
  have hne : ∀ {u}, k.published u = true → u ≠ c := fun hu he => by simp [he, hc] at hu
  have hold : ∀ {u}, update k.published c true u = true → u ≠ c → k.published u = true := fun hu huc => by
    simpa [huc] using hu
  have hforks : forks (tr ++ [.forked (k.serial k.current) (k.forkCount + 1) k.nextPid]) = forks tr + 1 := by
    simp [forks, Event.isForked]
  -- the new number is in no earlier event
  have hnew : ∀ s, s ≤ forks tr → s ≠ k.forkCount + 1 := fun s hs => by omega
  refine ⟨by rw [hforks, hcount], ?_, fun t ht => ?_, fun t ht => ?_, fun t u ht hu he => ?_, fun i hi => ?_, fun s d h => ?_,
    fun q s p d h => ?_, fun t ht hz => ?_, fun t d ht h => ?_, ?_, ?_, fun q s p d t h ht => ?_, fun t q ht hq => ?_,
    fun q s p d h => ?_⟩
  · rw [hforks, hl.next, Int.bmod_add_bmod, Nat.cast_succ]
  · by_cases htc : t = c
    · simp only [htc, update_self, hl.next, hcount, Nat.cast_succ]
    · simpa [htc] using hl.number t (hold ht htc)
  · rw [hforks]
    by_cases htc : t = c
    · simp only [htc, update_self]
      omega
    · have := hl.range t (hold ht htc)
      simp only [update_of_ne htc]
      omega
  · by_cases htc : t = c
    · by_cases huc : u = c
      · rw [htc, huc]
      · simp only [htc, update_self, update_of_ne huc] at he
        exact absurd he.symm (hnew _ (hl.range u (hold hu huc)))
    · by_cases huc : u = c
      · simp only [huc, update_self, update_of_ne htc] at he
        exact absurd he (hnew _ (hl.range t (hold ht htc)))
      · simp only [update_of_ne htc, update_of_ne huc] at he
        exact hl.distinct t u (hold ht htc) (hold hu huc) he
  · simpa [hne (hs.init i hi).1] using hl.init i hi
  · have := hl.exitedRange s d (by simpa using h)
    rw [hforks]
    omega
  · have := hl.reapedRange q s p d (by simpa using h)
    rw [hforks]
    omega
  · have htc : t ≠ c := fun he => by simp [he] at hz
    have := hl.zombie t (hold ht htc) (by simpa [htc] using hz)
    simp [htc, this]
  · have htc : t ≠ c := fun he => by
      have := hl.exitedRange (k.forkCount + 1) d (by simpa [he] using h)
      exact hnew _ this rfl
    have := hl.exited t d (hold ht htc) (by simpa [htc] using h)
    simpa [htc] using this
  · simpa [List.filterMap_cons, Event.exitedTask] using hl.exitedOnce
  · simpa [List.filterMap_cons, Event.reapedTask] using hl.reapedOnce
  · have h' : .reaped q s p d ∈ tr := by simpa using h
    by_cases htc : t = c
    · simp only [htc, update_self]
      exact (hnew s (hl.reapedRange q s p d h')).symm
    · simp only [update_of_ne htc]
      exact hl.gone q s p d t h' (hold ht htc)
  · by_cases htc : t = c
    · rw [htc, hparent, Option.some.injEq] at hq
      subst hq
      simp only [htc, update_self, update_of_ne (hne hs.current.1)]
      exact Or.inl (by simp)
    · have ht := hold ht htc
      have hqc := hne (hs.parent t q ht hq).1
      simp only [update_of_ne htc, update_of_ne hqc]
      exact (hl.parentage t q ht hq).append _
  · obtain ⟨he, hf⟩ := hl.delivered q s p d (by simpa using h)
    exact ⟨by simp [he], hf.append _⟩

theorem Ledger.exit {code : ℤ} (hl : Ledger k tr) (hs : Sane k) (hL : Listed k tb) (hi : k.init = some i)
    (he : Exited k (tb.kids k.current) i cur st) (L : Links (Node T)) (n : Option (Node T)) :
    Ledger { k with
      links := L, parent := fun u => if u ∈ tb.kids k.current then some i else k.parent u
      exitCode := update k.exitCode k.current code, cursor := n, current := cur, state := st }
      (tr ++ [.exited (k.serial k.current) code]) := by
  obtain ⟨hcur, hzcur⟩ := hs.current
  have hforks : forks (tr ++ [.exited (k.serial k.current) code]) = forks tr := by simp [forks, Event.isForked]
  have hfirst : ∀ d, .exited (k.serial k.current) d ∉ tr := fun d hd => hzcur (hl.exited _ d hcur hd)
  refine ⟨by rw [hforks, hl.count], by rw [hforks, hl.next], hl.number, fun t ht => by rw [hforks]; exact hl.range t ht,
    hl.distinct, hl.init, fun s d h => ?_, fun q s p d h => ?_, fun t ht hz => ?_,
    fun t d ht h => (he.zombie t).mpr ?_, ?_, ?_, fun q s p d t h ht => ?_, fun t q ht hq => ?_, fun q s p d h => ?_⟩
  · rw [hforks]
    rcases List.mem_append.mp h with h | h
    · exact hl.exitedRange s d h
    · simp only [List.mem_singleton, Event.exited.injEq] at h
      exact h.1 ▸ hl.range _ hcur
  · rw [hforks]
    exact hl.reapedRange q s p d (by simpa using h)
  · by_cases htc : t = k.current
    · simp [htc]
    · have hzt := ((he.zombie t).mp hz).resolve_left htc
      simp [htc, hl.zombie t ht hzt]
  · rcases List.mem_append.mp h with h | h
    · exact Or.inr (hl.exited t d ht h)
    · simp only [List.mem_singleton, Event.exited.injEq] at h
      exact Or.inl (hl.distinct t _ ht hcur h.1)
  · rw [List.filterMap_append, List.nodup_append]
    refine ⟨hl.exitedOnce, by simp [Event.exitedTask], fun s hs q hq hsq => ?_⟩
    simp only [List.filterMap_cons, Event.exitedTask, List.filterMap_nil, List.mem_singleton] at hq
    obtain ⟨e, hmem, hse⟩ := List.mem_filterMap.mp hs
    cases e with
    | exited s' d =>
      cases hse
      exact hfirst d (hq ▸ hsq ▸ hmem)
    | _ => cases hse
  · simpa [List.filterMap_cons, Event.reapedTask] using hl.reapedOnce
  · exact hl.gone q s p d t (by simpa using h) ht
  · by_cases hkid : t ∈ tb.kids k.current
    · have hq' : i = q := by simpa [hkid] using hq
      subst hq'
      -- the forker is the task that exits, or init already was the parent
      rcases hl.parentage t _ ht ((hL.kids _ t).mp hkid).2 with hf | ⟨-, f, d, hf, hd⟩
      · exact Or.inr ⟨hl.init i hi, _, code, by simpa using hf, by simp⟩
      · exact Or.inr ⟨hl.init i hi, f, d, by simpa using hf, by simp [hd]⟩
    · exact (hl.parentage t q ht (by simpa [hkid] using hq)).append _
  · obtain ⟨hx, hf⟩ := hl.delivered q s p d (by simpa using h)
    exact ⟨by simp [hx], hf.append _⟩

theorem Ledger.reap {z : T} (hl : Ledger k tr) (hpub : k.published z = true) (hp : k.parent z = some k.current)
    (hz : k.state z = .zombie) (L : Links (Node T)) (n : ℤ) (r : Option (Node T)) (lv : T → Bool) (pc : T → Pc T) :
    Ledger { k with
      links := L, processCount := n, cursor := r, live := lv, published := update k.published z false, pc := pc }
      (tr ++ [.reaped (k.serial k.current) (k.serial z) (k.pid z) (k.exitCode z)]) := by
  have hforks : forks (tr ++ [.reaped (k.serial k.current) (k.serial z) (k.pid z) (k.exitCode z)]) = forks tr := by
    simp [forks, Event.isForked]
  have hold : ∀ {u}, update k.published z false u = true → u ≠ z ∧ k.published u = true := by
    intro u hu
    have : u ≠ z := fun he => by simp [he] at hu
    exact ⟨this, by simpa [this] using hu⟩
  refine ⟨by rw [hforks, hl.count], by rw [hforks, hl.next], fun t ht => hl.number t (hold ht).2,
    fun t ht => by rw [hforks]; exact hl.range t (hold ht).2,
    fun t u ht hu => hl.distinct t u (hold ht).2 (hold hu).2, hl.init,
    fun s d h => ?_, fun q s p d h => ?_, fun t ht hzt => ?_, fun t d ht h => ?_, ?_, ?_, fun q s p d t h ht => ?_,
    fun t q ht hq => ?_, fun q s p d h => ?_⟩
  · rw [hforks]
    exact hl.exitedRange s d (by simpa using h)
  · rw [hforks]
    rcases List.mem_append.mp h with h | h
    · exact hl.reapedRange q s p d h
    · simp only [List.mem_singleton, Event.reaped.injEq] at h
      exact h.2.1 ▸ hl.range z hpub
  · simp [hl.zombie t (hold ht).2 hzt]
  · exact hl.exited t d (hold ht).2 (by simpa using h)
  · simpa [List.filterMap_cons, Event.exitedTask] using hl.exitedOnce
  · rw [List.filterMap_append, List.nodup_append]
    refine ⟨hl.reapedOnce, by simp [Event.reapedTask], fun s hs q hq hsq => ?_⟩
    simp only [List.filterMap_cons, Event.reapedTask, List.filterMap_nil, List.mem_singleton] at hq
    obtain ⟨e, hmem, hse⟩ := List.mem_filterMap.mp hs
    cases e with
    | reaped q' s' p d =>
      cases hse
      exact hl.gone q' s p d z hmem hpub (hq.symm.trans hsq.symm)
    | _ => cases hse
  · obtain ⟨htz, ht⟩ := hold ht
    rcases List.mem_append.mp h with h | h
    · exact hl.gone q s p d t h ht
    · simp only [List.mem_singleton, Event.reaped.injEq] at h
      exact fun he => htz (hl.distinct t z ht hpub (he.trans h.2.1))
  · exact (hl.parentage t q (hold ht).2 hq).append _
  · rcases List.mem_append.mp h with h | h
    · obtain ⟨hx, hf⟩ := hl.delivered q s p d h
      exact ⟨by simp [hx], hf.append _⟩
    · simp only [List.mem_singleton, Event.reaped.injEq] at h
      obtain ⟨rfl, rfl, rfl, rfl⟩ := h
      exact ⟨by simp [hl.zombie z hpub hz], (hl.parentage z _ hpub hp).append _⟩

omit [DecidableEq T] in
theorem Ledger.setState (hl : Ledger k tr) (hz : ∀ t, k.published t = true → (st t = .zombie ↔ k.state t = .zombie))
    (n : Option (Node T)) (cur : T) (w : T → Bool) (pc : T → Pc T) :
    Ledger { k with state := st, cursor := n, current := cur, waitState := w, pc := pc } tr :=
  hl.congr rfl rfl rfl rfl rfl (fun _ _ => rfl) (fun _ _ => rfl) (fun _ _ => rfl) hz

omit [DecidableEq T] in
theorem Ledger.setInit (hl : Ledger k tr) (hi : k.serial i = 1) : Ledger { k with init := some i } tr :=
  ⟨hl.count, hl.next, hl.number, hl.range, hl.distinct, fun _ hj => Option.some.inj hj ▸ hi, hl.exitedRange, hl.reapedRange,
    hl.zombie, hl.exited, hl.exitedOnce, hl.reapedOnce, hl.gone, hl.parentage, hl.delivered⟩

theorem update_zombie_iff {s : TaskState} (hs : s ≠ .zombie) (ht : k.state t ≠ .zombie) (u : T) :
    update k.state t s u = .zombie ↔ k.state u = .zombie := by
  by_cases hut : u = t
  · simp [hut, hs, ht]
  · simp [hut]

theorem Ledger.step {es : List Event} (hl : Ledger k tr) (hI : Inv k) (hi : k.init = some i) (h : Step k es k') :
    Ledger k' (tr ++ es) ∧ k'.init = k.init := by
  obtain ⟨tb, hL⟩ := hI.listed
  have hs := hI.sane
  cases h with
  | forkBegin c _ _ hfree =>
    rw [List.append_nil]
    exact ⟨hl.forkBegin (hs.fresh hfree), rfl⟩
  | forkFail _ h =>
    simp only [Kernel.forkFail, bind, Option.bind_eq_some_iff] at h
    obtain ⟨k₁, hdel, h⟩ := h
    obtain ⟨-, rfl⟩ := hL.delete hdel
    cases h
    rw [List.append_nil]
    exact ⟨hl.congr rfl rfl rfl rfl rfl (fun _ _ => rfl) (fun _ _ => rfl) (fun _ _ => rfl) (fun _ _ => Iff.rfl), rfl⟩
  | forkPublish hpc h =>
    obtain ⟨hlive, hpub, hp⟩ := hs.forking _ _ hpc
    obtain ⟨L, tb', rfl, -⟩ := forkPublish_cases hL hpub hlive hp (hs.live _ hs.current.1) h
    exact ⟨hl.forkPublish hs hpc .., rfl⟩
  | adoptMemory =>
    rw [List.append_nil]
    exact ⟨hl.congr rfl rfl rfl rfl rfl (fun _ _ => rfl) (fun _ _ => rfl) (fun _ _ => rfl) (fun _ _ => Iff.rfl), rfl⟩
  | exit code _ hinit h =>
    have hne : i ≠ k.current := fun he => hinit (he ▸ hi)
    obtain ⟨L, n, cur, st, tb', rfl, -, he⟩ := exit_cases hL hs.live hs.current.1 hi (hs.init i hi).1 hne h
    exact ⟨hl.exit hs hL hi he .., rfl⟩
  | wait pid _ _ h =>
    obtain ⟨hw, -⟩ := waitRound_cases hL (hs.live _ hs.current.1) h
    cases hw with
    | reaped pub parent zombie => exact ⟨hl.reap pub parent zombie .., rfl⟩
    | notFound =>
      rw [Kernel.Outcome.events, List.append_nil]
      exact ⟨hl.setState (fun _ _ => Iff.rfl) .., rfl⟩
    | sleeping _ switched =>
      rw [Kernel.Outcome.events, List.append_nil]
      refine ⟨hl.setState (fun t _ => ?_) .., rfl⟩
      rw [switched.zombie t]
      exact update_zombie_iff (by simp) hs.current.2 t
  | resume =>
    rw [List.append_nil]
    exact ⟨hl.setState (fun _ _ => Iff.rfl) .., rfl⟩
  | yield _ h | preempt _ _ h =>
    obtain ⟨n, cur, st, rfl, -, hw⟩ := schedule_cases hL h
    rw [List.append_nil]
    exact ⟨hl.setState (fun t _ => hw.zombie t) .., rfl⟩
  | block _ hsleep h =>
    obtain ⟨-, rfl⟩ := sleep_eq hsleep
    obtain ⟨n, cur, st, rfl, -, hw⟩ := schedule_cases (hL.setState _) h
    rw [List.append_nil]
    refine ⟨hl.setState (fun t _ => ?_) .., rfl⟩
    rw [hw.zombie t]
    exact update_zombie_iff (by simp) hs.current.2 t
  | wakeup hstate _ h =>
    obtain ⟨hz, rfl⟩ := wakeup_eq h
    rw [List.append_nil]
    exact ⟨hl.setState (fun t _ => update_zombie_iff (by simp) hz t) .., rfl⟩

end Zonix.Sched
