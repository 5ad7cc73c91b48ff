import Mathlib.Data.Fintype.EquivFin
import Zonix.Sync.WaitQueue

/-! # The console input queue

`Console::push_input` and `Console::getc` of `kernel/cons/cons.cpp`.  Each is a guarded section of its own; a reader that
finds nothing queues up and sleeps in the same section in which it has looked. -/

namespace Zonix.Sync

open Sched Function

/-! ## The buffer -/

/-- `input_`, `read_` and `write_`. -/
structure Input where
  input : Fin 128 → BitVec 8
  read : Fin 128
  write : Fin 128

namespace Input

/-- `(i + 1) % input_.size()`. -/
def next (i : Fin 128) : Fin 128 := ⟨(i.val + 1) % 128, Nat.mod_lt _ (by decide)⟩

def push (b : Input) (c : BitVec 8) : Option Input :=
  if next b.write = b.read then none else some { b with input := update b.input b.write c, write := next b.write }

def pop (b : Input) : Option (BitVec 8 × Input) :=
  if b.read ≠ b.write then some (b.input b.read, { b with read := next b.read }) else none

def place (b : Input) (i : ℕ) : Fin 128 := ⟨(b.read.val + i) % 128, Nat.mod_lt _ (by decide)⟩

def count (b : Input) : ℕ := (b.write.val + 128 - b.read.val) % 128

def unread (b : Input) : List (BitVec 8) := (List.range b.count).map fun i => b.input (b.place i)

variable {b b' : Input} {c : BitVec 8}

theorem length_unread (b : Input) : b.unread.length = b.count := by simp [unread]

theorem next_eq_iff (b : Input) : next b.write = b.read ↔ b.count = 127 := by
  rw [Fin.ext_iff, count]
  have := b.read.isLt
  have := b.write.isLt
  simp only [next]
  omega

theorem push_some (h : b.push c = some b') : b'.unread = b.unread ++ [c] := by
  unfold push at h
  split at h
  · cases h
  · rename_i hfull
    cases h
    have hr := b.read.isLt
    have hw := b.write.isLt
    have hn : b.count ≠ 127 := fun h => hfull ((next_eq_iff b).mpr h)
    have hcount : ((b.write.val + 1) % 128 + 128 - b.read.val) % 128 = b.count + 1 := by
      simp only [count] at hn ⊢
      omega
    have hold : ∀ i ∈ List.range b.count, update b.input b.write c (b.place i) = b.input (b.place i) := by
      intro i hi
      rw [List.mem_range] at hi
      refine update_of_ne (fun he => ?_) ..
      have he := congrArg Fin.val he
      simp only [place, count] at he hi
      omega
    have hnew : b.place b.count = b.write := by
      apply Fin.ext
      simp only [place, count]
      omega
    show (List.range (((b.write.val + 1) % 128 + 128 - b.read.val) % 128)).map
      (fun i => update b.input b.write c (b.place i)) = _
    rw [hcount, List.range_succ, List.map_append, List.map_congr_left hold, List.map_singleton, hnew, update_self]
    rfl

theorem push_none (h : b.push c = none) : b.count = 127 := by
  unfold push at h
  split at h
  · rename_i hfull
    exact (next_eq_iff b).mp hfull
  · cases h

theorem pop_none (h : b.pop = none) : b.unread = [] := by
  unfold pop at h
  split at h
  · cases h
  · rename_i hne
    have heq : b.read = b.write := not_not.mp hne
    have hzero : b.count = 0 := by
      rw [count, heq]
      omega
    rw [unread, hzero]
    rfl

theorem pop_some (h : b.pop = some (c, b')) : b.unread = c :: b'.unread := by
  unfold pop at h
  split at h
  · rename_i hne
    obtain ⟨rfl, rfl⟩ := Prod.mk.inj (Option.some.inj h)
    have hr := b.read.isLt
    have hw := b.write.isLt
    have hne' : b.read.val ≠ b.write.val := fun he => hne (Fin.ext he)
    have hcount : b.count = (b.write.val + 128 - (b.read.val + 1) % 128) % 128 + 1 := by
      simp only [count]
      omega
    have hfirst : b.place 0 = b.read := by
      apply Fin.ext
      simp only [place]
      omega
    have hplace : ∀ i, b.place (i + 1) = { b with read := next b.read }.place i := by
      intro i
      apply Fin.ext
      simp only [place, next]
      omega
    rw [unread, hcount, List.range_succ_eq_map, List.map_cons, hfirst, List.map_map]
    refine congrArg _ (List.map_congr_left fun i _ => ?_)
    exact congrArg b.input (hplace i)
  · cases h

end Input

/-! ## The readers -/

/-- The buffer, with the characters that were accepted and those that `getc` has taken, in order. -/
structure Line where
  buf : Input
  accepted : List (BitVec 8)
  taken : List (BitVec 8)

variable {T : Type} [DecidableEq T]

/-- `push_input`: a character that finds no room is dropped. -/
def pushInput (σ : Sys Line T) (c : BitVec 8) : Option (Sys Line T) :=
  match σ.res.buf.push c with
  | none => some σ
  | some buf => Sys.wakeupOne { σ with res := { σ.res with buf, accepted := σ.res.accepted ++ [c] } }

inductive ConsStep : Sys Line T → Sys Line T → Prop
  | push {σ σ' : Sys Line T} (c : BitVec 8) (h : pushInput σ c = some σ') : ConsStep σ σ'
  | took {σ : Sys Line T} {t : T} {c : BitVec 8} {buf : Input} (awake : σ.state t ≠ .sleeping)
      (pc : σ.pc t = .outside ∨ σ.pc t = .retry) (h : σ.res.buf.pop = some (c, buf)) :
      ConsStep σ (σ.took t { σ.res with buf, taken := σ.res.taken ++ [c] })
  | blocked {σ σ' : Sys Line T} {t : T} (awake : σ.state t ≠ .sleeping) (pc : σ.pc t = .outside ∨ σ.pc t = .retry)
      (h : σ.res.buf.pop = none) (sleep : σ.sleep t = some σ') : ConsStep σ σ'
  | resumed {σ : Sys Line T} {t : T} (awake : σ.state t ≠ .sleeping) (pc : σ.pc t = .inSleep) : ConsStep σ (σ.unlink t)

/-- The states of the console, from the zeroed buffer on. -/
inductive ConsReach : Sys Line T → Prop
  | start : ConsReach (.start ⟨⟨fun _ => 0, 0, 0⟩, [], []⟩)
  | step {σ σ' : Sys Line T} (reach : ConsReach σ) (run : ConsStep σ σ') : ConsReach σ'

variable {σ σ' : Sys Line T} {t : T} {c : BitVec 8}

structure Flowing (σ : Sys Line T) : Prop where
  queued : Queued σ
  order : σ.res.accepted = σ.res.taken ++ σ.res.buf.unread
  noLoss : σ.head ≠ [] → ∃ w : Finset T, (∀ t ∈ w, Woken σ t) ∧ σ.res.buf.unread.length ≤ w.card

theorem pushInput_cases (h : pushInput σ c = some σ') :
    (σ.res.buf.push c = none ∧ σ' = σ) ∨
      ∃ buf, σ.res.buf.push c = some buf ∧
        Sys.wakeupOne { σ with res := { σ.res with buf, accepted := σ.res.accepted ++ [c] } } = some σ' := by
  unfold pushInput at h
  split at h
  · rename_i hpush
    exact Or.inl ⟨hpush, (Option.some.inj h).symm⟩
  · rename_i buf hpush
    exact Or.inr ⟨buf, hpush, h⟩

theorem Flowing.push (hf : Flowing σ) (h : pushInput σ c = some σ') : Flowing σ' := by
  obtain ⟨-, rfl⟩ | ⟨buf, hpush, hwake⟩ := pushInput_cases h
  · exact hf
  have hunread := Input.push_some hpush
  have hq : Queued { σ with res := { σ.res with buf, accepted := σ.res.accepted ++ [c] } } :=
    ⟨hf.queued.mem, hf.queued.asleep, hf.queued.nodup, hf.queued.fifo⟩
  have horder : σ.res.accepted ++ [c] = σ.res.taken ++ buf.unread := by
    rw [hf.order, hunread, List.append_assoc]
  have hq' := hq.wakeupOne hwake
  obtain ⟨hhead, rfl⟩ | ⟨u, rest, hhead, rfl⟩ := wakeupOne_cases hwake
  · exact ⟨hq', horder, fun hne => absurd hhead hne⟩
  · refine ⟨hq', horder, fun _ => ?_⟩
    obtain ⟨w, hw, hcard⟩ := hf.noLoss (by rw [show σ.head = u :: rest from hhead]; exact List.cons_ne_nil u rest)
    have hsleep : σ.state u = .sleeping := (hf.queued.mem u).mp (by rw [show σ.head = u :: rest from hhead]; simp)
    have hin := hf.queued.asleep u hsleep
    -- the character comes with one more woken reader
    have hu : u ∉ w := fun hu => by simpa [Woken, hsleep, hin] using hw u hu
    refine ⟨insert u w, fun v hv => ?_, ?_⟩
    · by_cases hvu : v = u
      · simp [Woken, hvu, hin]
      · have := hw v (Finset.mem_of_mem_insert_of_ne hv hvu)
        simpa [Woken, hvu] using this
    · show buf.unread.length ≤ _
      rw [Finset.card_insert_of_notMem hu, hunread, List.length_append, List.length_singleton]
      omega

theorem Flowing.step (hf : Flowing σ) (h : ConsStep σ σ') : Flowing σ' := by
  cases h with
  | push c h => exact hf.push h
  | @took t c buf awake _ hpop =>
    have hunread := Input.pop_some hpop
    refine ⟨hf.queued.move awake rfl rfl (fun u hu => update_of_ne hu ..) rfl rfl, ?_, fun hne => ?_⟩
    · show σ.res.accepted = σ.res.taken ++ [c] ++ buf.unread
      rw [hf.order, hunread, List.append_assoc]
      rfl
    · obtain ⟨w, hw, hcard⟩ := hf.noLoss hne
      refine ⟨w.erase t, fun u hu => ?_, ?_⟩
      · obtain ⟨hut, hu⟩ := Finset.mem_erase.mp hu
        simpa [Sys.took, Woken, hut] using hw u hu
      · have := Finset.pred_card_le_card_erase (s := w) (a := t)
        rw [hunread, List.length_cons] at hcard
        show buf.unread.length ≤ _
        omega
  | blocked awake _ hpop hs =>
    have hq := hf.queued.sleep awake hs
    rw [sleep_eq hs] at hq ⊢
    exact ⟨hq, hf.order, fun _ => ⟨∅, by simp, by simp [Input.pop_none hpop]⟩⟩
  | @resumed t awake pc =>
    have hout : t ∉ σ.head := fun hm => awake ((hf.queued.mem t).mp hm)
    refine ⟨hf.queued.move awake (List.erase_of_not_mem hout) rfl (fun u hu => update_of_ne hu ..) rfl rfl, hf.order,
      fun hne => ?_⟩
    obtain ⟨w, hw, hcard⟩ := hf.noLoss fun h => hne (by simp [Sys.unlink, h])
    refine ⟨w, fun u hu => ?_, hcard⟩
    by_cases hut : u = t
    · simp [Sys.unlink, Woken, hut]
    · simpa [Sys.unlink, Woken, hut] using hw u hu

theorem ConsReach.flowing (h : ConsReach σ) : Flowing σ := by
  induction h with
  | start =>
    have hempty : ([] : List (BitVec 8)) = [] ++ Input.unread ⟨fun _ => 0, 0, 0⟩ := by decide
    exact ⟨.start _, hempty, fun hne => absurd rfl hne⟩
  | step _ hs ih => exact ih.step hs

/-- What the readers have taken is a prefix of what was accepted, a character is dropped only when 127 are unread, and while
characters are unread and a reader sleeps, another reader was woken and will look again. -/
theorem console_input (h : ConsReach σ) :
    σ.res.taken <+: σ.res.accepted ∧
      (∀ c σ', pushInput σ c = some σ' → σ'.res.accepted = σ.res.accepted ++ [c] ∨
        (σ.res.accepted.length = σ.res.taken.length + 127 ∧ σ' = σ)) ∧
      (σ.res.taken.length < σ.res.accepted.length → (∃ t, σ.state t = .sleeping) → ∃ t, Woken σ t) := by
  have hf := h.flowing
  have hlen : σ.res.accepted.length = σ.res.taken.length + σ.res.buf.unread.length := by
    rw [hf.order, List.length_append]
  refine ⟨⟨_, hf.order.symm⟩, fun c σ' hpush => ?_, fun hlt ⟨t, ht⟩ => ?_⟩
  · obtain ⟨hfull, rfl⟩ | ⟨buf, -, hwake⟩ := pushInput_cases hpush
    · right
      rw [hlen, Input.length_unread, Input.push_none hfull]
      exact ⟨rfl, rfl⟩
    · left
      obtain ⟨-, rfl⟩ | ⟨u, rest, -, rfl⟩ := wakeupOne_cases hwake <;> rfl
  · obtain ⟨w, hw, hcard⟩ := hf.noLoss (List.ne_nil_of_mem ((hf.queued.mem t).mpr ht))
    obtain ⟨u, hu⟩ := Finset.card_pos.mp (show 0 < w.card by omega)
    exact ⟨u, hw u hu⟩

/-- Two readers sleep, and a character wakes the first. -/
theorem console_input_two_readers : ∃ σ : Sys Line (Fin 3), ConsReach σ ∧ σ.res.taken = [] ∧ σ.res.accepted = [65] ∧
    σ.state 1 = .sleeping ∧ ∃ t, Woken σ t := by
  have h₁ : ConsReach (T := Fin 3) _ := .step .start (.blocked (t := 0) (by decide) (Or.inl rfl) rfl rfl)
  have h₂ := ConsReach.step h₁ (.blocked (t := 1) (by decide) (Or.inl rfl) rfl rfl)
  have h₃ := ConsReach.step h₂ (.push 65 rfl)
  exact ⟨_, h₃, rfl, rfl, rfl, (console_input h₃).2.2 (by decide) ⟨1, rfl⟩⟩

end Zonix.Sync
