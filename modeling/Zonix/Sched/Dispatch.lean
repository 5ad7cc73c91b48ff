import Zonix.Sched.Listing

/-! # What `schedule` does

The policy picks the idle task or a task of the process list that can run, and leaves the cursor on that
list.  A switch changes the states of the two tasks it concerns and no others. -/

namespace Zonix.Sched

open Linked Function

variable {T : Type} {k k' : Kernel T} {tb : Table T} {t next : T} {fuel : ℕ}

/-- What `pick_next` may return. -/
def Pickable (k : Kernel T) (t : T) : Prop :=
  t = k.idle ∨ (k.published t = true ∧ (k.state t = .runnable ∨ (t = k.current ∧ k.state t = .running)))

def OnList (tb : Table T) (n : Node T) : Prop := n = .procList ∨ ∃ t ∈ tb.proc, n = .list t

theorem Listed.switch (hL : Listed k tb) {c : Node T} {cur : T} {st : T → TaskState} (hc : OnList tb c) :
    Listed { k with cursor := some c, current := cur, state := st } tb := by
  refine hL.congr rfl rfl rfl rfl rfl rfl fun n hn => ?_
  cases hn
  exact hc

structure Switched (k : Kernel T) (cur : T) (st : T → TaskState) : Prop where
  zombie : ∀ t, st t = .zombie ↔ k.state t = .zombie
  sleeping : ∀ t, st t = .sleeping → k.state t = .sleeping
  other : ∀ t, t ≠ k.current → t ≠ cur → st t = k.state t
  picked : cur = k.idle ∨ k.published cur = true
  awake : cur = k.idle ∨ st cur ≠ .sleeping
  moved : cur ≠ k.current → st cur = .running

theorem Switched.stay (hpick : Pickable k k.current) : Switched k k.current k.state := by
  refine ⟨fun _ => Iff.rfl, fun _ h => h, fun _ _ _ => rfl, ?_, ?_, fun h => absurd rfl h⟩
  · exact hpick.imp_right And.left
  · exact hpick.imp_right fun h hs => by rcases h.2 with h | h <;> simp_all

variable [DecidableEq T]

theorem pickBody_pickable {best : T × ℤ} (ht : k.published t = true) (hbest : Pickable k best.1) :
    Pickable k (k.pickBody best (.list t)).1 := by
  simp only [Kernel.pickBody]
  split
  · rename_i hrun
    split
    · exact Or.inr ⟨ht, hrun.1⟩
    · exact hbest
  · exact hbest

theorem foldl_pickable {l : List T} {best : T × ℤ} (hl : ∀ t ∈ l, k.published t = true) (hbest : Pickable k best.1) :
    Pickable k ((l.map Node.list).foldl k.pickBody best).1 := by
  induction l generalizing best with
  | nil => exact hbest
  | cons t l ih =>
    exact ih (fun u hu => hl u (by simp [hu])) (pickBody_pickable (hl t (by simp)) hbest)

theorem startCursor_onList (hL : Listed k tb) : OnList tb k.startCursor := by
  unfold Kernel.startCursor
  split
  · exact hL.head_next
  · rename_i c hc
    split
    · exact hL.head_next
    · exact hL.cursor c hc

theorem pickBest_pickable {cursor : Node T} {best : T × ℤ} (hL : Listed k tb) (hon : OnList tb cursor)
    (h : k.pickBest fuel cursor = some best) : Pickable k best.1 := by
  obtain ⟨first, hfirst, hon⟩ : ∃ first, first = (if cursor = .procList then k.links.next .procList else cursor) ∧
      OnList tb first := by
    refine ⟨_, rfl, ?_⟩
    split
    · exact hL.head_next
    · exact hon
  simp only [Kernel.pickBest, ← hfirst] at h
  split at h
  · cases h
    exact Or.inl rfl
  · rename_i hne
    obtain ⟨t, ht, rfl⟩ := hon.resolve_left hne
    obtain ⟨l₁, l₂, hsplit⟩ := List.append_of_mem ht
    have hring := hL.repr.proc_ring
    rw [hsplit, List.map_append, List.map_cons] at hring
    rw [hring.forCircular_eq h, ← List.map_append, ← List.map_cons]
    refine foldl_pickable (fun u hu => (hL.proc u).mp ?_) (Or.inl rfl)
    simp only [hsplit, List.mem_cons, List.mem_append] at hu ⊢
    tauto

theorem pickNext_cases (hL : Listed k tb) (h : k.pickNext fuel = some (next, k')) :
    Pickable k next ∧ ∃ c, OnList tb c ∧ k' = { k with cursor := some c } := by
  have hon := startCursor_onList hL
  simp only [Kernel.pickNext, bind, Option.bind_eq_some_iff, Option.some.injEq, Prod.mk.injEq] at h
  obtain ⟨best, hbest, rfl, rfl⟩ := h
  have hpick := pickBest_pickable hL hon hbest
  refine ⟨hpick, _, ?_, rfl⟩
  split
  · rename_i hne
    exact hL.next_mem ((hL.proc _).mpr (hpick.resolve_left hne).1)
  · exact hon

theorem wakeup_eq (h : k.wakeup t = some k') :
    k.state t ≠ .zombie ∧ k' = { k with state := update k.state t .runnable } := by
  unfold Kernel.wakeup at h
  cases hs : k.state t with
  | zombie => simp [hs, TaskState.wakeup] at h
  | _ => exact ⟨by simp, by simpa [hs, TaskState.wakeup] using h.symm⟩

theorem sleep_eq (h : k.sleep t = some k') :
    k.state t ≠ .zombie ∧ k' = { k with state := update k.state t .sleeping } := by
  unfold Kernel.sleep at h
  cases hs : k.state t with
  | zombie => simp [hs, TaskState.sleep] at h
  | _ => exact ⟨by simp, by simpa [hs, TaskState.sleep] using h.symm⟩

theorem run_eq (h : k.run t = some k') :
    k.state t ≠ .zombie ∧ k' = { k with current := t, state := update k.state t .running } := by
  unfold Kernel.run at h
  cases hs : k.state t with
  | zombie => simp [hs, TaskState.markRunning] at h
  | _ => exact ⟨by simp, by simpa [hs, TaskState.markRunning] using h.symm⟩

theorem Switched.move (hpick : Pickable k next) (hne : next ≠ k.current) (hz : k.state next ≠ .zombie) {s : TaskState}
    (hs : s = k.state k.current ∨ (k.state k.current = .running ∧ s = .runnable)) :
    Switched k next (update (update k.state k.current s) next .running) := by
  have hzs : s = .zombie ↔ k.state k.current = .zombie := by
    rcases hs with rfl | ⟨hrun, rfl⟩
    · rfl
    · simp [hrun]
  have hss : s = .sleeping → k.state k.current = .sleeping := by
    rcases hs with rfl | ⟨hrun, rfl⟩
    · exact id
    · simp
  refine ⟨fun t => ?_, fun t ht => ?_, fun t hc hn => ?_, hpick.imp_right And.left, Or.inr (by simp), fun _ => by simp⟩
  · by_cases hn : t = next
    · simp [hn, hz]
    · by_cases hc : t = k.current
      · simp [hc, Ne.symm hne, hzs]
      · simp [hn, hc]
  · by_cases hn : t = next
    · simp [hn] at ht
    · by_cases hc : t = k.current
      · rw [hc] at ht ⊢
        simp only [update_of_ne (Ne.symm hne), update_self] at ht
        exact hss ht
      · simpa [hn, hc] using ht
  · simp [hc, hn]

theorem schedule_cases (hL : Listed k tb) (h : k.schedule fuel = some k') :
    ∃ c cur st, k' = { k with cursor := some c, current := cur, state := st } ∧ OnList tb c ∧ Switched k cur st := by
  simp only [Kernel.schedule, bind, Option.bind_eq_some_iff] at h
  obtain ⟨⟨next, k₁⟩, hpick, h⟩ := h
  obtain ⟨hnext, c, hc, rfl⟩ := pickNext_cases hL hpick
  simp only at h
  split at h
  · rename_i he
    cases h
    exact ⟨c, k.current, k.state, rfl, hc, Switched.stay (he ▸ hnext)⟩
  · rename_i hne
    simp only [Option.bind_eq_some_iff] at h
    obtain ⟨k₂, hdemote, hrun⟩ := h
    obtain ⟨hz, rfl⟩ := run_eq hrun
    unfold Kernel.demote at hdemote
    split at hdemote
    · rename_i hr
      obtain ⟨-, rfl⟩ := wakeup_eq hdemote
      simp only [update_of_ne hne] at hz
      exact ⟨c, next, _, rfl, hc, Switched.move hnext hne hz (Or.inr ⟨hr, rfl⟩)⟩
    · cases hdemote
      refine ⟨c, next, _, rfl, hc, ?_⟩
      have hmove := Switched.move hnext hne hz (Or.inl rfl)
      rwa [update_eq_self] at hmove

end Zonix.Sched
