import Mathlib.Data.List.Induction
import Zonix.Sched.Dispatch

/-! # The rotation of `pick_next`

`SchedulerPolicy::pick_next` of `kernel/sched/sched_priority_rr.cpp` on any process list: which task it returns, that
tasks of the best priority take turns, and what `task_removed` does to the turns. -/

namespace Zonix.Sched

open Linked Function

variable {T : Type} {k k' : Kernel T} {l l₁ l₂ : List T} {t u : T} {fuel : ℕ}

/-- The process list, with the cursor null, on the head or on a task of the list. -/
structure Queue (k : Kernel T) (l : List T) : Prop where
  ring : Ring k.links .procList (l.map .list)
  cursor : ∀ c, k.cursor = some c → c = .procList ∨ ∃ t ∈ l, c = .list t

theorem Queue.nodup (hq : Queue k l) : l.Nodup := (List.nodup_cons.mp hq.ring.nodup).2.of_map _

/-- The tasks that the loop of `pick_next` considers. -/
def Eligible (k : Kernel T) (t : T) : Prop :=
  (k.state t = .runnable ∨ (t = k.current ∧ k.state t = .running)) ∧ t ≠ k.idle ∧ k.priority t ≤ Kernel.idlePrio

/-- An eligible task of the numerically least priority. -/
structure Foremost (k : Kernel T) (l : List T) (t : T) : Prop where
  mem : t ∈ l
  eligible : Eligible k t
  least : ∀ u ∈ l, Eligible k u → k.priority t ≤ k.priority u

/-- Of the foremost tasks the one that stands first. -/
def FirstForemost (k : Kernel T) (order : List T) (t : T) : Prop :=
  ∃ l₁ l₂, order = l₁ ++ t :: l₂ ∧ Eligible k t ∧ (∀ u ∈ l₁, Eligible k u → k.priority t < k.priority u) ∧
    ∀ u ∈ l₂, Eligible k u → k.priority t ≤ k.priority u

theorem FirstForemost.ne_idle {order : List T} (h : FirstForemost k order t) : t ≠ k.idle := by
  obtain ⟨-, -, -, ht, -⟩ := h
  exact ht.2.1

theorem Queue.next (hq : Queue k l) (ht : t ∈ l) : Queue { k with cursor := some (k.links.next (.list t)) } l := by
  refine ⟨hq.ring, fun c hc => ?_⟩
  obtain rfl := Option.some.inj hc
  obtain ⟨l₁, l₂, hl⟩ := List.append_of_mem ht
  have hring := hq.ring
  rw [hl, List.map_append, List.map_cons] at hring
  rw [hring.next_member]
  cases l₂ with
  | nil => exact Or.inl rfl
  | cons u l₂ => exact Or.inr ⟨u, by simp [hl], rfl⟩

theorem foremost_current {c : T} (hk : k' = { k with cursor := k'.cursor, current := k'.current }) :
    Foremost { k' with current := c } l t ↔ Foremost { k with current := c } l t := by
  rw [hk]
  exact ⟨fun h => ⟨h.mem, h.eligible, h.least⟩, fun h => ⟨h.mem, h.eligible, h.least⟩⟩

theorem FirstForemost.notMem {order : List T} (ht : Eligible k t) (h₁ : ∀ u ∈ l₁, Eligible k u → k.priority t < k.priority u)
    (horder : order = l₁ ++ t :: l₂) (hperm : order.Perm l) (hu : Foremost k l u) : u ∉ l₁ := by
  intro hmem
  have hlt := h₁ u hmem hu.eligible
  have hle := hu.least t (hperm.mem_iff.mp (by rw [horder]; simp)) ht
  omega

variable [DecidableEq T]

/-- The tasks in the order in which the loop meets them. -/
def turnOrder (cursor : Option (Node T)) (l : List T) : List T :=
  match cursor with
  | some (.list t) => l.dropWhile (· ≠ t) ++ l.takeWhile (· ≠ t)
  | _ => l

theorem turnOrder_split (hl : l = l₁ ++ t :: l₂) (hnd : l.Nodup) :
    turnOrder (some (.list t)) l = t :: l₂ ++ l₁ := by
  subst hl
  have hne : ∀ u ∈ l₁, decide (u ≠ t) = true := by
    intro u hu
    have hmem := (List.nodup_append.mp hnd).2.2 u hu t List.mem_cons_self
    simpa using hmem
  rw [turnOrder, List.dropWhile_append_of_pos hne, List.takeWhile_append_of_pos hne,
    List.dropWhile_cons_of_neg (by simp), List.takeWhile_cons_of_neg (by simp), List.append_nil]

theorem turnOrder_perm (hq : Queue k l) : (turnOrder k.cursor l).Perm l := by
  cases hc : k.cursor with
  | none => exact .refl _
  | some c =>
    obtain rfl | ⟨t, ht, rfl⟩ := hq.cursor c hc
    · exact .refl _
    · obtain ⟨l₁, l₂, hl⟩ := List.append_of_mem ht
      rw [turnOrder_split hl hq.nodup, hl]
      exact List.perm_append_comm

/-! ## The loop -/

theorem pickBody_list (best : T × ℤ) (t : T) (hp : best.2 ≤ Kernel.idlePrio + 1) :
    (Eligible k t ∧ k.priority t < best.2 ∧ k.pickBody best (.list t) = (t, k.priority t)) ∨
      ((Eligible k t → best.2 ≤ k.priority t) ∧ k.pickBody best (.list t) = best) := by
  simp only [Kernel.pickBody]
  split
  · rename_i hrun
    split
    · rename_i hlt
      exact Or.inl ⟨⟨hrun.1, hrun.2, by omega⟩, hlt, rfl⟩
    · rename_i hge
      exact Or.inr ⟨fun _ => by omega, rfl⟩
  · rename_i hrun
    exact Or.inr ⟨fun he => absurd ⟨he.1, he.2.1⟩ hrun, rfl⟩

theorem foldl_pickBody (order : List T) :
    ((∀ t ∈ order, ¬Eligible k t) ∧
      (order.map Node.list).foldl k.pickBody (k.idle, Kernel.idlePrio + 1) = (k.idle, Kernel.idlePrio + 1)) ∨
    ∃ t, FirstForemost k order t ∧
      (order.map Node.list).foldl k.pickBody (k.idle, Kernel.idlePrio + 1) = (t, k.priority t) := by
  induction order using List.reverseRecOn with
  | nil => exact Or.inl ⟨fun t ht => absurd ht List.not_mem_nil, rfl⟩
  | append_singleton order u ih =>
    rw [List.map_append, List.foldl_append]
    obtain ⟨hnone, hfold⟩ | ⟨t, ⟨l₁, l₂, hsplit, ht, h₁, h₂⟩, hfold⟩ := ih
    · rw [hfold]
      obtain ⟨hu, -, hbody⟩ | ⟨hu, hbody⟩ := pickBody_list (k := k) (k.idle, Kernel.idlePrio + 1) u (Int.le_refl _)
      · refine Or.inr ⟨u, ⟨order, [], rfl, hu, fun v hv he => absurd he (hnone v hv), fun v hv => ?_⟩, hbody⟩
        exact absurd hv List.not_mem_nil
      · refine Or.inl ⟨fun v hv he => ?_, hbody⟩
        obtain hv | hv := List.mem_append.mp hv
        · exact hnone v hv he
        · obtain rfl := List.mem_singleton.mp hv
          have hle : Kernel.idlePrio + 1 ≤ k.priority v := hu he
          have := he.2.2
          omega
    · rw [hfold]
      have hprio : k.priority t ≤ Kernel.idlePrio + 1 := by
        have := ht.2.2
        omega
      obtain ⟨hu, hlt, hbody⟩ | ⟨hu, hbody⟩ := pickBody_list (k := k) (t, k.priority t) u hprio
      · refine Or.inr ⟨u, ⟨order, [], rfl, hu, fun v hv he => ?_, fun v hv => absurd hv List.not_mem_nil⟩, hbody⟩
        -- whatever came before is no better than the task it replaces
        have hle : k.priority t ≤ k.priority v := by
          rw [hsplit, List.mem_append, List.mem_cons] at hv
          obtain hv | rfl | hv := hv
          · exact Int.le_of_lt (h₁ v hv he)
          · exact Int.le_refl _
          · exact h₂ v hv he
        exact Int.lt_of_lt_of_le hlt hle
      · refine Or.inr ⟨t, ⟨l₁, l₂ ++ [u], by rw [hsplit, List.append_assoc]; rfl, ht, h₁, fun v hv he => ?_⟩, hbody⟩
        obtain hv | hv := List.mem_append.mp hv
        · exact h₂ v hv he
        · obtain rfl := List.mem_singleton.mp hv
          exact hu he

theorem pickBest_eq (hq : Queue k l) (hfuel : l.length < fuel) :
    k.pickBest fuel k.startCursor =
      some (((turnOrder k.cursor l).map Node.list).foldl k.pickBody (k.idle, Kernel.idlePrio + 1)) := by
  have hring := hq.ring
  have hfrom : ∀ t l₁ l₂, l = l₁ ++ t :: l₂ → k.pickBest fuel (.list t) =
      some (((t :: l₂ ++ l₁).map Node.list).foldl k.pickBody (k.idle, Kernel.idlePrio + 1)) := by
    rintro t l₁ l₂ rfl
    rw [List.map_append, List.map_cons] at hring
    rw [Kernel.pickBest, if_neg (by simp), if_neg (by simp),
      hring.forCircular (by simpa using hfuel), List.map_append, List.map_cons]
    rfl
  have hhead : k.pickBest fuel (k.links.next .procList) =
      some ((l.map Node.list).foldl k.pickBody (k.idle, Kernel.idlePrio + 1)) := by
    rw [hring.next_head]
    cases l with
    | nil =>
      have hnext : k.links.next .procList = .procList := hring.next_head
      simp [Kernel.pickBest, hnext]
    | cons t l => simpa using hfrom t [] l rfl
  cases hc : k.cursor with
  | none =>
    simp only [Kernel.startCursor, hc]
    exact hhead
  | some c =>
    obtain rfl | ⟨t, ht, rfl⟩ := hq.cursor c hc
    · simp only [Kernel.startCursor, hc, if_true]
      exact hhead
    · obtain ⟨l₁, l₂, hl⟩ := List.append_of_mem ht
      simp only [Kernel.startCursor, hc, reduceCtorEq, if_false]
      rw [hfrom t l₁ l₂ hl, turnOrder_split hl hq.nodup]

theorem pickNext_spec (hq : Queue k l) (hfuel : l.length < fuel) :
    ((∀ t ∈ l, ¬Eligible k t) ∧ k.pickNext fuel = some (k.idle, { k with cursor := some k.startCursor })) ∨
    ∃ t, FirstForemost k (turnOrder k.cursor l) t ∧
      k.pickNext fuel = some (t, { k with cursor := some (k.links.next (.list t)) }) := by
  have hbest := pickBest_eq hq hfuel
  obtain ⟨hnone, hfold⟩ | ⟨t, ht, hfold⟩ := foldl_pickBody (k := k) (turnOrder k.cursor l)
  · refine Or.inl ⟨fun t ht => hnone t ((turnOrder_perm hq).mem_iff.mpr ht), ?_⟩
    simp [Kernel.pickNext, hbest, hfold]
  · refine Or.inr ⟨t, ht, ?_⟩
    simp [Kernel.pickNext, hbest, hfold, ht.ne_idle]

theorem turnOrder_next (hq : Queue k l) (hl : turnOrder k.cursor l = l₁ ++ t :: l₂) :
    turnOrder (some (k.links.next (.list t))) l = l₂ ++ (l₁ ++ [t]) := by
  have hnd := hq.nodup
  have hafter : ∀ m₁ m₂, l = m₁ ++ t :: m₂ → turnOrder (some (k.links.next (.list t))) l = m₂ ++ (m₁ ++ [t]) := by
    intro m₁ m₂ hm
    have hring := hq.ring
    rw [hm, List.map_append, List.map_cons] at hring
    rw [hring.next_member]
    cases m₂ with
    | nil => exact hm
    | cons x m₂ =>
      rw [List.map_cons, List.headD_cons]
      exact turnOrder_split (by rw [hm, List.append_assoc]; rfl) hnd
  cases hc : k.cursor with
  | none =>
    rw [hc] at hl
    exact hafter l₁ l₂ hl
  | some c =>
    rw [hc] at hl
    obtain rfl | ⟨x, hx, rfl⟩ := hq.cursor c hc
    · exact hafter l₁ l₂ hl
    · obtain ⟨n₁, n₂, hn⟩ := List.append_of_mem hx
      rw [turnOrder_split hn hnd] at hl
      -- the list was cut in front of `x`; the task stands in one of the two parts
      obtain ⟨m, rfl, hm⟩ | ⟨m, hm, hm'⟩ := List.append_eq_append_iff.mp hl
      · rw [hafter m (l₂ ++ x :: n₂) (by rw [hn, hm, List.append_assoc]; rfl)]
        simp only [List.append_assoc]
      · cases m with
        | nil =>
          rw [List.append_nil] at hm
          rw [hafter [] (l₂ ++ l₁) (by rw [hn, ← hm, ← List.nil_append n₁, ← hm']; rfl), List.append_assoc]
          rfl
        | cons y m =>
          obtain ⟨rfl, hl₂⟩ := List.cons.inj hm'
          rw [hafter (n₁ ++ l₁) m (by rw [hn, hm, List.append_assoc]), hl₂]
          exact (by simp only [List.append_assoc] : m ++ (n₁ ++ l₁ ++ [t]) = m ++ n₁ ++ (l₁ ++ [t]))

/-! ## Turns -/

/-- Calls of `pick_next` on behalf of the tasks `currents`, one after the other. -/
def pickRun (fuel : ℕ) : List T → Kernel T → Option (List T × Kernel T)
  | [], k => some ([], k)
  | c :: currents, k => do
    let (t, k) ← { k with current := c }.pickNext fuel
    let (picked, k) ← pickRun fuel currents k
    some (t :: picked, k)

theorem FirstForemost.filter {order S : List T} (h : FirstForemost k order t) (hperm : order.Perm l)
    (hS : ∀ u, Foremost k l u ↔ u ∈ S) :
    ∃ l₁ l₂, order = l₁ ++ t :: l₂ ∧ (order.filter (· ∈ S)) = t :: l₂.filter (· ∈ S) ∧ l₁.filter (· ∈ S) = [] := by
  obtain ⟨l₁, l₂, rfl, ht, h₁, h₂⟩ := h
  have hbefore : l₁.filter (· ∈ S) = [] := by
    refine List.filter_eq_nil_iff.mpr fun u hu => ?_
    intro hmem
    have hfore := (hS u).mpr (by simpa using hmem)
    have hlt := h₁ u hu hfore.eligible
    have hle := hfore.least t (hperm.mem_iff.mp (List.mem_append_right l₁ List.mem_cons_self)) ht
    omega
  have htS : t ∈ S := by
    refine (hS t).mp ⟨hperm.mem_iff.mp (List.mem_append_right l₁ List.mem_cons_self), ht, fun u hu he => ?_⟩
    have hu := hperm.mem_iff.mpr hu
    rw [List.mem_append, List.mem_cons] at hu
    obtain hu | rfl | hu := hu
    · exact Int.le_of_lt (h₁ u hu he)
    · exact Int.le_refl _
    · exact h₂ u hu he
  refine ⟨l₁, l₂, rfl, ?_, hbefore⟩
  rw [List.filter_append, hbefore, List.filter_cons_of_pos (by simpa using htS), List.nil_append]

theorem pickRun_spec {S currents : List T} (hq : Queue k l) (hfuel : l.length < fuel)
    (hS : ∀ c ∈ currents, ∀ t, Foremost { k with current := c } l t ↔ t ∈ S)
    (hlen : currents.length ≤ ((turnOrder k.cursor l).filter (· ∈ S)).length) :
    ∃ k', pickRun fuel currents k = some (((turnOrder k.cursor l).filter (· ∈ S)).take currents.length, k') := by
  induction currents generalizing k with
  | nil => exact ⟨k, rfl⟩
  | cons c currents ih =>
    have hq₀ : Queue { k with current := c } l := ⟨hq.ring, hq.cursor⟩
    have hS₀ := hS c List.mem_cons_self
    obtain ⟨hnone, -⟩ | ⟨t, ht, hpick⟩ := pickNext_spec hq₀ hfuel
    · -- some task is foremost
      obtain ⟨u, hu⟩ := List.exists_mem_of_length_pos (Nat.lt_of_lt_of_le (Nat.succ_pos _) hlen)
      have hfore := (hS₀ u).mpr (by simpa using (List.mem_filter.mp hu).2)
      exact absurd hfore.eligible (hnone u hfore.mem)
    · obtain ⟨l₁, l₂, horder, hfilter, hbefore⟩ := ht.filter (turnOrder_perm hq₀) hS₀
      have hmem : t ∈ l := (turnOrder_perm hq₀).mem_iff.mp (by rw [horder]; simp)
      have hq₁ := hq₀.next hmem
      have hnext := turnOrder_next hq₀ horder
      have hfilter₁ : (turnOrder (some (k.links.next (.list t))) l).filter (· ∈ S) = l₂.filter (· ∈ S) ++ [t] := by
        have htS : t ∈ S := by
          have : t ∈ (turnOrder k.cursor l).filter (· ∈ S) := by
            rw [hfilter]
            exact List.mem_cons_self
          simpa using (List.mem_filter.mp this).2
        rw [hnext, List.filter_append, List.filter_append, hbefore, List.nil_append,
          List.filter_cons_of_pos (by simpa using htS), List.filter_nil]
      have hle : currents.length ≤ (l₂.filter (· ∈ S)).length := by
        have := hlen
        rw [hfilter, List.length_cons, List.length_cons] at this
        omega
      obtain ⟨k', hrun⟩ := ih hq₁ (fun c' hc' u => (foremost_current rfl).trans (hS c' (List.mem_cons_of_mem c hc') u))
        (by rw [hfilter₁, List.length_append]; omega)
      refine ⟨k', ?_⟩
      rw [hfilter₁, List.take_append_of_le_length hle] at hrun
      rw [pickRun, hpick]
      simp only [bind, Option.bind_some, hrun]
      rw [hfilter, List.length_cons, List.take_succ_cons]

/-- `pick_next` returns the idle task if and only if no task is eligible, and else the first foremost task from the cursor
on; and calls on one process list return the foremost tasks by turns. -/
theorem pick_next_round_robin (hq : Queue k l) (hfuel : l.length < fuel) :
    (∃ next k', k.pickNext fuel = some (next, k') ∧ (next = k.idle ↔ ∀ t ∈ l, ¬Eligible k t) ∧
      (next ≠ k.idle → FirstForemost k (turnOrder k.cursor l) next)) ∧
    ∀ S currents : List T, S.Nodup → S ≠ [] → currents.length = S.length →
      (∀ c ∈ currents, ∀ t, Foremost { k with current := c } l t ↔ t ∈ S) →
      ∃ picked k', pickRun fuel currents k = some (picked, k') ∧ picked.Perm S := by
  constructor
  · obtain ⟨hnone, hpick⟩ | ⟨t, ht, hpick⟩ := pickNext_spec hq hfuel
    · exact ⟨_, _, hpick, ⟨fun _ => hnone, fun _ => rfl⟩, fun h => absurd rfl h⟩
    · refine ⟨t, _, hpick, ⟨fun h => absurd h ht.ne_idle, fun h => ?_⟩, fun _ => ht⟩
      obtain ⟨l₁, l₂, horder, he, -⟩ := ht
      exact absurd he (h t ((turnOrder_perm hq).mem_iff.mp (by rw [horder]; simp)))
  · intro S currents hnd hne hlen hS
    have hperm : ((turnOrder k.cursor l).filter (· ∈ S)).Perm S := by
      obtain ⟨c, hc⟩ : ∃ c, c ∈ currents := by
        apply List.exists_mem_of_length_pos
        rw [hlen]
        exact List.length_pos_iff.mpr hne
      rw [List.perm_ext_iff_of_nodup (((turnOrder_perm hq).nodup_iff.mpr hq.nodup).filter _) hnd]
      intro t
      rw [List.mem_filter, (turnOrder_perm hq).mem_iff]
      simp only [decide_eq_true_eq]
      exact ⟨fun h => h.2, fun h => ⟨((hS c hc t).mpr h).mem, h⟩⟩
    obtain ⟨k', hrun⟩ := pickRun_spec hq hfuel hS (by rw [hlen, hperm.length_eq])
    refine ⟨_, k', hrun, ?_⟩
    rw [hlen, ← hperm.length_eq, List.take_length]
    exact hperm

/-! ## Removals -/

/-- A run of `pick_next` calls and of removals of zombies by `remove_process` that satisfy `ok`, with the tasks that were
picked. In between anything may happen that leaves the list and the cursor alone; `A` and `B` are foremost at each call. -/
inductive PolicyRun (ok : Kernel T → T → Prop) (A B : T) : Kernel T → Table T → List T → Prop where
  | stop {k : Kernel T} {tb : Table T} : PolicyRun ok A B k tb []
  | pick {k k' : Kernel T} {tb : Table T} {fuel : ℕ} {t : T} {picked : List T} (hA : Foremost k tb.proc A)
      (hB : Foremost k tb.proc B) (hpick : k.pickNext fuel = some (t, k')) (hrun : PolicyRun ok A B k' tb picked) :
      PolicyRun ok A B k tb (t :: picked)
  | remove {k : Kernel T} {tb : Table T} {z : T} {b : Fin 1024} {picked : List T} (hz : z ∈ tb.proc) (hb : z ∈ tb.hash b)
      (hA : z ≠ A) (hB : z ≠ B) (hzombie : k.state z = .zombie) (hok : ok k z)
      (hrun : PolicyRun ok A B (k.removeProcess z)
        { tb with proc := tb.proc.erase z, hash := update tb.hash b ((tb.hash b).erase z) } picked) :
      PolicyRun ok A B k tb picked
  | change {k k' : Kernel T} {tb : Table T} {picked : List T} (hlinks : k'.links = k.links) (hlive : k'.live = k.live)
      (hcursor : k'.cursor = k.cursor) (hrun : PolicyRun ok A B k' tb picked) : PolicyRun ok A B k tb picked

theorem pickNext_fuel (hq : Queue k l) (h : k.pickNext fuel = some (t, k')) :
    k.pickNext (l.length + 1) = some (t, k') := by
  simp only [Kernel.pickNext, bind, Option.bind_eq_some_iff] at h
  obtain ⟨best, hbest, h⟩ := h
  have hmore : k.pickBest (fuel + (l.length + 1)) k.startCursor = some best := by
    rw [Kernel.pickBest] at hbest ⊢
    generalize (if k.startCursor = .procList then k.links.next .procList else k.startCursor) = first at hbest ⊢
    split at hbest
    · rename_i hfirst
      rw [if_pos hfirst]
      exact hbest
    · rename_i hfirst
      rw [if_neg hfirst]
      exact forCircular_mono (Nat.le_add_right _ _) hbest
  have heq := pickBest_eq hq (show l.length < fuel + (l.length + 1) by omega)
  rw [hmore] at heq
  simp only [Kernel.pickNext, bind, Option.bind_eq_some_iff]
  exact ⟨best, by rw [pickBest_eq hq (Nat.lt_succ_self _), ← heq], h⟩

theorem turnOrder_erase {z : T} (hq : Queue k l) (hz : k.cursor ≠ some (.list z)) :
    turnOrder k.cursor (l.erase z) = (turnOrder k.cursor l).filter (· ≠ z) := by
  have hnd := hq.nodup
  rw [hnd.erase_eq_filter]
  have hbne : (fun x : T => x != z) = fun x => decide (x ≠ z) := by
    funext x
    simp [bne, Bool.beq_eq_decide_eq]
  rw [hbne]
  cases hc : k.cursor with
  | none => rfl
  | some c =>
    obtain rfl | ⟨x, hx, rfl⟩ := hq.cursor c hc
    · rfl
    · obtain ⟨n₁, n₂, hn⟩ := List.append_of_mem hx
      have hxz : x ≠ z := fun he => hz (by rw [hc, he])
      have hfilter : l.filter (fun y => decide (y ≠ z)) =
          n₁.filter (fun y => decide (y ≠ z)) ++ x :: n₂.filter (fun y => decide (y ≠ z)) := by
        rw [hn, List.filter_append, List.filter_cons_of_pos (by simpa using hxz)]
      rw [turnOrder_split hfilter (hnd.filter _), turnOrder_split hn hnd, List.filter_append,
        List.filter_cons_of_pos (by simpa using hxz)]

variable {A B : T} {tb : Table T} {picked mid rest : List T}

def Ahead (k : Kernel T) (l : List T) (B A : T) : Prop := [B, A].Sublist (turnOrder k.cursor l)

theorem pickNext_ahead (hq : Queue k l) (hne : A ≠ B) (hA : Foremost k l A) (hB : Foremost k l B)
    (h : k.pickNext fuel = some (t, k')) :
    (t = A → Ahead k' l B A) ∧ (Ahead k l B A → t ≠ A ∧ (t = B ∨ Ahead k' l B A)) ∧ Queue k' l := by
  obtain ⟨hnone, -⟩ | ⟨t', ⟨l₁, l₂, horder, ht, h₁, h₂⟩, hpick⟩ := pickNext_spec hq (Nat.lt_succ_self _)
  · exact absurd hA.eligible (hnone A hA.mem)
  rw [pickNext_fuel hq h] at hpick
  obtain ⟨rfl, rfl⟩ := Prod.mk.inj (Option.some.inj hpick)
  have hperm := turnOrder_perm hq
  have hA₁ : A ∉ l₁ := FirstForemost.notMem ht h₁ horder hperm hA
  have hB₁ : B ∉ l₁ := FirstForemost.notMem ht h₁ horder hperm hB
  have hmem : ∀ u ∈ l, u = t ∨ u ∈ l₁ ∨ u ∈ l₂ := by
    intro u hu
    have hu := hperm.mem_iff.mpr hu
    rw [horder, List.mem_append, List.mem_cons] at hu
    tauto
  have hnext : turnOrder (some (k.links.next (.list t))) l = l₂ ++ (l₁ ++ [t]) := turnOrder_next hq horder
  have htl : t ∈ l := hperm.mem_iff.mp (by rw [horder]; simp)
  -- of the two tasks only those behind `l₁` are left
  have hcut : ∀ m, [B, A].Sublist (l₁ ++ m) → [B, A].Sublist m := by
    intro m hm
    have hfilter := hm.filter (fun x => decide (x = A ∨ x = B))
    have hl₁ : l₁.filter (fun x => decide (x = A ∨ x = B)) = [] := by
      refine List.filter_eq_nil_iff.mpr fun x hx => ?_
      simp only [decide_eq_true_eq]
      rintro (rfl | rfl)
      · exact hA₁ hx
      · exact hB₁ hx
    rw [List.filter_append, hl₁, List.nil_append, List.filter_eq_self.mpr (by simp)] at hfilter
    exact hfilter.trans List.filter_sublist
  refine ⟨?_, fun hahead => ?_, hq.next htl⟩
  · rintro rfl
    show [B, t].Sublist (turnOrder (some (k.links.next (.list t))) l)
    rw [hnext, ← List.append_assoc]
    have hfront : B ∈ l₂ ++ l₁ := by
      have := hmem B hB.mem
      rw [List.mem_append]
      tauto
    exact (List.singleton_sublist.mpr hfront).append (List.Sublist.refl [t])
  · have hsub : [B, A].Sublist (t :: l₂) := by
      rw [Ahead, horder] at hahead
      exact hcut _ hahead
    have hnd : (t :: l₂).Nodup := by
      have hall := hperm.nodup_iff.mpr hq.nodup
      rw [horder] at hall
      exact (List.nodup_append.mp hall).2.1
    by_cases htB : t = B
    · exact ⟨fun htA => hne (htA.symm.trans htB), Or.inl htB⟩
    · have hl₂ : [B, A].Sublist l₂ := by
        cases hsub with
        | cons _ h => exact h
        | cons_cons _ h => exact absurd rfl htB
      refine ⟨fun htA => ?_, Or.inr ?_⟩
      · have := hl₂.subset (show A ∈ [B, A] by simp)
        rw [← htA] at this
        exact (List.nodup_cons.mp hnd).1 this
      · show [B, A].Sublist (turnOrder (some (k.links.next (.list t))) l)
        rw [hnext]
        exact hl₂.trans (List.sublist_append_left _ _)

theorem removeProcess_queue {z : T} {b : Fin 1024} (hR : Represents k.links k.live tb) (hq : Queue k tb.proc)
    (hz : z ∈ tb.proc) (hb : z ∈ tb.hash b) (hok : k.cursor ≠ some (.list z)) :
    Represents (k.removeProcess z).links (k.removeProcess z).live
      { tb with proc := tb.proc.erase z, hash := update tb.hash b ((tb.hash b).erase z) } ∧
      Queue (k.removeProcess z) (tb.proc.erase z) ∧ (k.removeProcess z).cursor = k.cursor := by
  have hremove : k.removeProcess z = { k with links := (k.links.unlink (.hash z)).unlink (.list z),
                                              processCount := k.processCount - 1 } := by
    rw [Kernel.removeProcess, Kernel.taskRemoved, if_neg hok]
  have hR' := hR.removeProcess hz hb
  rw [hremove]
  refine ⟨hR', ⟨hR'.proc_ring, fun c hc => ?_⟩, rfl⟩
  obtain rfl | ⟨t, ht, rfl⟩ := hq.cursor c hc
  · exact Or.inl rfl
  · have htz : t ≠ z := fun he => hok (by rw [← he]; exact hc)
    exact Or.inr ⟨t, (List.mem_erase_of_ne htz).mpr ht, rfl⟩

theorem PolicyRun.ahead (hne : A ≠ B) (hR : Represents k.links k.live tb) (hq : Queue k tb.proc)
    (hrun : PolicyRun (fun k z => k.cursor ≠ some (.list z)) A B k tb picked) (hahead : Ahead k tb.proc B A)
    (hpicked : picked = mid ++ A :: rest) : B ∈ mid := by
  induction hrun generalizing mid with
  | stop => exact absurd hpicked (by simp)
  | @pick k k' tb fuel t picked hA hB hpick hrun ih =>
    obtain ⟨-, hstep, hq'⟩ := pickNext_ahead hq hne hA hB hpick
    obtain ⟨htA, htB⟩ := hstep hahead
    cases mid with
    | nil => exact absurd (List.cons.inj hpicked).1 htA
    | cons x mid =>
      obtain ⟨rfl, htail⟩ := List.cons.inj hpicked
      obtain rfl | hahead' := htB
      · exact List.mem_cons_self
      · have hlinks : k'.links = k.links ∧ k'.live = k.live := by
          simp only [Kernel.pickNext, bind, Option.bind_eq_some_iff, Option.some.injEq, Prod.mk.injEq] at hpick
          obtain ⟨_, _, _, rfl⟩ := hpick
          exact ⟨rfl, rfl⟩
        exact List.mem_cons_of_mem t (ih (by rw [hlinks.1, hlinks.2]; exact hR) hq' hahead' htail)
  | @remove k tb z b picked hz hb hA hB hzombie hok hrun ih =>
    obtain ⟨hR', hq', hcursor⟩ := removeProcess_queue hR hq hz hb hok
    refine ih hR' hq' ?_ hpicked
    rw [Ahead, hcursor]
    show [B, A].Sublist (turnOrder k.cursor (tb.proc.erase z))
    rw [turnOrder_erase hq hok]
    have hkeep := List.Sublist.filter (fun x => decide (x ≠ z)) hahead
    rwa [List.filter_eq_self.mpr (by simp [Ne.symm hA, Ne.symm hB])] at hkeep
  | @change k k' tb picked hlinks hlive hcursor hrun ih =>
    refine ih (by rw [hlinks, hlive]; exact hR) ⟨by rw [hlinks]; exact hq.ring, by rw [hcursor]; exact hq.cursor⟩ ?_ hpicked
    rw [Ahead, hcursor]
    exact hahead

/-- The table of tasks without parents. -/
def pidTable (pid : T → ℤ) (l : List T) : Table T := ⟨l, fun b => l.filter fun t => pidHash (pid t) = b, fun _ => []⟩

theorem pidTable_addProcess {links : Links (Node T)} {live : T → Bool} {pid : T → ℤ}
    (hR : Represents links live (pidTable pid l)) (hlive : live t = true) (ht : t ∉ l) :
    Represents ((links.addAfter (.bucket (pidHash (pid t))) (.hash t)).addAfter .procList (.list t)) live
      (pidTable pid (t :: l)) := by
  have hadd := hR.addProcess hlive ht (fun b hb => ht (List.mem_of_mem_filter hb)) (pidHash (pid t))
  have htable : pidTable pid (t :: l) = { pidTable pid l with
      proc := t :: l, hash := update (pidTable pid l).hash (pidHash (pid t)) (t :: (pidTable pid l).hash (pidHash (pid t))) } := by
    have hhash : (pidTable pid (t :: l)).hash =
        update (pidTable pid l).hash (pidHash (pid t)) (t :: (pidTable pid l).hash (pidHash (pid t))) := by
      funext b
      by_cases hb : b = pidHash (pid t)
      · rw [hb, update_self, pidTable]
        simp only [decide_true, List.filter_cons_of_pos]
        rfl
      · rw [update_of_ne hb, pidTable]
        simp only [Ne.symm hb, decide_false, Bool.false_eq_true, not_false_eq_true, List.filter_cons_of_neg]
        rfl
    rw [← hhash]
    rfl
  rw [htable]
  exact hadd

omit [DecidableEq T] in
theorem pidTable_empty (pid : T → ℤ) (live : T → Bool) : Represents ⟨id, id⟩ live (pidTable pid []) := by
  have hmem : ∀ n, (pidTable pid []).mem n = [] := by
    intro n
    cases n <;> rfl
  refine ⟨fun n _ => ?_, fun m n _ _ hmn y hy hy' => ?_⟩
  · rw [hmem]
    exact ⟨⟨rfl, rfl⟩, List.nodup_singleton n⟩
  · rw [hmem, List.mem_singleton] at hy hy'
    exact hmn (hy.symm.trans hy')

/-- Tasks 0 to 3 are put on the list, the last one first; 3 is the idle task, 0 is running and 1 is a zombie. -/
def threeTasks : Kernel (Fin 4) :=
  let k : Kernel (Fin 4) :=
    { links := ⟨id, id⟩, live := fun _ => true, pid := fun t => t.val,
      state := fun t => if t = 0 then .running else if t = 1 then .zombie else .runnable,
      exitCode := fun _ => 0, waitState := fun _ => false, parent := fun _ => none,
      priority := fun t => if t = 3 then Kernel.idlePrio else 10, userMemory := fun _ => false, idle := 3, init := none,
      processCount := 0, nextPid := 4, current := 0, cursor := none, pc := fun _ => .outside, published := fun _ => true,
      serial := fun t => t.val, forkCount := 3 }
  (((k.addProcess 3).addProcess 2).addProcess 1).addProcess 0

theorem threeTasks_represents : Represents threeTasks.links threeTasks.live (pidTable threeTasks.pid [0, 1, 2, 3]) :=
  pidTable_addProcess (pidTable_addProcess (pidTable_addProcess (pidTable_addProcess (pidTable_empty _ _) rfl (by decide))
    rfl (by decide)) rfl (by decide)) rfl (by decide)

theorem threeTasks_foremost (t : Fin 4) : Foremost threeTasks [0, 1, 2, 3] t ↔ t ∈ [0, 2] := by
  have heligible : ∀ t, Eligible threeTasks t ↔ t ∈ [0, 2] := by
    unfold Eligible
    decide
  have hprio : ∀ t ∈ [0, 2], threeTasks.priority t = 10 := by decide
  refine ⟨fun h => (heligible t).mp h.eligible, fun h => ⟨?_, (heligible t).mpr h, fun u _ hu => ?_⟩⟩
  · revert t
    decide
  · rw [hprio t h, hprio u ((heligible u).mp hu)]

theorem threeTasks_queue : Queue threeTasks [0, 1, 2, 3] :=
  ⟨threeTasks_represents.proc_ring, fun c hc => by cases hc⟩

theorem pick_next_three_tasks :
    ∃ picked k', pickRun 5 [0, 0] threeTasks = some (picked, k') ∧ picked.Perm [0, 2] := by
  refine (pick_next_round_robin threeTasks_queue (by decide)).2 [0, 2] [0, 0] (by decide) (by decide) rfl fun c hc t => ?_
  obtain rfl : c = 0 := by simpa using hc
  exact threeTasks_foremost t

end Zonix.Sched
