import Mathlib

/-!
# Joining neighbours in place

A table is read by an index `i` while its first `m ≤ i` entries hold the elements read so far, each new one joined to
the last of them where `join` has a value. `foldl (push join)` says the same over lists, newest element first.
-/

namespace Zonix.Coalesce

variable {α : Type*} {join : α → α → Option α} {t : ℕ → α} {n i m k : ℕ}

def push (join : α → α → Option α) : List α → α → List α
  | [], x => [x]
  | y :: ys, x =>
    match join y x with
    | some z => z :: ys
    | none => x :: y :: ys

def compact (join : α → α → Option α) : ℕ → ℕ → ℕ → (ℕ → α) → (ℕ → α) × ℕ
  | 0, _, m, t => (t, m)
  | n + 1, i, m, t =>
    match if 0 < m then join (t (m - 1)) (t i) else none with
    | some z => compact join n (i + 1) m (Function.update t (m - 1) z)
    | none => compact join n (i + 1) (m + 1) (if m ≠ i then Function.update t m (t i) else t)

/-- The first `m` entries, the last one first. -/
def held (t : ℕ → α) : ℕ → List α
  | 0 => []
  | m + 1 => t m :: held t m

def unread (t : ℕ → α) (i n : ℕ) : List α := (List.range' i n).map t

theorem unread_succ (t : ℕ → α) (i n : ℕ) : unread t i (n + 1) = t i :: unread t (i + 1) n := by
  rw [unread, List.range'_succ, List.map_cons, unread]

theorem held_congr {s : ℕ → α} (h : ∀ k < m, s k = t k) : held s m = held t m := by
  induction m with
  | zero => rfl
  | succ m ih => rw [held, held, h m (Nat.lt_succ_self m), ih fun k hk => h k (Nat.lt_succ_of_lt hk)]

theorem reverse_held (t : ℕ → α) (m : ℕ) : (held t m).reverse = (List.range m).map t := by
  induction m with
  | zero => rfl
  | succ m ih => rw [held, List.reverse_cons, ih, List.range_succ, List.map_append, List.map_singleton]

theorem held_update (h : m ≤ k) (x : α) : held (Function.update t k x) m = held t m :=
  held_congr fun j hj => Function.update_of_ne (by omega) x t

theorem unread_update (h : k < i) (x : α) : unread (Function.update t k x) i n = unread t i n := by
  refine List.map_congr_left fun j hj => Function.update_of_ne ?_ x t
  have := (List.mem_range'_1.1 hj).1
  omega

theorem held_store (t : ℕ → α) (m : ℕ) (x : α) : held (Function.update t m x) (m + 1) = x :: held t m := by
  rw [held, Function.update_self, held_update le_rfl]

theorem held_copy (t : ℕ → α) (m i : ℕ) :
    held (if m ≠ i then Function.update t m (t i) else t) (m + 1) = t i :: held t m := by
  by_cases h : m = i
  · rw [if_neg (not_not.2 h), held, h]
  · rw [if_pos h, held_store]

theorem unread_copy (h : m ≤ i) :
    unread (if m ≠ i then Function.update t m (t i) else t) (i + 1) n = unread t (i + 1) n := by
  by_cases hm : m = i
  · rw [if_neg (not_not.2 hm)]
  · rw [if_pos hm, unread_update (by omega)]

theorem compact_held (h : m ≤ i) :
    held (compact join n i m t).1 (compact join n i m t).2 = (unread t i n).foldl (push join) (held t m) := by
  induction n generalizing i m t with
  | zero => rfl
  | succ n ih =>
    rw [unread_succ, List.foldl_cons, compact]
    cases m with
    | zero =>
      simp only [Nat.lt_irrefl, if_false]
      rw [ih (by omega), held_copy, unread_copy h]
      rfl
    | succ m =>
      simp only [Nat.zero_lt_succ, if_true, Nat.add_sub_cancel]
      rw [held, push]
      cases hj : join (t m) (t i) with
      | some z =>
        simp only
        rw [ih (by omega), held_store, unread_update (by omega)]
      | none =>
        simp only
        rw [ih (by omega), held_copy, unread_copy h, held]

/-! ## What the joined list keeps -/

theorem length_push_le (acc : List α) (x : α) : (push join acc x).length ≤ acc.length + 1 := by
  cases acc with
  | nil => exact le_rfl
  | cons y ys =>
    rw [push]
    cases join y x with
    | some z => exact Nat.le_succ _
    | none => exact le_rfl

theorem length_foldl_push_le (xs acc : List α) : (xs.foldl (push join) acc).length ≤ acc.length + xs.length := by
  induction xs generalizing acc with
  | nil => exact le_rfl
  | cons x xs ih =>
    have hpush : (push join acc x).length ≤ acc.length + 1 := length_push_le acc x
    have hrest := ih (push join acc x)
    rw [List.foldl_cons, List.length_cons]
    omega

section Additive

variable {M : Type*} [AddCommMonoid M] {P : α → Prop} {f : α → M}

theorem push_sum (hf : ∀ y x z, P y → P x → join y x = some z → P z ∧ f z = f y + f x) {acc : List α} {x : α}
    (hacc : ∀ y ∈ acc, P y) (hx : P x) :
    (∀ y ∈ push join acc x, P y) ∧ ((push join acc x).map f).sum = (acc.map f).sum + f x := by
  cases acc with
  | nil => exact ⟨List.forall_mem_singleton.2 hx, by simp [push]⟩
  | cons y ys =>
    obtain ⟨hy, hys⟩ := List.forall_mem_cons.1 hacc
    rw [push]
    cases hj : join y x with
    | some z =>
      obtain ⟨hz, hsum⟩ := hf y x z hy hx hj
      refine ⟨List.forall_mem_cons.2 ⟨hz, hys⟩, ?_⟩
      simp only [List.map_cons, List.sum_cons]
      rw [hsum, add_right_comm]
    | none =>
      refine ⟨List.forall_mem_cons.2 ⟨hx, hacc⟩, ?_⟩
      simp only [List.map_cons, List.sum_cons]
      rw [add_comm]

theorem foldl_push_sum (hf : ∀ y x z, P y → P x → join y x = some z → P z ∧ f z = f y + f x) {xs acc : List α}
    (hacc : ∀ y ∈ acc, P y) (hxs : ∀ x ∈ xs, P x) :
    ((xs.foldl (push join) acc).map f).sum = (acc.map f).sum + (xs.map f).sum := by
  induction xs generalizing acc with
  | nil => rw [List.foldl_nil, List.map_nil, List.sum_nil, add_zero]
  | cons x xs ih =>
    obtain ⟨hx, hrest⟩ := List.forall_mem_cons.1 hxs
    obtain ⟨hP, hsum⟩ := push_sum hf hacc hx
    rw [List.foldl_cons, ih hP hrest, hsum, List.map_cons, List.sum_cons, add_assoc]

end Additive

/-- An element that `join` takes at its end still does not join what is before it. -/
def HeadStable (join : α → α → Option α) : Prop :=
  ∀ y x w z, join x w = some z → join y x = none → join y z = none

theorem push_apart (hs : HeadStable join) {acc : List α} (h : acc.IsChain fun x y => join y x = none) (x : α) :
    (push join acc x).IsChain fun x y => join y x = none := by
  cases acc with
  | nil => exact List.isChain_singleton x
  | cons y ys =>
    rw [push]
    cases hj : join y x with
    | none => exact List.isChain_cons_cons.2 ⟨hj, h⟩
    | some z =>
      cases ys with
      | nil => exact List.isChain_singleton z
      | cons w ws =>
        obtain ⟨hw, hws⟩ := List.isChain_cons_cons.1 h
        exact List.isChain_cons_cons.2 ⟨hs w y x z hj hw, hws⟩

theorem foldl_push_apart (hs : HeadStable join) {acc : List α} (h : acc.IsChain fun x y => join y x = none)
    (xs : List α) : (xs.foldl (push join) acc).IsChain fun x y => join y x = none := by
  induction xs generalizing acc with
  | nil => exact h
  | cons x xs ih => exact ih (push_apart hs h x)

end Zonix.Coalesce
