import Mathlib
import Zonix.Lib.Radix

/-!
# Trees without empty nodes

What the paths of a radix tree find, and that it decides how many nodes a tree has in which no node is empty.
-/

namespace Zonix.Lib.Radix

open Finset

variable {n : ℕ} {W : Type}

section

variable (next : W → Option ℕ) (h : Heap n W) (p : ℕ → Fin n)

def found : ℕ → ℕ → ℕ × W
  | 0, f => (0, h f (p 0))
  | l + 1, f => (next (h f (p (l + 1)))).elim (l + 1, h f (p (l + 1))) fun g => found l g

def content [Zero W] [DecidableEq W] (l f : ℕ) : Option (ℕ × W) :=
  if (found next h p l f).2 = 0 then none else some (found next h p l f)

end

variable {next : W → Option ℕ} {h h' : Heap n W} {l f g : ℕ} {p q : ℕ → Fin n}

theorem found_child (hg : next (h f (p (l + 1))) = some g) : found next h p (l + 1) f = found next h p l g := by
  rw [found, hg, Option.elim_some]

theorem found_end (hg : next (h f (p (l + 1))) = none) :
    found next h p (l + 1) f = (l + 1, h f (p (l + 1))) := by
  rw [found, hg, Option.elim_none]

theorem found_le : (found next h p l f).1 ≤ l := by
  induction l generalizing f with
  | zero => exact Nat.le_refl 0
  | succ l ih =>
    cases hg : next (h f (p (l + 1))) with
    | none =>
      rw [found_end hg]
    | some g =>
      rw [found_child hg]
      exact Nat.le_succ_of_le ih

theorem found_path (hpq : ∀ k ≤ l, p k = q k) : found next h p l f = found next h q l f := by
  induction l generalizing f with
  | zero => rw [found, found, hpq 0 (Nat.le_refl 0)]
  | succ l ih =>
    rw [found, found, hpq (l + 1) (Nat.le_refl _)]
    cases next (h f (q (l + 1))) with
    | none => rfl
    | some g => exact ih fun k hk => hpq k (by omega)

theorem found_congr (hh : ∀ g ∈ nodes next h l f, h' g = h g) : found next h' p l f = found next h p l f := by
  induction l generalizing f with
  | zero => rw [found, found, hh f self_mem_nodes]
  | succ l ih =>
    rw [found, found, hh f self_mem_nodes]
    cases hg : next (h f (p (l + 1))) with
    | none => rfl
    | some g => exact ih fun k hk => hh k (mem_nodes_child hg hk)

variable {j : Fin n}

theorem nodes_change {x y : Multiset ℕ} (hw : ∀ i, i ≠ j → h' f i = h f i)
    (hn : ∀ i, i ≠ j → ∀ g, next (h f i) = some g → ∀ k ∈ nodes next h l g, h' k = h k)
    (hj : below next h' l f j + x = below next h l f j + y) :
    nodes next h' (l + 1) f + x = nodes next h (l + 1) f + y := by
  unfold below nodes at hj
  rw [nodes, nodes]
  exact weight_child hw hn hj

theorem nodes_only {i : Fin n} (hi : next (h f i) = some g) (ho : ∀ k, k ≠ i → next (h f k) = none) :
    nodes next h (l + 1) f = {f} + nodes next h l g := by
  rw [nodes_succ, sum_eq_single i, hi, Option.elim_some]
  · intro k _ hk
    rw [ho k hk, Option.elim_none]
  · intro hn
    exact absurd (mem_univ i) hn

theorem nodes_two {i : Fin n} {g' : ℕ} (hij : i ≠ j) (hi : next (h f i) = some g) (hj : next (h f j) = some g')
    (ho : ∀ k, k ≠ i → k ≠ j → next (h f k) = none) :
    nodes next h (l + 1) f = {f} + (nodes next h l g + nodes next h l g') := by
  rw [nodes_succ, sum_eq_add i j hij, hi, hj, Option.elim_some, Option.elim_some]
  · intro k _ hk
    rw [ho k hk.1 hk.2, Option.elim_none]
  · intro hn
    exact absurd (mem_univ i) hn
  · intro hn
    exact absurd (mem_univ j) hn

theorem below_none (hj : next (h f j) = none) : below next h l f j = 0 := by
  rw [below, hj, Option.elim_none]

theorem card_nodes_one : (nodes next h 1 f).card ≤ n + 1 := by
  have hone : ∀ i ∈ (univ : Finset (Fin n)), ((next (h f i)).elim 0 fun g => nodes next h 0 g).card ≤ 1 := by
    intro i _
    cases next (h f i) with
    | none => exact Nat.zero_le 1
    | some g =>
      rw [Option.elim_some, nodes_zero]
      exact Nat.le_refl 1
  have hsum := sum_le_card_nsmul _ _ _ hone
  rw [card_univ, Fintype.card_fin, smul_eq_mul, Nat.mul_one] at hsum
  rw [nodes_succ, Multiset.card_add, Multiset.card_singleton, Multiset.card_sum]
  omega

/-! ## Contents -/

variable [Zero W]

section

variable [DecidableEq W]

theorem content_child (hg : next (h f (p (l + 1))) = some g) : content next h p (l + 1) f = content next h p l g := by
  rw [content, content, found_child hg]

theorem content_end (hg : next (h f (p (l + 1))) = none) : content next h p (l + 1) f =
    if h f (p (l + 1)) = 0 then none else some (l + 1, h f (p (l + 1))) := by
  rw [content, found_end hg]

theorem content_path (hpq : ∀ k ≤ l, p k = q k) : content next h p l f = content next h q l f := by
  rw [content, content, found_path hpq]

theorem content_congr (hh : ∀ g ∈ nodes next h l f, h' g = h g) : content next h' p l f = content next h p l f := by
  rw [content, content, found_congr hh]

theorem content_le {e : ℕ × W} (he : content next h p l f = some e) : e.1 ≤ l := by
  rw [content] at he
  split at he
  · cases he
  · cases he
    exact found_le

theorem content_empty (h0 : next 0 = none) (hg : ∀ i, h f i = 0) : content next h p l f = none := by
  cases l with
  | zero => exact if_pos (hg _)
  | succ l => rw [content_end (by rw [hg, h0]), if_pos (hg _)]

theorem content_slot {s : ℕ × Fin n} (hs : slot next h p l f = some s) :
    content next h p l f = if h s.1 s.2 = 0 then none else some (0, h s.1 s.2) := by
  induction l generalizing f with
  | zero =>
    cases hs
    rfl
  | succ l ih =>
    cases hg : next (h f (p (l + 1))) with
    | none => simp [slot, hg] at hs
    | some g =>
      simp only [slot, hg, Option.elim_some] at hs
      rw [content_child hg, ih hs]

theorem content_change (hw : ∀ i, i ≠ j → h' f i = h f i)
    (hn : ∀ i, i ≠ j → ∀ g, next (h f i) = some g → ∀ k ∈ nodes next h l g, h' k = h k) (hp : p (l + 1) ≠ j) :
    content next h' p (l + 1) f = content next h p (l + 1) f := by
  cases hg : next (h f (p (l + 1))) with
  | none => rw [content_end (by rw [hw _ hp]; exact hg), content_end hg, hw _ hp]
  | some g => rw [content_child (by rw [hw _ hp]; exact hg), content_child hg, content_congr (hn _ hp g hg)]

theorem content_write {s : ℕ × Fin n} {w : W} (hd : (nodes next h l f).Nodup) (hs : slot next h p l f = some s) :
    content next (write h s w) q l f =
      if ∀ k ≤ l, q k = p k then (if w = 0 then none else some (0, w)) else content next h q l f := by
  induction l generalizing f with
  | zero =>
    cases hs
    by_cases hq : q 0 = p 0
    · rw [if_pos fun k hk => by rw [Nat.le_zero.1 hk, hq], content, found, hq, write_self h (f, p 0) w]
    · rw [if_neg fun hall => hq (hall 0 (Nat.le_refl 0)), content, content, found, found, write_index _ _ _ _ hq]
  | succ l ih =>
    cases hg : next (h f (p (l + 1))) with
    | none => simp [slot, hg] at hs
    | some g =>
      simp only [slot, hg, Option.elim_some] at hs
      obtain ⟨hf, hn⟩ := write_frame (w := w) hd hg (mem_nodes_of_slot hs)
      by_cases hq : q (l + 1) = p (l + 1)
      · have hg' : next (h f (q (l + 1))) = some g := by rw [hq, hg]
        rw [content_child (by rw [hf]; exact hg'), content_child hg', ih (nodup_child hd hg).1 hs]
        congr 1
        refine propext ⟨fun hall k hk => ?_, fun hall k hk => hall k (by omega)⟩
        obtain hk | rfl : k ≤ l ∨ k = l + 1 := by omega
        · exact hall k hk
        · exact hq
      · rw [content_change (fun i _ => by rw [hf]) hn hq, if_neg fun hall => hq (hall (l + 1) (Nat.le_refl _))]

end

/-! ## Nodes that lead somewhere -/

def Tight (next : W → Option ℕ) (h : Heap n W) : ℕ → ((ℕ → Fin n) → Prop) → ℕ → Prop
  | 0, _, _ => True
  | l + 1, off, f => ∀ i g, next (h f i) = some g →
      ((∃ j, h g j ≠ 0) ∨ ∃ p, off p ∧ p (l + 1) = i) ∧ Tight next h l (fun p => off p ∧ p (l + 1) = i) g

variable {off off' : (ℕ → Fin n) → Prop}

theorem Tight.mono (ht : Tight next h l off f) (hoff : ∀ p, off p → off' p) : Tight next h l off' f := by
  induction l generalizing f off off' with
  | zero => trivial
  | succ l ih =>
    intro i g hg
    obtain ⟨hne, ht⟩ := ht i g hg
    refine ⟨hne.imp_right ?_, ih ht fun p hp => ⟨hoff p hp.1, hp.2⟩⟩
    intro ⟨p, hp, hi⟩
    exact ⟨p, hoff p hp, hi⟩

theorem Tight.congr (ht : Tight next h l off f) (hh : ∀ g ∈ nodes next h l f, h' g = h g) :
    Tight next h' l off f := by
  induction l generalizing f off with
  | zero => trivial
  | succ l ih =>
    intro i g hg
    rw [hh f self_mem_nodes] at hg
    obtain ⟨hne, ht⟩ := ht i g hg
    refine ⟨?_, ih ht fun k hk => hh k (mem_nodes_child hg hk)⟩
    rw [hh g (mem_nodes_child hg self_mem_nodes)]
    exact hne

theorem Tight.change (ht : Tight next h (l + 1) off f) (hw : ∀ i, i ≠ j → h' f i = h f i)
    (hn : ∀ i, i ≠ j → ∀ g, next (h f i) = some g → ∀ k ∈ nodes next h l g, h' k = h k)
    (hoff : ∀ p, off p → p (l + 1) ≠ j → off' p)
    (hj : ∀ g, next (h' f j) = some g → ((∃ i, h' g i ≠ 0) ∨ ∃ p, off' p ∧ p (l + 1) = j) ∧
      Tight next h' l (fun p => off' p ∧ p (l + 1) = j) g) : Tight next h' (l + 1) off' f := by
  intro i g hg
  by_cases hij : i = j
  · rw [hij] at hg ⊢
    exact hj g hg
  · rw [hw i hij] at hg
    obtain ⟨hne, ht⟩ := ht i g hg
    have hk := hn i hij g hg
    refine ⟨?_, (ht.congr hk).mono fun p hp => ⟨hoff p hp.1 (by rw [hp.2]; exact hij), hp.2⟩⟩
    rw [hk g self_mem_nodes]
    refine hne.imp_right ?_
    intro ⟨p, hp, hi⟩
    exact ⟨p, hoff p hp (by rw [hi]; exact hij), hi⟩

theorem tight_empty (h0 : next 0 = none) (hg : ∀ i, h f i = 0) : Tight next h l off f := by
  cases l with
  | zero => trivial
  | succ l =>
    intro i g hi
    rw [hg, h0] at hi
    cases hi

theorem Tight.write {s : ℕ × Fin n} {w : W} (ht : Tight next h l (fun q => off q ∨ q = p) f)
    (hd : (nodes next h l f).Nodup) (h0 : next 0 = none) (hs : slot next h p l f = some s) (hw : w ≠ 0) :
    Tight next (write h s w) l off f := by
  induction l generalizing f off with
  | zero => trivial
  | succ l ih =>
    cases hg : next (h f (p (l + 1))) with
    | none => simp [slot, hg] at hs
    | some g =>
      simp only [slot, hg, Option.elim_some] at hs
      obtain ⟨hf, hn⟩ := write_frame (w := w) hd hg (mem_nodes_of_slot hs)
      refine ht.change (j := p (l + 1)) (fun i _ => by rw [hf]) hn ?_ ?_
      · intro q hq hne
        obtain hq | rfl := hq
        · exact hq
        · exact absurd rfl hne
      · intro g' hg'
        rw [hf, hg] at hg'
        obtain rfl := Option.some.inj hg'
        refine ⟨Or.inl ?_, ih ((ht _ g hg).2.mono ?_) (nodup_child hd hg).1 hs⟩
        · cases l with
          | zero =>
            cases hs
            exact ⟨p 0, by rw [write_self h (g, p 0) w]; exact hw⟩
          | succ l =>
            refine ⟨p (l + 1), fun hzero => ?_⟩
            cases hg' : next (h g (p (l + 1))) with
            | none => simp [slot, hg'] at hs
            | some g' =>
              simp only [slot, hg', Option.elim_some] at hs
              obtain ⟨hf', -⟩ := write_frame (w := w) (nodup_child hd hg).1 hg' (mem_nodes_of_slot hs)
              rw [hf'] at hzero
              rw [hzero, h0] at hg'
              cases hg'
        · intro q hq
          obtain ⟨hq | rfl, hi⟩ := hq
          · exact Or.inl ⟨hq, hi⟩
          · exact Or.inr rfl

/-! ## Counting nodes -/

section

variable [DecidableEq W]

theorem exists_content (ht : Tight next h l (fun _ => False) f) (hf : ∃ j, h f j ≠ 0) :
    ∃ p, content next h p l f ≠ none := by
  induction l generalizing f with
  | zero =>
    obtain ⟨j, hj⟩ := hf
    refine ⟨fun _ => j, ?_⟩
    rw [content, found, if_neg hj]
    exact Option.some_ne_none _
  | succ l ih =>
    obtain ⟨j, hj⟩ := hf
    cases hg : next (h f j) with
    | none =>
      refine ⟨fun _ => j, ?_⟩
      rw [content_end hg, if_neg hj]
      exact Option.some_ne_none _
    | some g =>
      obtain ⟨hne | ⟨p, hp, -⟩, ht⟩ := ht j g hg
      · obtain ⟨p, hp⟩ := ih (ht.mono fun _ hp => hp.1) hne
        refine ⟨Function.update p (l + 1) j, ?_⟩
        rw [content_child (by rw [Function.update_self]; exact hg), content_path fun k hk => ?_]
        · exact hp
        · exact Function.update_of_ne (by omega) _ _
      · exact hp.elim

theorem child_of_content {f' : ℕ} {i : Fin n} (ht : Tight next h (l + 1) (fun _ => False) f)
    (hc : ∀ p, content next h' p (l + 1) f' = content next h p (l + 1) f) (hg : next (h f i) = some g) :
    ∃ g', next (h' f' i) = some g' ∧ ∀ p, content next h' p l g' = content next h p l g := by
  have hcut : ∀ p : ℕ → Fin n, Function.update p (l + 1) i (l + 1) = i := fun p => Function.update_self _ _ _
  have hlow : ∀ p : ℕ → Fin n, ∀ k ≤ l, Function.update p (l + 1) i k = p k :=
    fun p k hk => Function.update_of_ne (by omega) _ _
  obtain ⟨hne | ⟨p, hp, -⟩, htg⟩ := ht i g hg
  · obtain ⟨p, hp⟩ := exists_content (htg.mono fun _ hp => hp.1) hne
    have hfound := hc (Function.update p (l + 1) i)
    rw [content_child (h := h) (by rw [hcut]; exact hg), content_path (h := h) (hlow p)] at hfound
    cases hg' : next (h' f' i) with
    | none =>
      -- what ends at height `l + 1` is not what the path finds below
      rw [content_end (h := h') (by rw [hcut]; exact hg')] at hfound
      obtain ⟨e, he⟩ := Option.ne_none_iff_exists'.1 hp
      have hle := content_le he
      rw [he] at hfound
      split at hfound
      · cases hfound
      · cases hfound
        omega
    | some g' =>
      refine ⟨g', rfl, fun p => ?_⟩
      have hp := hc (Function.update p (l + 1) i)
      rwa [content_child (by rw [hcut]; exact hg'), content_child (by rw [hcut]; exact hg), content_path (hlow p),
        content_path (hlow p)] at hp
  · exact hp.elim

theorem card_nodes_eq {f' : ℕ} (ht : Tight next h l (fun _ => False) f) (ht' : Tight next h' l (fun _ => False) f')
    (hc : ∀ p, content next h' p l f' = content next h p l f) :
    (nodes next h' l f').card = (nodes next h l f).card := by
  induction l generalizing f f' with
  | zero => rw [nodes_zero, nodes_zero, Multiset.card_singleton, Multiset.card_singleton]
  | succ l ih =>
    rw [nodes_succ, nodes_succ, Multiset.card_add, Multiset.card_add, Multiset.card_singleton,
      Multiset.card_singleton, Multiset.card_sum, Multiset.card_sum]
    congr 1
    apply sum_congr rfl
    intro i _
    cases hg : next (h f i) with
    | some g =>
      obtain ⟨g', hg', hc'⟩ := child_of_content ht hc hg
      rw [hg']
      exact ih ((ht i g hg).2.mono fun _ hp => hp.1) ((ht' i g' hg').2.mono fun _ hp => hp.1) hc'
    | none =>
      cases hg' : next (h' f' i) with
      | none => rfl
      | some g' =>
        obtain ⟨g, hg'', -⟩ := child_of_content ht' (fun p => (hc p).symm) hg'
        rw [hg''] at hg
        cases hg

end

end Zonix.Lib.Radix
