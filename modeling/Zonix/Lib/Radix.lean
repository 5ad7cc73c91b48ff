import Mathlib

/-!
# Radix trees in memory

A heap of nodes with `n` words each. `next` says which words point to a node one level down; a tree of height `l` has
its leaf words in the nodes at height 0. A path gives the index to follow at each height.
-/

namespace Zonix.Lib.Radix

open Finset

abbrev Heap (n : ℕ) (W : Type) := ℕ → Fin n → W

variable {n : ℕ} {W : Type}

def write (h : Heap n W) (s : ℕ × Fin n) (w : W) : Heap n W := fun f i => if f = s.1 ∧ i = s.2 then w else h f i

def fill (h : Heap n W) (g : ℕ) (ws : Fin n → W) : Heap n W := fun f => if f = g then ws else h f

theorem write_self (h : Heap n W) (s : ℕ × Fin n) (w : W) : write h s w s.1 s.2 = w := by simp [write]

theorem write_node (h : Heap n W) (s : ℕ × Fin n) (w : W) {f : ℕ} (hf : f ≠ s.1) : write h s w f = h f := by
  funext i
  simp [write, hf]

theorem write_index (h : Heap n W) (f : ℕ) (j : Fin n) (w : W) {i : Fin n} (hi : i ≠ j) :
    write h (f, j) w f i = h f i := by
  simp [write, hi]

theorem fill_self (h : Heap n W) (g : ℕ) (ws : Fin n → W) : fill h g ws g = ws := by simp [fill]

theorem fill_node (h : Heap n W) (g : ℕ) (ws : Fin n → W) {f : ℕ} (hf : f ≠ g) : fill h g ws f = h f := by
  simp [fill, hf]

section

variable (next : W → Option ℕ) (h : Heap n W)

def weight {M : Type} [AddCommMonoid M] (here : ℕ → M) (leaf : W → M) : ℕ → ℕ → M
  | 0, f => here f + ∑ i, leaf (h f i)
  | l + 1, f => here f + ∑ i, (next (h f i)).elim 0 fun g => weight here leaf l g

def nodes (l f : ℕ) : Multiset ℕ := weight next h (fun f => {f}) (fun _ => 0) l f

/-- The place of the leaf word at the end of a path. -/
def slot (p : ℕ → Fin n) : ℕ → ℕ → Option (ℕ × Fin n)
  | 0, f => some (f, p 0)
  | l + 1, f => (next (h f (p (l + 1)))).elim none fun g => slot p l g

end

variable {next : W → Option ℕ} {h h' : Heap n W} {l f : ℕ} {p q : ℕ → Fin n}

theorem slot_path (hpq : ∀ k ≤ l, p k = q k) : slot next h p l f = slot next h q l f := by
  induction l generalizing f with
  | zero => rw [slot, slot, hpq 0 (le_refl 0)]
  | succ l ih =>
    rw [slot, slot, hpq (l + 1) (le_refl _)]
    cases next (h f (q (l + 1))) with
    | none => rfl
    | some g => exact ih fun k hk => hpq k (by omega)

theorem weight_zero {M : Type} [AddCommMonoid M] {here : ℕ → M} {leaf : W → M} :
    weight next h here leaf 0 f = here f + ∑ i, leaf (h f i) := rfl

theorem weight_succ {M : Type} [AddCommMonoid M] {here : ℕ → M} {leaf : W → M} :
    weight next h here leaf (l + 1) f = here f + ∑ i, (next (h f i)).elim 0 fun g => weight next h here leaf l g := rfl

theorem mem_weight_leaf {leaf : W → Multiset ℕ} {x : ℕ} (hx : x ∈ weight next h (fun _ => 0) leaf l f) :
    ∃ q s, slot next h q l f = some s ∧ x ∈ leaf (h s.1 s.2) := by
  induction l generalizing f with
  | zero =>
    rw [weight_zero, zero_add, Multiset.mem_sum] at hx
    obtain ⟨i, -, hi⟩ := hx
    exact ⟨fun _ => i, (f, i), rfl, hi⟩
  | succ l ih =>
    rw [weight_succ, zero_add, Multiset.mem_sum] at hx
    obtain ⟨i, -, hi⟩ := hx
    cases hg : next (h f i) with
    | none =>
      rw [hg] at hi
      exact absurd hi (Multiset.notMem_zero x)
    | some g =>
      rw [hg] at hi
      obtain ⟨q, s, hs, hm⟩ := ih hi
      refine ⟨fun k => if k = l + 1 then i else q k, s, ?_, hm⟩
      have hq : slot next h (fun k => if k = l + 1 then i else q k) l g = slot next h q l g := by
        apply slot_path
        intro k hk
        exact if_neg (by omega)
      simp only [slot, if_true, hg, Option.elim_some, hq, hs]

theorem nodes_zero : nodes next h 0 f = {f} := by simp [nodes, weight]

theorem nodes_succ : nodes next h (l + 1) f = {f} + ∑ i, (next (h f i)).elim 0 fun g => nodes next h l g := rfl

theorem nodes_add_leaves {leaf : W → Multiset ℕ} :
    nodes next h l f + weight next h (fun _ => 0) leaf l f = weight next h (fun f => {f}) leaf l f := by
  induction l generalizing f with
  | zero => rw [nodes_zero, weight_zero, weight_zero, zero_add]
  | succ l ih =>
    have hsum : (∑ i, (next (h f i)).elim 0 fun g => weight next h (fun f => {f}) leaf l g) =
        ∑ i, (((next (h f i)).elim 0 fun g => nodes next h l g) +
          (next (h f i)).elim 0 fun g => weight next h (fun _ => 0) leaf l g) := by
      apply sum_congr rfl
      intro i _
      cases next (h f i) with
      | none => exact (add_zero 0).symm
      | some g => exact ih.symm
    rw [nodes_succ, weight_succ, weight_succ, hsum, sum_add_distrib, zero_add, add_assoc]

theorem self_mem_nodes : f ∈ nodes next h l f := by
  cases l with
  | zero => simp [nodes_zero]
  | succ l => simp [nodes_succ]

theorem mem_nodes_child {i : Fin n} {g k : ℕ} (hg : next (h f i) = some g) (hk : k ∈ nodes next h l g) :
    k ∈ nodes next h (l + 1) f := by
  rw [nodes_succ, Multiset.mem_add, Multiset.mem_sum]
  exact Or.inr ⟨i, mem_univ i, by rw [hg]; exact hk⟩

def below (next : W → Option ℕ) (h : Heap n W) (l f : ℕ) (i : Fin n) : Multiset ℕ :=
  (next (h f i)).elim 0 fun g => nodes next h l g

theorem below_eq {i : Fin n} {g : ℕ} (hg : next (h f i) = some g) : below next h l f i = nodes next h l g := by
  rw [below, hg]; rfl

theorem nodup_succ (hd : (nodes next h (l + 1) f).Nodup) :
    f ∉ ∑ i, below next h l f i ∧ (∑ i, below next h l f i).Nodup := by
  rw [nodes_succ, Multiset.singleton_add, Multiset.nodup_cons] at hd
  exact hd

theorem nodup_child {i : Fin n} {g : ℕ} (hd : (nodes next h (l + 1) f).Nodup) (hg : next (h f i) = some g) :
    (nodes next h l g).Nodup ∧ f ∉ nodes next h l g := by
  obtain ⟨hf, hs⟩ := nodup_succ hd
  rw [← add_sum_erase univ _ (mem_univ i), below_eq hg] at hf hs
  rw [Multiset.mem_add, not_or] at hf
  exact ⟨(Multiset.nodup_add.1 hs).1, hf.1⟩

theorem disjoint_children {i j : Fin n} {g g' k : ℕ} (hd : (nodes next h (l + 1) f).Nodup) (hij : i ≠ j)
    (hg : next (h f i) = some g) (hg' : next (h f j) = some g') (hk : k ∈ nodes next h l g) :
    k ∉ nodes next h l g' := by
  obtain ⟨-, hs⟩ := nodup_succ hd
  rw [← add_sum_erase univ _ (mem_univ i), below_eq hg] at hs
  have hdis := (Multiset.nodup_add.1 hs).2.2
  intro hk'
  apply Multiset.disjoint_left.1 hdis hk
  rw [Multiset.mem_sum]
  exact ⟨j, by simp [Ne.symm hij], by rw [below_eq hg']; exact hk'⟩

/-! ## What a tree depends on -/

theorem weight_congr {M : Type} [AddCommMonoid M] {here : ℕ → M} {leaf : W → M}
    (hh : ∀ g ∈ nodes next h l f, h' g = h g) : weight next h' here leaf l f = weight next h here leaf l f := by
  induction l generalizing f with
  | zero => simp only [weight, hh f self_mem_nodes]
  | succ l ih =>
    simp only [weight, hh f self_mem_nodes]
    congr 1
    apply sum_congr rfl
    intro i _
    cases hg : next (h f i) with
    | none => rfl
    | some g => exact ih fun k hk => hh k (mem_nodes_child hg hk)

theorem nodes_congr (hh : ∀ g ∈ nodes next h l f, h' g = h g) : nodes next h' l f = nodes next h l f :=
  weight_congr hh

theorem slot_congr (hh : ∀ g ∈ nodes next h l f, h' g = h g) : slot next h' p l f = slot next h p l f := by
  induction l generalizing f with
  | zero => rfl
  | succ l ih =>
    simp only [slot, hh f self_mem_nodes]
    cases hg : next (h f (p (l + 1))) with
    | none => rfl
    | some g => exact ih fun k hk => hh k (mem_nodes_child hg hk)

/-! ## Changing one child -/

theorem sum_change {ι M : Type} [Fintype ι] [DecidableEq ι] [AddCommMonoid M] {u v : ι → M} {j : ι} {x y : M}
    (ho : ∀ i, i ≠ j → v i = u i) (hj : v j + x = u j + y) : (∑ i, v i) + x = (∑ i, u i) + y := by
  rw [← add_sum_erase univ v (mem_univ j), ← add_sum_erase univ u (mem_univ j),
    sum_congr rfl fun i hi => ho i (ne_of_mem_erase hi)]
  calc v j + ∑ i ∈ univ.erase j, u i + x = v j + x + ∑ i ∈ univ.erase j, u i := by abel
    _ = u j + y + ∑ i ∈ univ.erase j, u i := by rw [hj]
    _ = u j + ∑ i ∈ univ.erase j, u i + y := by abel

/-- A change below index `j` of `f` changes the weight of the tree by the change of the weight below `j`. -/
theorem weight_child {M : Type} [AddCommMonoid M] {here : ℕ → M} {leaf : W → M} {j : Fin n} {x y : M}
    (hw : ∀ i, i ≠ j → h' f i = h f i)
    (hn : ∀ i, i ≠ j → ∀ g, next (h f i) = some g → ∀ k ∈ nodes next h l g, h' k = h k)
    (hj : ((next (h' f j)).elim 0 fun g => weight next h' here leaf l g) + x =
      ((next (h f j)).elim 0 fun g => weight next h here leaf l g) + y) :
    weight next h' here leaf (l + 1) f + x = weight next h here leaf (l + 1) f + y := by
  simp only [weight, add_assoc]
  congr 1
  apply sum_change _ hj
  intro i hi
  rw [hw i hi]
  cases hg : next (h f i) with
  | none => rfl
  | some g => exact weight_congr (hn i hi g hg)

theorem mem_nodes_of_slot {s : ℕ × Fin n} (hs : slot next h p l f = some s) : s.1 ∈ nodes next h l f := by
  induction l generalizing f with
  | zero =>
    cases hs
    simp [nodes_zero]
  | succ l ih =>
    cases hg : next (h f (p (l + 1))) with
    | none => simp [slot, hg] at hs
    | some g =>
      simp only [slot, hg, Option.elim_some] at hs
      exact mem_nodes_child hg (ih hs)

theorem slot_inj {s : ℕ × Fin n} (hd : (nodes next h l f).Nodup) (hp : slot next h p l f = some s)
    (hq : slot next h q l f = some s) : ∀ k ≤ l, p k = q k := by
  induction l generalizing f with
  | zero =>
    intro k hk
    obtain rfl : k = 0 := by omega
    simp only [slot, Option.some.injEq] at hp hq
    rw [← hq, Prod.mk.injEq] at hp
    exact hp.2
  | succ l ih =>
    cases hg : next (h f (p (l + 1))) with
    | none => simp [slot, hg] at hp
    | some g =>
      cases hg' : next (h f (q (l + 1))) with
      | none => simp [slot, hg'] at hq
      | some g' =>
        simp only [slot, hg, hg', Option.elim_some] at hp hq
        have hpq : p (l + 1) = q (l + 1) := by
          by_contra hne
          exact disjoint_children hd hne hg hg' (mem_nodes_of_slot hp) (mem_nodes_of_slot hq)
        have hgg : g = g' := by
          rw [hpq, hg'] at hg
          exact (Option.some.inj hg).symm
        subst hgg
        intro k hk
        obtain hk | rfl : k ≤ l ∨ k = l + 1 := by omega
        · exact ih (nodup_child hd hg).1 hp hq k hk
        · exact hpq

/-! ## Writing a leaf word -/

theorem write_frame {s : ℕ × Fin n} {w : W} {j : Fin n} {g : ℕ} (hd : (nodes next h (l + 1) f).Nodup)
    (hg : next (h f j) = some g) (hs : s.1 ∈ nodes next h l g) :
    write h s w f = h f ∧
      ∀ i, i ≠ j → ∀ g', next (h f i) = some g' → ∀ k ∈ nodes next h l g', write h s w k = h k := by
  constructor
  · apply write_node
    rintro rfl
    exact (nodup_child hd hg).2 hs
  · intro i hi g' hg' k hk
    apply write_node
    rintro rfl
    exact disjoint_children hd hi hg' hg hk hs

theorem weight_write {M : Type} [AddCommMonoid M] {here : ℕ → M} {leaf : W → M} {s : ℕ × Fin n} {w : W}
    (hd : (nodes next h l f).Nodup) (hs : slot next h p l f = some s) :
    weight next (write h s w) here leaf l f + leaf (h s.1 s.2) = weight next h here leaf l f + leaf w := by
  induction l generalizing f with
  | zero =>
    cases hs
    simp only [weight, add_assoc]
    congr 1
    apply sum_change (j := p 0)
    · intro i hi
      rw [write_index _ _ _ _ hi]
    · rw [write_self h (f, p 0) w, add_comm]
  | succ l ih =>
    cases hg : next (h f (p (l + 1))) with
    | none => simp [slot, hg] at hs
    | some g =>
      simp only [slot, hg, Option.elim_some] at hs
      obtain ⟨hf, hn⟩ := write_frame (w := w) hd hg (mem_nodes_of_slot hs)
      apply weight_child (j := p (l + 1)) (fun i _ => by rw [hf]) hn
      rw [hf, hg]
      exact ih (nodup_child hd hg).1 hs

theorem nodes_write {s : ℕ × Fin n} {w : W} (hd : (nodes next h l f).Nodup) (hs : slot next h p l f = some s) :
    nodes next (write h s w) l f = nodes next h l f := by
  have hw : nodes next (write h s w) l f + 0 = nodes next h l f + 0 := weight_write hd hs
  simpa using hw

theorem slot_write {s : ℕ × Fin n} {w : W} (hd : (nodes next h l f).Nodup) (hs : slot next h p l f = some s) :
    slot next (write h s w) q l f = slot next h q l f := by
  induction l generalizing f with
  | zero => rfl
  | succ l ih =>
    cases hg : next (h f (p (l + 1))) with
    | none => simp [slot, hg] at hs
    | some g =>
      simp only [slot, hg, Option.elim_some] at hs
      obtain ⟨hf, hn⟩ := write_frame (w := w) hd hg (mem_nodes_of_slot hs)
      simp only [slot, hf]
      cases hg' : next (h f (q (l + 1))) with
      | none => rfl
      | some g' =>
        simp only [Option.elim_some]
        by_cases hpq : q (l + 1) = p (l + 1)
        · have hgg : g' = g := by
            rw [hpq, hg] at hg'
            exact (Option.some.inj hg').symm
          rw [hgg]
          exact ih (nodup_child hd hg).1 hs
        · exact slot_congr (hn _ hpq g' hg')

theorem weight_bare {M : Type} [AddCommMonoid M] {here : ℕ → M} {leaf : W → M} (hb : ∀ i, next (h f i) = none)
    (hl : ∀ i, leaf (h f i) = 0) : weight next h here leaf l f = here f := by
  cases l with
  | zero => simp [weight, hl]
  | succ l => simp [weight, hb]

theorem nodes_bare (hb : ∀ i, next (h f i) = none) : nodes next h l f = {f} :=
  weight_bare hb fun _ => rfl

/-! ## Growing a tree -/

/-- The heap `h'` has the tree of `h` with the nodes `new` added to it: leaf words that were there keep their places
and values, and the leaf words that were not there satisfy `P`. -/
structure Grows (next : W → Option ℕ) (P : W → Prop) (h h' : Heap n W) (l f : ℕ) (new : Multiset ℕ) : Prop where
  frame : ∀ g, g ∉ nodes next h l f → g ∉ new → h' g = h g
  weight_eq : ∀ {M : Type} [AddCommMonoid M] (here : ℕ → M) (leaf : W → M), (∀ w, P w → leaf w = 0) →
    weight next h' here leaf l f = weight next h here leaf l f + (new.map here).sum
  slot_keep : ∀ q s, slot next h q l f = some s → slot next h' q l f = some s ∧ h' s.1 s.2 = h s.1 s.2
  slot_new : ∀ q s, slot next h q l f = none → slot next h' q l f = some s → P (h' s.1 s.2)

variable {P : W → Prop} {new : Multiset ℕ}

theorem Grows.nodes_eq (hg : Grows next P h h' l f new) : nodes next h' l f = nodes next h l f + new := by
  have hw := hg.weight_eq (fun f => ({f} : Multiset ℕ)) (fun _ => 0) fun _ _ => rfl
  rw [Multiset.sum_map_singleton] at hw
  exact hw

theorem Grows.refl : Grows next P h h l f 0 where
  frame _ _ _ := rfl
  weight_eq _ _ _ := by simp
  slot_keep _ _ hs := ⟨hs, rfl⟩
  slot_new _ _ hn hs := by rw [hn] at hs; cases hs

theorem Grows.trans {h'' : Heap n W} {new' : Multiset ℕ} (h₁ : Grows next P h h' l f new)
    (h₂ : Grows next P h' h'' l f new') : Grows next P h h'' l f (new + new') where
  frame g hg hnew := by
    rw [Multiset.mem_add, not_or] at hnew
    have hg' : g ∉ nodes next h' l f := by
      rw [h₁.nodes_eq, Multiset.mem_add, not_or]
      exact ⟨hg, hnew.1⟩
    rw [h₂.frame g hg' hnew.2, h₁.frame g hg hnew.1]
  weight_eq here leaf hl := by
    rw [h₂.weight_eq here leaf hl, h₁.weight_eq here leaf hl, Multiset.map_add, Multiset.sum_add, add_assoc]
  slot_keep q s hs := by
    obtain ⟨hs', hw⟩ := h₁.slot_keep q s hs
    obtain ⟨hs'', hw'⟩ := h₂.slot_keep q s hs'
    exact ⟨hs'', hw'.trans hw⟩
  slot_new q s hn hs := by
    cases hs' : slot next h' q l f with
    | none => exact h₂.slot_new q s hs' hs
    | some t =>
      obtain ⟨ht, hw⟩ := h₂.slot_keep q t hs'
      rw [hs] at ht
      obtain rfl := Option.some.inj ht
      rw [hw]
      exact h₁.slot_new q s hn hs'

theorem Grows.outside {j : Fin n} {g : ℕ} (hg : Grows next P h h' l g new) (hd : (nodes next h (l + 1) f).Nodup)
    (hj : next (h f j) = some g) (hnew : ∀ k ∈ nodes next h (l + 1) f, k ∉ new) :
    h' f = h f ∧ ∀ i, i ≠ j → ∀ g', next (h f i) = some g' → ∀ k ∈ nodes next h l g', h' k = h k := by
  constructor
  · exact hg.frame f (nodup_child hd hj).2 (hnew f self_mem_nodes)
  · intro i hi g' hg' k hk
    exact hg.frame k (disjoint_children hd hi hg' hj hk) (hnew k (mem_nodes_child hg' hk))

theorem Grows.lift {j : Fin n} {g : ℕ} (hg : Grows next P h h' l g new) (hd : (nodes next h (l + 1) f).Nodup)
    (hj : next (h f j) = some g) (hnew : ∀ k ∈ nodes next h (l + 1) f, k ∉ new) :
    Grows next P h h' (l + 1) f new := by
  obtain ⟨hf, hn⟩ := hg.outside hd hj hnew
  refine ⟨?_, ?_, ?_, ?_⟩
  · intro k hk hk'
    exact hg.frame k (fun hm => hk (mem_nodes_child hj hm)) hk'
  · intro M _ here leaf hl
    have hw : weight next h' here leaf (l + 1) f + 0 =
        weight next h here leaf (l + 1) f + (new.map here).sum := by
      apply weight_child (j := j) (fun i _ => by rw [hf]) hn
      rw [hf, hj, add_zero]
      exact hg.weight_eq here leaf hl
    simpa using hw
  · intro q s hs
    cases hq : next (h f (q (l + 1))) with
    | none => simp [slot, hq] at hs
    | some g' =>
      simp only [slot, hq, hf, Option.elim_some] at hs ⊢
      by_cases hqj : q (l + 1) = j
      · have hgg : g' = g := by
          rw [hqj, hj] at hq
          exact (Option.some.inj hq).symm
        subst hgg
        exact hg.slot_keep q s hs
      · have hk := hn _ hqj g' hq
        exact ⟨by rw [slot_congr hk]; exact hs, by rw [hk s.1 (mem_nodes_of_slot hs)]⟩
  · intro q s hs hs'
    cases hq : next (h f (q (l + 1))) with
    | none => simp [slot, hf, hq] at hs'
    | some g' =>
      simp only [slot, hq, hf, Option.elim_some] at hs hs'
      by_cases hqj : q (l + 1) = j
      · have hgg : g' = g := by
          rw [hqj, hj] at hq
          exact (Option.some.inj hq).symm
        subst hgg
        exact hg.slot_new q s hs hs'
      · rw [slot_congr (hn _ hqj g' hq), hs] at hs'
        cases hs'

/-- A fresh node `g` linked at index `j` of `f`, where there was no child. -/
def link (h : Heap n W) (f : ℕ) (j : Fin n) (w : W) (g : ℕ) (ws : Fin n → W) : Heap n W :=
  write (fill h g ws) (f, j) w

theorem link_other {j : Fin n} {w : W} {g k : ℕ} {ws : Fin n → W} (hf : k ≠ f) (hg : k ≠ g) :
    link h f j w g ws k = h k := by
  rw [link, write_node _ _ _ hf, fill_node _ _ _ hg]

theorem link_node {j : Fin n} {w : W} {g : ℕ} {ws : Fin n → W} (hg : g ≠ f) : link h f j w g ws g = ws := by
  rw [link, write_node _ _ _ hg, fill_self]

theorem link_index {i j : Fin n} {w : W} {g : ℕ} {ws : Fin n → W} (hg : g ≠ f) (hi : i ≠ j) :
    link h f j w g ws f i = h f i := by
  rw [link, write_index _ _ _ _ hi, fill_node _ _ _ (Ne.symm hg)]

theorem link_self {j : Fin n} {w : W} {g : ℕ} {ws : Fin n → W} : link h f j w g ws f j = w :=
  write_self _ (f, j) w

theorem link_frame {g : ℕ} (j : Fin n) (w : W) (ws : Fin n → W) (hd : (nodes next h (l + 1) f).Nodup)
    (hg : g ∉ nodes next h (l + 1) f) :
    (∀ i, i ≠ j → link h f j w g ws f i = h f i) ∧
      ∀ i, i ≠ j → ∀ g', next (h f i) = some g' → ∀ k ∈ nodes next h l g', link h f j w g ws k = h k := by
  have hgf : g ≠ f := by
    rintro rfl
    exact hg self_mem_nodes
  constructor
  · intro i hi
    exact link_index hgf hi
  · intro i _ g' hg' k hk
    apply link_other
    · rintro rfl
      exact (nodup_child hd hg').2 hk
    · rintro rfl
      exact hg (mem_nodes_child hg' hk)

theorem Grows.link {j : Fin n} {w : W} {g : ℕ} {ws : Fin n → W} (hd : (nodes next h (l + 1) f).Nodup)
    (hg : g ∉ nodes next h (l + 1) f) (hj : next (h f j) = none) (hw : next w = some g)
    (hws : 0 < l → ∀ i, next (ws i) = none) (hP : l = 0 → ∀ i, P (ws i)) :
    Grows next P h (link h f j w g ws) (l + 1) f {g} := by
  have hgf : g ≠ f := by
    rintro rfl
    exact hg self_mem_nodes
  obtain ⟨hf, hn⟩ := link_frame j w ws hd hg
  have hself : next (Radix.link h f j w g ws f j) = some g := by rw [link_self, hw]
  refine ⟨?_, ?_, ?_, ?_⟩
  · intro k hk hk'
    rw [Multiset.mem_singleton] at hk'
    exact link_other (fun hkf => hk (hkf ▸ self_mem_nodes)) hk'
  · intro M _ here leaf hl
    have hbare : weight next (Radix.link h f j w g ws) here leaf l g = here g := by
      cases l with
      | zero =>
        rw [weight, link_node hgf, sum_eq_zero (fun i _ => hl _ (hP rfl i)), add_zero]
      | succ l =>
        rw [weight, sum_eq_zero (fun i _ => by rw [link_node hgf, hws (by omega)]; rfl), add_zero]
    have hs : weight next (Radix.link h f j w g ws) here leaf (l + 1) f + 0 =
        weight next h here leaf (l + 1) f + here g := by
      apply weight_child (j := j) hf hn
      rw [hself, hj, add_zero, Option.elim_none, zero_add]
      exact hbare
    simpa using hs
  · intro q s hs
    have hqj : q (l + 1) ≠ j := by
      intro hqj
      simp [slot, hqj, hj] at hs
    cases hq : next (h f (q (l + 1))) with
    | none => simp [slot, hq] at hs
    | some g' =>
      simp only [slot, hf _ hqj, hq, Option.elim_some] at hs ⊢
      have hk := hn _ hqj g' hq
      exact ⟨by rw [slot_congr hk]; exact hs, by rw [hk s.1 (mem_nodes_of_slot hs)]⟩
  · intro q s hs hs'
    by_cases hqj : q (l + 1) = j
    · simp only [slot, hqj, hself, Option.elim_some] at hs'
      cases l with
      | zero =>
        cases hs'
        rw [link_node hgf]
        exact hP rfl _
      | succ l =>
        simp only [slot, link_node hgf, hws (by omega), Option.elim_none] at hs'
        cases hs'
    · cases hq : next (h f (q (l + 1))) with
      | none => simp [slot, hf _ hqj, hq] at hs'
      | some g' =>
        simp only [slot, hf _ hqj, hq, Option.elim_some] at hs hs'
        rw [slot_congr (hn _ hqj g' hq), hs] at hs'
        cases hs'

/-! ## What holds of every word above the leaves -/

/-- Every word of a node at height `k > 0` satisfies `Q k`. -/
def Inner (next : W → Option ℕ) (Q : ℕ → W → Prop) (h : Heap n W) : ℕ → ℕ → Prop
  | 0, _ => True
  | l + 1, f => ∀ i, Q (l + 1) (h f i) ∧ ∀ g, next (h f i) = some g → Inner next Q h l g

variable {Q : ℕ → W → Prop}

theorem Inner.word {i : Fin n} (hi : Inner next Q h (l + 1) f) : Q (l + 1) (h f i) := (hi i).1

theorem Inner.child {i : Fin n} {g : ℕ} (hi : Inner next Q h (l + 1) f) (hg : next (h f i) = some g) :
    Inner next Q h l g := (hi i).2 g hg

theorem Inner.congr (hi : Inner next Q h l f) (hh : ∀ g ∈ nodes next h l f, h' g = h g) : Inner next Q h' l f := by
  induction l generalizing f with
  | zero => trivial
  | succ l ih =>
    intro i
    rw [hh f self_mem_nodes]
    exact ⟨hi.word, fun g hg => ih (hi.child hg) fun k hk => hh k (mem_nodes_child hg hk)⟩

theorem Inner.change {j : Fin n} (hi : Inner next Q h (l + 1) f) (hw : ∀ i, i ≠ j → h' f i = h f i)
    (hn : ∀ i, i ≠ j → ∀ g, next (h f i) = some g → ∀ k ∈ nodes next h l g, h' k = h k)
    (hj : Q (l + 1) (h' f j) ∧ ∀ g, next (h' f j) = some g → Inner next Q h' l g) : Inner next Q h' (l + 1) f := by
  intro i
  by_cases hij : i = j
  · rw [hij]
    exact hj
  · rw [hw i hij]
    exact ⟨hi.word, fun g hg => (hi.child hg).congr (hn i hij g hg)⟩

theorem Inner.write {s : ℕ × Fin n} {w : W} (hi : Inner next Q h l f) (hd : (nodes next h l f).Nodup)
    (hs : slot next h p l f = some s) : Inner next Q (write h s w) l f := by
  induction l generalizing f with
  | zero => trivial
  | succ l ih =>
    cases hg : next (h f (p (l + 1))) with
    | none => simp [slot, hg] at hs
    | some g =>
      simp only [slot, hg, Option.elim_some] at hs
      obtain ⟨hf, hn⟩ := write_frame (w := w) hd hg (mem_nodes_of_slot hs)
      apply hi.change (j := p (l + 1)) (fun i _ => by rw [hf]) hn
      rw [hf, hg]
      refine ⟨hi.word, ?_⟩
      rintro _ ⟨⟩
      exact ih (hi.child hg) (nodup_child hd hg).1 hs

theorem inner_bare (hb : 0 < l → ∀ i, next (h f i) = none) (hq : 0 < l → ∀ i, Q l (h f i)) : Inner next Q h l f := by
  cases l with
  | zero => trivial
  | succ l =>
    intro i
    refine ⟨hq (by omega) i, ?_⟩
    intro g hg
    rw [hb (by omega) i] at hg
    cases hg

-- Membership in a sum over `Fin n` would otherwise be computed whenever such a fact is stated for a concrete `n`.
attribute [irreducible] weight nodes

end Zonix.Lib.Radix
