import Mathlib.Data.List.Nodup
import Mathlib.Logic.Relation

/-! # Pointer paths and reachability

`Path next a l b` follows a pointer function from `a` through the nodes `l` and arrives at the
pointer `b`.  The second part says how the nodes reachable from a root change with the edges. -/

namespace Pointer

variable {α : Type}

def Path (next : α → α) : α → List α → α → Prop
  | a, [], b => a = b
  | a, x :: l, b => a = x ∧ Path next (next x) l b

variable {next next' : α → α} {a b c x : α} {l l₁ l₂ : List α}

theorem path_append : Path next a (l₁ ++ l₂) b ↔ ∃ m, Path next a l₁ m ∧ Path next m l₂ b := by
  induction l₁ generalizing a with
  | nil => simp [Path]
  | cons y l₁ ih => simp only [List.cons_append, Path, ih, and_assoc, exists_and_left]

theorem path_snoc : Path next a (l ++ [x]) b ↔ Path next a l x ∧ next x = b := by
  rw [path_append]
  constructor
  · rintro ⟨m, hm, rfl, hx⟩
    exact ⟨hm, hx⟩
  · rintro ⟨hl, hx⟩
    exact ⟨x, hl, rfl, hx⟩

theorem Path.congr (h : Path next a l b) (hn : ∀ x ∈ l, next' x = next x) : Path next' a l b := by
  induction l generalizing a with
  | nil => exact h
  | cons y l ih =>
    obtain ⟨ha, hl⟩ := h
    refine ⟨ha, ?_⟩
    rw [hn y (List.mem_cons_self ..)]
    exact ih hl fun z hz => hn z (List.mem_cons_of_mem _ hz)

theorem Path.unique {P : α → Prop} (h₁ : Path next a l₁ b) (h₂ : Path next a l₂ c)
    (hl₁ : ∀ x ∈ l₁, P x) (hl₂ : ∀ x ∈ l₂, P x) (hb : ¬P b) (hc : ¬P c) : l₁ = l₂ ∧ b = c := by
  induction l₁ generalizing a l₂ with
  | nil =>
    cases l₂ with
    | nil => exact ⟨rfl, h₁.symm.trans h₂⟩
    | cons y l₂ =>
      have hy := hl₂ y (List.mem_cons_self ..)
      rw [← h₂.1, show a = b from h₁] at hy
      exact absurd hy hb
  | cons x l₁ ih =>
    cases l₂ with
    | nil =>
      have hx := hl₁ x (List.mem_cons_self ..)
      rw [← h₁.1, show a = c from h₂] at hx
      exact absurd hx hc
    | cons y l₂ =>
      obtain ⟨rfl, h₁⟩ := h₁
      obtain ⟨rfl, h₂⟩ := h₂
      obtain ⟨hl, he⟩ := ih h₁ h₂ (fun z hz => hl₁ z (List.mem_cons_of_mem _ hz))
        (fun z hz => hl₂ z (List.mem_cons_of_mem _ hz))
      exact ⟨by rw [hl], he⟩

theorem Path.suffix (h : Path next a (l₁ ++ x :: l₂) b) : Path next x (x :: l₂) b := by
  obtain ⟨m, -, hm⟩ := path_append.mp h
  exact ⟨rfl, hm.2⟩

theorem Path.nodup {P : α → Prop} (h : Path next a l b) (hl : ∀ x ∈ l, P x) (hb : ¬P b) : l.Nodup := by
  induction l generalizing a with
  | nil => exact List.nodup_nil
  | cons x l ih =>
    refine List.nodup_cons.mpr ⟨fun hx => ?_, ih h.2 fun z hz => hl z (List.mem_cons_of_mem _ hz)⟩
    -- a second visit of `x` would end the path at two distances from it
    obtain ⟨m₁, m₂, rfl⟩ := List.append_of_mem hx
    have hfirst : Path next x (x :: (m₁ ++ x :: m₂)) b := ⟨rfl, h.2⟩
    have hsecond : Path next x (x :: m₂) b := h.2.suffix
    have hlen := (hfirst.unique hsecond hl (fun z hz => hl z (by simp at hz ⊢; tauto)) hb hb).1
    have hbad := congrArg List.length hlen
    simp only [List.length_cons, List.length_append] at hbad
    omega

/-! ## Reachability -/

open Relation

variable {R R' : α → α → Prop} {root parent leaf : α}

theorem reach_congr (h : ∀ d, ReflTransGen R root d → ∀ e, R' d e ↔ R d e) (d : α) :
    ReflTransGen R' root d ↔ ReflTransGen R root d := by
  constructor
  · intro hd
    induction hd with
    | refl => exact ReflTransGen.refl
    | tail _ hstep ih => exact ih.tail ((h _ ih _).mp hstep)
  · intro hd
    induction hd with
    | refl => exact ReflTransGen.refl
    | tail hprev hstep ih => exact ih.tail ((h _ hprev _).mpr hstep)

theorem reach_add_leaf (hp : ReflTransGen R root parent) (hleaf : ∀ e, ¬R' leaf e)
    (h : ∀ d, ReflTransGen R root d → ∀ e, R' d e ↔ R d e ∨ (d = parent ∧ e = leaf)) (d : α) :
    ReflTransGen R' root d ↔ ReflTransGen R root d ∨ d = leaf := by
  have hold : ∀ d, ReflTransGen R root d → ReflTransGen R' root d := by
    intro d hd
    induction hd with
    | refl => exact ReflTransGen.refl
    | tail hprev hstep ih => exact ih.tail ((h _ hprev _).mpr (Or.inl hstep))
  constructor
  · intro hd
    induction hd with
    | refl => exact Or.inl ReflTransGen.refl
    | tail _ hstep ih =>
      rcases ih with ih | rfl
      · rcases (h _ ih _).mp hstep with hstep | ⟨-, rfl⟩
        · exact Or.inl (ih.tail hstep)
        · exact Or.inr rfl
      · exact absurd hstep (hleaf _)
  · rintro (hd | rfl)
    · exact hold d hd
    · exact (hold _ hp).tail ((h _ hp _).mpr (Or.inr ⟨rfl, rfl⟩))

theorem reach_remove_leaf (hroot : root ≠ leaf) (hleaf : ∀ e, ¬R leaf e)
    (h : ∀ d, ReflTransGen R root d → d ≠ leaf → ∀ e, R' d e ↔ R d e ∧ e ≠ leaf) (d : α) :
    ReflTransGen R' root d ↔ ReflTransGen R root d ∧ d ≠ leaf := by
  constructor
  · intro hd
    induction hd with
    | refl => exact ⟨ReflTransGen.refl, hroot⟩
    | tail _ hstep ih =>
      obtain ⟨hstep, hne⟩ := (h _ ih.1 ih.2 _).mp hstep
      exact ⟨ih.1.tail hstep, hne⟩
  · rintro ⟨hd, hne⟩
    induction hd with
    | refl => exact ReflTransGen.refl
    | @tail p e hprev hstep ih =>
      have hp : p ≠ leaf := fun he => hleaf e (he ▸ hstep)
      exact (ih hp).tail ((h p hprev hp e).mpr ⟨hstep, hne⟩)

end Pointer
