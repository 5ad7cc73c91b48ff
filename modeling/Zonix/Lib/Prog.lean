import Mathlib.Init

/-! # Computations with state and errors

A `Prog` changes a state and returns a value or stops with an error; what it changed before the
error stays changed.  `wp` is its weakest precondition: `Q` after a value, `E` after an error. -/

def Prog (σ ε α : Type) : Type := σ → Except ε α × σ

namespace Prog

variable {σ ε α β γ : Type}

instance : Monad (Prog σ ε) where
  pure a := fun s => (.ok a, s)
  bind m f := fun s =>
    match m s with
    | (.ok a, s) => f a s
    | (.error e, s) => (.error e, s)

theorem bind_apply (m : Prog σ ε α) (f : α → Prog σ ε β) (s : σ) :
    (m >>= f) s = match m s with
      | (.ok a, s) => f a s
      | (.error e, s) => (.error e, s) := rfl

theorem bind_pure_self (m : Prog σ ε α) : m >>= pure = m := by
  funext s
  rw [bind_apply]
  rcases m s with ⟨_ | _, _⟩ <;> rfl

theorem bind_bind (m : Prog σ ε α) (f : α → Prog σ ε β) (k : β → Prog σ ε γ) :
    m >>= f >>= k = m >>= fun a => f a >>= k := by
  funext s
  simp only [bind_apply]
  rcases m s with ⟨_ | _, _⟩ <;> rfl

instance : LawfulMonad (Prog σ ε) := LawfulMonad.mk' _ bind_pure_self (fun _ _ => rfl) bind_bind

def fail (e : ε) : Prog σ ε α := fun s => (.error e, s)

def ensure (c : Prop) [Decidable c] (e : ε) : Prog σ ε Unit := if c then pure () else fail e

def state : Prog σ ε σ := fun s => (.ok s, s)

def update (f : σ → σ) : Prog σ ε Unit := fun s => (.ok (), f s)

def attempt (m : Prog σ ε α) : Prog σ ε (Except ε α) := fun s => (.ok (m s).1, (m s).2)

/-- On an error of `m` run `cleanup`, whose own outcome is dropped, and pass the error on. -/
def onError (m : Prog σ ε α) (cleanup : Prog σ ε Unit) : Prog σ ε α := fun s =>
  match m s with
  | (.ok a, s) => (.ok a, s)
  | (.error e, s) => (.error e, (cleanup s).2)

def wp (m : Prog σ ε α) (Q : α → σ → Prop) (E : ε → σ → Prop) (s : σ) : Prop :=
  match m s with
  | (.ok a, s) => Q a s
  | (.error e, s) => E e s

variable {Q Q' : α → σ → Prop} {E E' : ε → σ → Prop} {R : β → σ → Prop} {s : σ}

@[simp] theorem wp_pure (a : α) : wp (pure a : Prog σ ε α) Q E s ↔ Q a s := Iff.rfl

@[simp] theorem wp_fail (e : ε) : wp (fail e : Prog σ ε α) Q E s ↔ E e s := Iff.rfl

@[simp] theorem wp_state {Q : σ → σ → Prop} : wp (state : Prog σ ε σ) Q E s ↔ Q s s := Iff.rfl

@[simp] theorem wp_update {Q : Unit → σ → Prop} (f : σ → σ) :
    wp (update f : Prog σ ε Unit) Q E s ↔ Q () (f s) := Iff.rfl

variable {m : Prog σ ε α} {s' : σ}

theorem wp_mono (h : wp m Q E s) (hq : ∀ a s', Q a s' → Q' a s')
    (he : ∀ e s', E e s' → E' e s') : wp m Q' E' s := by
  unfold wp at h ⊢
  split at h
  · exact hq _ _ h
  · exact he _ _ h

theorem wp_and (h : wp m Q E s) (h' : wp m Q' E' s) :
    wp m (fun a s' => Q a s' ∧ Q' a s') (fun e s' => E e s' ∧ E' e s') s := by
  unfold wp at h h' ⊢
  split at h
  · rename_i hm
    rw [hm] at h'
    exact ⟨h, h'⟩
  · rename_i hm
    rw [hm] at h'
    exact ⟨h, h'⟩

@[simp] theorem wp_bind (m : Prog σ ε α) (f : α → Prog σ ε β) :
    wp (m >>= f) R E s ↔ wp m (fun a s' => wp (f a) R E s') E s := by
  unfold wp
  rw [bind_apply]
  rcases m s with ⟨_ | _, _⟩ <;> rfl

theorem wp_ensure {Q : Unit → σ → Prop} {c : Prop} [Decidable c] (e : ε) :
    wp (ensure c e : Prog σ ε Unit) Q E s ↔ if c then Q () s else E e s := by
  unfold ensure
  split <;> rfl

theorem wp_attempt {Q : Except ε α → σ → Prop} :
    wp (attempt m) Q E s ↔ wp m (fun a => Q (.ok a)) (fun e => Q (.error e)) s := by
  have ha : attempt m s = (.ok (m s).1, (m s).2) := rfl
  unfold wp
  rw [ha]
  rcases m s with ⟨_ | _, _⟩ <;> rfl

theorem wp_onError {cleanup : Prog σ ε Unit} :
    wp (onError m cleanup) Q E s ↔ wp m Q (fun e s' => E e (cleanup s').2) s := by
  have ho : onError m cleanup s = match m s with
    | (.ok a, s) => (.ok a, s)
    | (.error e, s) => (.error e, (cleanup s).2) := rfl
  unfold wp
  rw [ho]
  rcases m s with ⟨_ | _, _⟩ <;> rfl

theorem wp_left {P : σ → Prop} : wp m (fun _ => P) (fun _ => P) s ↔ P (m s).2 := by
  unfold wp
  rcases hm : m s with ⟨_ | _, _⟩ <;> rfl

theorem wp_ok {a : α} (h : wp m Q E s) (hm : m s = (.ok a, s')) : Q a s' := by
  unfold wp at h
  rw [hm] at h
  exact h

theorem bind_of_ok {a : α} (hm : m s = (.ok a, s')) (f : α → Prog σ ε β) :
    (m >>= f) s = f a s' := by
  rw [bind_apply, hm]

theorem bind_of_error {e : ε} (hm : m s = (.error e, s')) (f : α → Prog σ ε β) :
    (m >>= f) s = (.error e, s') := by
  rw [bind_apply, hm]

theorem ensure_not {c : Prop} [Decidable c] (h : ¬c) (e : ε) : (ensure c e : Prog σ ε Unit) s = (.error e, s) := by
  rw [ensure, if_neg h]
  rfl

theorem ensure_of {c : Prop} [Decidable c] (h : c) (e : ε) : (ensure c e : Prog σ ε Unit) s = (.ok (), s) := by
  rw [ensure, if_pos h]
  rfl

theorem wp_of_ok {a : α} (hm : m s = (.ok a, s')) : wp m Q E s ↔ Q a s' := by
  unfold wp
  rw [hm]

theorem wp_error {e : ε} (h : wp m Q E s) (hm : m s = (.error e, s')) : E e s' := by
  unfold wp at h
  rw [hm] at h
  exact h

theorem wp_fst {a : α} (h : wp m Q E s) (hm : (m s).1 = .ok a) : Q a (m s).2 :=
  wp_ok h (Prod.ext hm rfl)

theorem wp_trivial (m : Prog σ ε α) (s : σ) : wp m (fun _ _ => True) (fun _ _ => True) s := wp_left.mpr trivial

end Prog
