import Mathlib

/-!
# Sinks

What a writer puts, element by element. The list of what was put is itself a sink, and a writer that only puts is the
same at every sink: it puts there the list that it leaves from `[]`.
-/

namespace Zonix

class Sink (σ : Type*) (γ : outParam Type*) where
  put : σ → γ → σ

instance {γ : Type*} : Sink (List γ) γ := ⟨fun out c => out ++ [c]⟩

namespace Sink

variable {γ σ : Type*} [Sink σ γ]

def putAll (s : σ) (cs : List γ) : σ := cs.foldl put s

@[simp] theorem putAll_nil (s : σ) : putAll s ([] : List γ) = s := rfl

theorem putAll_cons (s : σ) (c : γ) (cs : List γ) : putAll s (c :: cs) = putAll (put s c) cs := rfl

@[simp] theorem putAll_singleton (s : σ) (c : γ) : putAll s [c] = put s c := rfl

theorem putAll_append (s : σ) (cs ds : List γ) : putAll s (cs ++ ds) = putAll (putAll s cs) ds := List.foldl_append

@[simp] theorem putAll_list (out cs : List γ) : putAll out cs = out ++ cs := by
  induction cs generalizing out with
  | nil => exact (List.append_nil out).symm
  | cons c cs ih =>
    rw [putAll_cons, ih]
    exact List.append_assoc out [c] cs

end Sink

end Zonix
