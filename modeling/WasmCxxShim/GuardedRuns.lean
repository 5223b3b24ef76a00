import Mathlib

/-!
# Runs of guarded steps

A machine makes the step of an action only where the action is enabled. A run is legal when each
of its actions is enabled where it is made; what every enabled step preserves, every legal run
preserves.
-/
namespace WasmCxxShim.GuardedRuns

variable {σ α : Type*} (enabled : σ → α → Prop) (next : σ → α → σ)

def Legal : σ → List α → Prop
  | _, [] => True
  | s, a :: as => enabled s a ∧ Legal (next s a) as

instance Legal.decidable [∀ s a, Decidable (enabled s a)] :
    (s : σ) → (as : List α) → Decidable (Legal enabled next s as)
  | _, [] => .isTrue trivial
  | s, a :: as => @instDecidableAnd _ _ _ (Legal.decidable (next s a) as)

variable {enabled next}

theorem Legal.invariant (inv : σ → Prop) (step : ∀ s a, inv s → enabled s a → inv (next s a))
    {s : σ} {as : List α} (hs : inv s) (h : Legal enabled next s as) :
    inv (as.foldl next s) := by
  induction as generalizing s with
  | nil => exact hs
  | cons a as ih => exact ih (step s a hs h.1) h.2

end WasmCxxShim.GuardedRuns
