import Mathlib

/-!
# Bounded iteration of a loop body

A loop is given by its body: one pass over a state either leaves the loop with a result or
goes round again with a new state. A body may itself be a bounded run that has not finished
yet, which is `none`. `iterate` runs at most `fuel` passes. The rules below reduce a statement
about the whole loop to one about a single pass: a variant gives total correctness, an
invariant that no pass escapes gives divergence.
-/
namespace WasmCxxShim.LoopRules
open Filter

/-- What one pass of a loop does. -/
inductive Pass (σ ρ : Type*)
  | leave (result : ρ)
  | again (state : σ)
  deriving DecidableEq, Repr

variable {σ ρ : Type*}

def iterate (body : σ → Option (Pass σ ρ)) : ℕ → σ → Option ρ
  | 0, _ => none
  | fuel + 1, s =>
    match body s with
    | none => none
    | some (.leave r) => some r
    | some (.again s') => iterate body fuel s'

/-- The bounded runs `run fuel` eventually give `r` and keep it: the unbounded run returns `r`. -/
def Returns (run : ℕ → Option ρ) (r : ρ) : Prop := ∀ᶠ fuel in atTop, run fuel = some r

/-- No bounded run gives a result: the unbounded run does not return. -/
def Hangs (run : ℕ → Option ρ) : Prop := ∀ fuel, run fuel = none

theorem returns_of_forall_ge {run : ℕ → Option ρ} {r : ρ} (bound : ℕ)
    (h : ∀ fuel, bound ≤ fuel → run fuel = some r) : Returns run r :=
  eventually_atTop.mpr ⟨bound, h⟩

theorem Returns.unique {run : ℕ → Option ρ} {r r' : ρ} (h : Returns run r)
    (h' : Returns run r') : r = r' := by
  obtain ⟨fuel, hr, hr'⟩ := (h.and h').exists
  exact Option.some.inj (hr.symm.trans hr')

theorem Returns.not_hangs {run : ℕ → Option ρ} {r : ρ} (h : Returns run r) : ¬ Hangs run := by
  intro hangs
  obtain ⟨fuel, hr⟩ := h.exists
  rw [hangs fuel] at hr
  exact Option.some_ne_none r hr.symm

section Passes

variable {body : σ → Option (Pass σ ρ)}

theorem iterate_leave {s : σ} {r : ρ} (h : body s = some (.leave r)) (fuel : ℕ) :
    iterate body (fuel + 1) s = some r := by
  simp [iterate, h]

theorem iterate_again {s s' : σ} (h : body s = some (.again s')) (fuel : ℕ) :
    iterate body (fuel + 1) s = iterate body fuel s' := by
  simp [iterate, h]

/-- Total correctness with a variant: `measure s` passes after the first one are enough. -/
theorem iterate_variant (body : σ → Option (Pass σ ρ)) (inv : σ → Prop) (measure : σ → ℕ) (post : ρ → Prop)
    (pass : ∀ s, inv s →
      (∃ r, body s = some (.leave r) ∧ post r) ∨
      ∃ s', body s = some (.again s') ∧ inv s' ∧ measure s' < measure s)
    {s : σ} (hs : inv s) :
    ∃ r, post r ∧ ∀ fuel, measure s < fuel → iterate body fuel s = some r := by
  induction hm : measure s using Nat.strong_induction_on generalizing s with
  | _ m ih =>
    subst hm
    rcases pass s hs with ⟨r, hr, hpost⟩ | ⟨s', hagain, hs', hlt⟩
    · refine ⟨r, hpost, fun fuel hf => ?_⟩
      obtain ⟨k, rfl⟩ := Nat.exists_eq_add_of_lt (Nat.zero_lt_of_lt hf)
      rw [Nat.zero_add]
      exact iterate_leave hr k
    · obtain ⟨r, hpost, hr⟩ := ih (measure s') hlt hs' rfl
      refine ⟨r, hpost, fun fuel hf => ?_⟩
      obtain ⟨k, rfl⟩ := Nat.exists_eq_add_of_lt (Nat.zero_lt_of_lt hf)
      rw [Nat.zero_add] at hf ⊢
      rw [iterate_again hagain]
      exact hr k (by omega)

/-- A set of states that every pass stays inside is never left. -/
theorem iterate_hangs (inv : σ → Prop)
    (pass : ∀ s, inv s → ∃ s', body s = some (.again s') ∧ inv s')
    {s : σ} (hs : inv s) : Hangs fun fuel => iterate body fuel s := by
  intro fuel
  induction fuel generalizing s with
  | zero => rfl
  | succ fuel ih =>
    obtain ⟨s', hagain, hs'⟩ := pass s hs
    exact (iterate_again hagain fuel).trans (ih hs')

/-- The states in which the passes of a bounded run start, in order. -/
def visits (body : σ → Option (Pass σ ρ)) : ℕ → σ → List σ
  | 0, _ => []
  | fuel + 1, s =>
    s :: match body s with
      | some (.again s') => visits body fuel s'
      | _ => []

/-- What every pass that goes round again keeps holds wherever a pass starts. -/
theorem visits_invariant (inv : σ → Prop)
    (pass : ∀ s s', inv s → body s = some (.again s') → inv s') (fuel : ℕ) {s : σ} (hs : inv s) :
    ∀ t ∈ visits body fuel s, inv t := by
  induction fuel generalizing s with
  | zero => simp [visits]
  | succ fuel ih =>
    intro t ht
    rcases List.mem_cons.mp ht with rfl | ht
    · exact hs
    · split at ht
      · next s' hagain => exact ih (pass s s' hs hagain) t ht
      · simp at ht

/-- If every pass that goes round again takes the state up along `r`, the passes start in states
that climb along `r`. -/
theorem visits_pairwise (r : σ → σ → Prop) [IsTrans σ r] (inv : σ → Prop)
    (pass : ∀ s s', inv s → body s = some (.again s') → inv s' ∧ r s s') (fuel : ℕ) {s : σ}
    (hs : inv s) : (visits body fuel s).Pairwise r := by
  induction fuel generalizing s with
  | zero => exact List.Pairwise.nil
  | succ fuel ih =>
    refine List.Pairwise.cons ?_ ?_
    · split
      · next s' hagain =>
        obtain ⟨hs', hr⟩ := pass s s' hs hagain
        exact fun t ht => (visits_invariant (fun t => inv t ∧ r s t)
          (fun t t' ⟨ht, hst⟩ hstep =>
            have ⟨ht', htt'⟩ := pass t t' ht hstep
            ⟨ht', trans_of r hst htt'⟩) fuel ⟨hs', hr⟩ t ht).2
      · simp
    · split
      · next s' hagain => exact ih (pass s s' hs hagain).1
      · exact List.Pairwise.nil

/-- A run with one more pass starts one in the state that a pass leads on to. -/
theorem mem_visits_again {s t t' : σ} {fuel : ℕ} (ht : t ∈ visits body fuel s)
    (hagain : body t = some (.again t')) : t' ∈ visits body (fuel + 1) s := by
  induction fuel generalizing s with
  | zero => simp [visits] at ht
  | succ fuel ih =>
    rw [visits, List.mem_cons]
    right
    rcases List.mem_cons.mp ht with rfl | ht
    · simp [hagain, visits]
    · split at ht
      · exact ih ht
      · simp at ht

end Passes

end WasmCxxShim.LoopRules
