import Mathlib

/-!
# Macro parameters are called by name

The body of a macro is a condition over its parameters. Each occurrence of a parameter runs the
operand passed for it, which may read and update the state; `&&` runs its right side only if the
left side holds. A function would run every operand once and use the values. The two agree on
conditions without `&&` in which no parameter occurs twice.
-/
namespace WasmCxxShim.CallByName

inductive Expr (π φ : Type*)
  | param (p : π)
  | unary (f : φ) (x : Expr π φ)
  | binary (f : φ) (x y : Expr π φ)

inductive Cond (π φ ρ : Type*)
  | truth (x : Expr π φ)
  | compare (r : ρ) (x y : Expr π φ)
  | not (c : Cond π φ ρ)
  | and (c d : Cond π φ ρ)

/-- What the operators and relations compute. -/
structure Interp (φ ρ V : Type*) where
  unary : φ → V → V
  binary : φ → V → V → V
  truth : V → Bool
  compare : ρ → V → V → Bool

/-- The operand passed for each parameter. -/
abbrev Operands (π σ V : Type*) := π → σ → V × σ

/-- The verdict of a condition, the values it tested or compared, and the state it leaves. -/
structure Evaluation (σ V : Type*) where
  holds : Bool
  seen : List V
  state : σ

variable {π φ ρ σ V : Type*} (I : Interp φ ρ V)

/-- Operands are evaluated from left to right. -/
def Expr.eval (ops : Operands π σ V) : Expr π φ → σ → V × σ
  | param p, s => ops p s
  | unary f x, s => (I.unary f (x.eval ops s).1, (x.eval ops s).2)
  | binary f x y, s =>
    (I.binary f (x.eval ops s).1 (y.eval ops (x.eval ops s).2).1,
      (y.eval ops (x.eval ops s).2).2)

def Cond.eval (ops : Operands π σ V) : Cond π φ ρ → σ → Evaluation σ V
  | truth x, s => ⟨I.truth (x.eval I ops s).1, [(x.eval I ops s).1], (x.eval I ops s).2⟩
  | compare r x y, s =>
    let v := x.eval I ops s
    let w := y.eval I ops v.2
    ⟨I.compare r v.1 w.1, [v.1, w.1], w.2⟩
  | not c, s => { c.eval ops s with holds := !(c.eval ops s).holds }
  | and c d, s =>
    let first := c.eval ops s
    if first.holds then
      let second := d.eval ops first.state
      { second with seen := first.seen ++ second.seen }
    else first

/-- The occurrences of parameters, in the order of evaluation. -/
def Expr.params : Expr π φ → List π
  | param p => [p]
  | unary _ x => x.params
  | binary _ x y => x.params ++ y.params

def Cond.params : Cond π φ ρ → List π
  | truth x => x.params
  | compare _ x y => x.params ++ y.params
  | not c => c.params
  | and c d => c.params ++ d.params

/-- No `&&`, and no parameter occurs twice. -/
def Cond.Linear : Cond π φ ρ → Prop
  | truth x => x.params.Nodup
  | compare _ x y => (x.params ++ y.params).Nodup
  | not c => c.Linear
  | and _ _ => False

variable [DecidableEq π]

/-- Run the operands of the listed parameters in order and replace each by its value. -/
def runOnce : List π → Operands π σ V → σ → Operands π σ V × σ
  | [], ops, s => (ops, s)
  | p :: ps, ops, s =>
    runOnce ps (Function.update ops p fun s' => ((ops p s).1, s')) (ops p s).2

/-- The condition on the values of its operands, each run once. -/
def Cond.byValue (c : Cond π φ ρ) (ps : List π) (ops : Operands π σ V) (s : σ) : Evaluation σ V :=
  c.eval I (runOnce ps ops s).1 (runOnce ps ops s).2

theorem runOnce_append (ps qs : List π) (ops : Operands π σ V) (s : σ) :
    runOnce (ps ++ qs) ops s = runOnce qs (runOnce ps ops s).1 (runOnce ps ops s).2 := by
  induction ps generalizing ops s with
  | nil => rfl
  | cons p ps ih => exact ih _ _

theorem runOnce_of_not_mem {ps : List π} {p : π} (h : p ∉ ps) (ops : Operands π σ V) (s : σ) :
    (runOnce ps ops s).1 p = ops p := by
  induction ps generalizing ops s with
  | nil => rfl
  | cons q ps ih =>
    simp only [List.mem_cons, not_or] at h
    exact (ih h.2 _ _).trans (Function.update_of_ne h.1 _ _)

omit [DecidableEq π] in
theorem Expr.eval_congr {ops ops' : Operands π σ V} (x : Expr π φ)
    (h : ∀ p ∈ x.params, ops p = ops' p) (s : σ) : x.eval I ops s = x.eval I ops' s := by
  induction x generalizing s with
  | param p => exact congrFun (h p (by simp [params])) s
  | unary f x ih => simp only [eval, ih h]
  | binary f x y ihx ihy =>
    have hx := ihx fun p hp => h p (by simp [params, hp])
    have hy := ihy fun p hp => h p (by simp [params, hp])
    simp only [eval, hx, hy]

/-- Running the operands of `x` once leaves the state that evaluating `x` leaves, and on their
values `x` has the value it had. -/
def Expr.RunsOnce (x : Expr π φ) : Prop :=
  ∀ (ops : Operands π σ V) (s : σ), (x.eval I ops s).2 = (runOnce x.params ops s).2 ∧
    ∀ (ops' : Operands π σ V), (∀ p ∈ x.params, ops' p = (runOnce x.params ops s).1 p) →
      ∀ s', x.eval I ops' s' = ((x.eval I ops s).1, s')

variable {I}

/-- Two expressions evaluated one after the other. -/
theorem Expr.RunsOnce.pair {x y : Expr π φ} (hx : x.RunsOnce (σ := σ) I)
    (hy : y.RunsOnce (σ := σ) I) (hnodup : (x.params ++ y.params).Nodup) (ops : Operands π σ V)
    (s : σ) :
    (y.eval I ops (x.eval I ops s).2).2 = (runOnce (x.params ++ y.params) ops s).2 ∧
      ∀ (ops' : Operands π σ V),
        (∀ p ∈ x.params ++ y.params, ops' p = (runOnce (x.params ++ y.params) ops s).1 p) →
        ∀ s', x.eval I ops' s' = ((x.eval I ops s).1, s') ∧
          y.eval I ops' s' = ((y.eval I ops (x.eval I ops s).2).1, s') := by
  have hdisjoint := (List.nodup_append'.mp hnodup).2.2
  obtain ⟨hstate, hvalue⟩ := hx ops s
  obtain ⟨hstate', hvalue'⟩ := hy (runOnce x.params ops s).1 (runOnce x.params ops s).2
  -- running the operands of `x` does not touch those of `y`
  have hkeep : y.eval I ops (x.eval I ops s).2 =
      y.eval I (runOnce x.params ops s).1 (runOnce x.params ops s).2 := by
    rw [hstate]
    exact y.eval_congr I (fun p hp =>
      (runOnce_of_not_mem (fun hpx => hdisjoint hpx hp) ops s).symm) _
  rw [runOnce_append, hkeep]
  refine ⟨hstate', fun ops' hops s' => ⟨hvalue ops' (fun p hp => ?_) s', hvalue' ops' ?_ s'⟩⟩
  · rw [hops p (List.mem_append_left _ hp), runOnce_of_not_mem fun hpy => hdisjoint hp hpy]
  · exact fun p hp => hops p (List.mem_append_right _ hp)

theorem Expr.runsOnce (x : Expr π φ) (h : x.params.Nodup) : x.RunsOnce (σ := σ) I := by
  induction x with
  | param p =>
    intro ops s
    refine ⟨rfl, fun ops' hops s' => ?_⟩
    simp [eval, hops p (by simp [params]), runOnce, params]
  | unary f x ih =>
    intro ops s
    obtain ⟨hstate, hvalue⟩ := ih h ops s
    exact ⟨hstate, fun ops' hops s' => by simp only [eval, hvalue ops' hops]⟩
  | binary f x y ihx ihy =>
    intro ops s
    obtain ⟨hxn, hyn, -⟩ := List.nodup_append'.mp h
    obtain ⟨hstate, hvalue⟩ := (ihx hxn).pair (ihy hyn) h ops s
    refine ⟨hstate, fun ops' hops s' => ?_⟩
    obtain ⟨hx, hy⟩ := hvalue ops' hops s'
    simp only [eval, hx, hy]

/-- A linear condition called by name is the condition on the values of its operands. -/
theorem Cond.eval_eq_byValue {c : Cond π φ ρ} (h : c.Linear) (ops : Operands π σ V) (s : σ) :
    c.eval I ops s = c.byValue I c.params ops s := by
  induction c with
  | truth x =>
    obtain ⟨hstate, hvalue⟩ := x.runsOnce (I := I) h ops s
    simp only [byValue, eval, params, hvalue _ (fun p _ => rfl), hstate]
  | compare r x y =>
    obtain ⟨hxn, hyn, -⟩ := List.nodup_append'.mp h
    obtain ⟨hstate, hvalue⟩ := (x.runsOnce (I := I) hxn).pair (y.runsOnce hyn) h ops s
    obtain ⟨hx, hy⟩ := hvalue _ (fun p _ => rfl) (runOnce (x.params ++ y.params) ops s).2
    simp only [byValue, eval, params, hx, hy, hstate]
  | not c ih => simp only [byValue, eval, params, ih h]
  | and c d => exact h.elim

end WasmCxxShim.CallByName
