import WasmCxxShim.CallByName
import WasmCxxShim.HarnessStatements

/-!
# The assertion macros and their operands

Each macro of the adapter expands to a condition in the text of its operands. All of them use
each operand once but `EXPECT_NEAR` and `ASSERT_NEAR`, which run all three operands a second time
when the first of their two comparisons holds.
-/
namespace WasmCxxShim.Harness
open CallByName

/-- The parameters of an assertion macro; `EXPECT_TRUE(c)` and `EXPECT_FALSE(c)` have the first
one. -/
inductive Param
  | a
  | b
  | eps
  deriving DecidableEq

inductive Operator
  | sub
  | neg

/-- The comparisons, two of them by calls of inline functions. -/
inductive Relation
  | eq
  | ne
  | lt
  | le
  | gt
  | ge
  | floatEq4ulp
  | doubleEq4ulp
  deriving DecidableEq

abbrev MacroExpr := Expr Param Operator

abbrev MacroCond := Cond Param Operator Relation

inductive Macro
  | isTrue
  | isFalse
  | eq
  | ne
  | lt
  | le
  | gt
  | ge
  | floatEq
  | doubleEq
  | near
  deriving DecidableEq

/-- The arguments of the macro, in order. -/
def Macro.params : Macro → List Param
  | isTrue | isFalse => [.a]
  | near => [.a, .b, .eps]
  | _ => [.a, .b]

/-- `(a) - (b)` -/
def difference : MacroExpr := .binary .sub (.param .a) (.param .b)

/-- The condition that `WCS_CHECK` or `WCS_REQUIRE` receives. -/
def Macro.expansion : Macro → MacroCond
  | isTrue => .truth (.param .a)
  | isFalse => .not (.truth (.param .a))
  | eq => .compare .eq (.param .a) (.param .b)
  | ne => .compare .ne (.param .a) (.param .b)
  | lt => .compare .lt (.param .a) (.param .b)
  | le => .compare .le (.param .a) (.param .b)
  | gt => .compare .gt (.param .a) (.param .b)
  | ge => .compare .ge (.param .a) (.param .b)
  | floatEq => .compare .floatEq4ulp (.param .a) (.param .b)
  | doubleEq => .compare .doubleEq4ulp (.param .a) (.param .b)
  | near =>
    .and (.compare .gt difference (.unary .neg (.param .eps)))
      (.compare .lt difference (.param .eps))

/-- Whether the macro records and goes on or records and returns. -/
inductive Form
  | expect
  | assert
  deriving DecidableEq

variable {σ V : Type*} (I : Interp Operator Relation V)

/-- The statement that a use of the macro is. -/
def Macro.stmt (m : Macro) (form : Form) (site : Site) (ops : Operands Param σ V) : Stmt σ :=
  let operand := fun s => ((m.expansion.eval I ops s).holds, (m.expansion.eval I ops s).state)
  match form with
  | .expect => .check site operand
  | .assert => .require site operand

/-- The macro's relation on the values of its operands, each run once. -/
def Macro.once (m : Macro) (ops : Operands Param σ V) (s : σ) : Evaluation σ V :=
  m.expansion.byValue I m.params ops s

/-- A use of a macro does to the program what it does with each operand run once: the same
values are seen, the state is the same, and the assertion records a failure and returns exactly
when the relation fails on these values. -/
structure EvaluatesOnce (m : Macro) (form : Form) (site : Site) (ops : Operands Param σ V) (s : σ)
    (h : Shared) : Prop where
  seen : (m.expansion.eval I ops s).seen = (m.once I ops s).seen
  state : ((m.stmt I form site ops).exec s h).state = (m.once I ops s).state
  shared : ((m.stmt I form site ops).exec s h).shared = assert site (m.once I ops s).holds h
  returned : ((m.stmt I form site ops).exec s h).returned =
    (decide (form = .assert) && !(m.once I ops s).holds)

theorem Macro.linear {m : Macro} (h : m ≠ .near) :
    m.expansion.Linear ∧ m.expansion.params = m.params := by
  cases m <;> simp [expansion, Cond.Linear, Cond.params, Expr.params, params] at h ⊢

theorem Macro.evaluatesOnce_of_eq {m : Macro} {ops : Operands Param σ V} {s : σ}
    (h : m.expansion.eval I ops s = m.once I ops s) (form : Form) (site : Site) (sh : Shared) :
    EvaluatesOnce I m form site ops s sh := by
  cases form <;> constructor <;> simp [stmt, Stmt.exec, h]

/-- One run of the operands of `EXPECT_NEAR`. -/
@[ext] structure NearRun (σ V : Type*) where
  difference : V
  eps : V
  state : σ

def nearRun (ops : Operands Param σ V) (s : σ) : NearRun σ V :=
  let a := ops .a s
  let b := ops .b a.2
  let eps := ops .eps b.2
  ⟨I.binary .sub a.1 b.1, eps.1, eps.2⟩

/-- The lower comparison fails, or the operands run again from the state they left give the same
difference and the same `eps` and leave that state. -/
def SecondRunRepeats (ops : Operands Param σ V) (s : σ) : Prop :=
  let first := nearRun I ops s
  I.compare .gt first.difference (I.unary .neg first.eps) = true → nearRun I ops first.state = first

theorem near_eval (ops : Operands Param σ V) (s : σ) :
    Macro.near.expansion.eval I ops s =
      let first := nearRun I ops s
      let lower := I.unary .neg first.eps
      if I.compare .gt first.difference lower then
        let second := nearRun I ops first.state
        ⟨I.compare .lt second.difference second.eps,
          [first.difference, lower, second.difference, second.eps], second.state⟩
      else ⟨I.compare .gt first.difference lower, [first.difference, lower], first.state⟩ := rfl

theorem near_once (ops : Operands Param σ V) (s : σ) :
    Macro.near.once I ops s =
      let first := nearRun I ops s
      let lower := I.unary .neg first.eps
      if I.compare .gt first.difference lower then
        ⟨I.compare .lt first.difference first.eps,
          [first.difference, lower, first.difference, first.eps], first.state⟩
      else ⟨I.compare .gt first.difference lower, [first.difference, lower], first.state⟩ := rfl

theorem near_evaluatesOnce_iff {form : Form} {site : Site} {ops : Operands Param σ V} {s : σ}
    {h : Shared} : EvaluatesOnce I .near form site ops s h ↔ SecondRunRepeats I ops s := by
  constructor
  · rintro ⟨hseen, hstate, -, -⟩ hlower
    have hstate' : (Macro.near.expansion.eval I ops s).state = (Macro.near.once I ops s).state := by
      cases form <;> exact hstate
    rw [near_eval, near_once] at hseen hstate'
    simp only [hlower, ↓reduceIte, List.cons.injEq, and_true, true_and] at hseen hstate'
    exact NearRun.ext hseen.1 hseen.2 hstate'
  · intro hrepeats
    apply Macro.evaluatesOnce_of_eq
    rw [near_eval, near_once]
    by_cases hlower : I.compare .gt (nearRun I ops s).difference
        (I.unary .neg (nearRun I ops s).eps) = true
    · simp only [hlower, hrepeats hlower, ↓reduceIte]
    · simp only [hlower, Bool.false_eq_true, ↓reduceIte]

/-- Every use of every macro evaluates its operands once, except that `EXPECT_NEAR` and
`ASSERT_NEAR` do so exactly when a second run of the operands repeats the first. -/
theorem macro_evaluatesOnce_iff (m : Macro) (form : Form) (site : Site)
    (ops : Operands Param σ V) (s : σ) (h : Shared) :
    EvaluatesOnce I m form site ops s h ↔ (m = .near → SecondRunRepeats I ops s) := by
  by_cases hm : m = .near
  · subst hm
    simp [near_evaluatesOnce_iff]
  · obtain ⟨hlinear, hparams⟩ := Macro.linear hm
    have heq : m.expansion.eval I ops s = m.once I ops s := by
      rw [Macro.once, ← hparams]
      exact Cond.eval_eq_byValue hlinear ops s
    simp [hm, Macro.evaluatesOnce_of_eq I heq]

/-- Integers so small that, as floats, no two of them are within four units of each other. -/
def smallIntegers : Interp Operator Relation ℤ where
  unary _ x := -x
  binary _ x y := x - y
  truth x := decide (x ≠ 0)
  compare r x y :=
    match r with
    | .eq | .floatEq4ulp | .doubleEq4ulp => decide (x = y)
    | .ne => decide (x ≠ y)
    | .lt => decide (x < y)
    | .le => decide (x ≤ y)
    | .gt => decide (x > y)
    | .ge => decide (x ≥ y)

/-- `EXPECT_NEAR(i++, 0, 10)` -/
def nearPostIncrement : Operands Param ℤ ℤ
  | .a, i => (i, i + 1)
  | .b, i => (0, i)
  | .eps, i => (10, i)

/-- `EXPECT_NEAR(i++, 0, 10)` takes `i` from 0 to 2. -/
theorem near_not_evaluatesOnce :
    ((Macro.near.stmt smallIntegers .expect ⟨selfTestFile, 1, zeroText⟩ nearPostIncrement).exec 0
        ⟨0, Log.initial⟩).state = 2 ∧
      ¬ EvaluatesOnce smallIntegers .near .expect ⟨selfTestFile, 1, zeroText⟩ nearPostIncrement 0
        ⟨0, Log.initial⟩ := by
  refine ⟨rfl, fun h => ?_⟩
  have hstate : (2 : ℤ) = 1 := h.state
  exact absurd hstate (by decide)

end WasmCxxShim.Harness
