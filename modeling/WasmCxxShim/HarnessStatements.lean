import WasmCxxShim.HarnessLog

/-!
# Test bodies

A body is a statement tree over a program state: assertions whose operands may have effects, log
messages, other computation, and calls to helper functions. Its meaning without the harness is
the list of assertions it reaches, where a failing `WCS_REQUIRE` returns from the function that
contains it. Its execution runs the macros, which share one failure counter and one log. The two
agree, and the log has no influence.
-/
namespace WasmCxxShim.Harness
open MachineWords

/-- The text that an assertion macro passes to `wcs_record_failure`. -/
structure Site where
  file : CString
  line : Word
  expr : CString
  deriving DecidableEq

/-- An operand reads and updates the program state and yields a truth value. -/
abbrev Operand (σ : Type*) := σ → Bool × σ

inductive Stmt (σ : Type*)
  | skip
  | compute (f : σ → σ)
  | seq (a b : Stmt σ)
  | branch (c : Operand σ) (a b : Stmt σ)
  | check (site : Site) (c : Operand σ)
  | require (site : Site) (c : Operand σ)
  | log (m : Message)
  | call (helper : Stmt σ)

variable {σ : Type*}

/-- An assertion that was reached, with its verdict. -/
structure Assertion where
  site : Site
  holds : Bool
  deriving DecidableEq

def failing (reached : List Assertion) : ℕ := reached.countP (!·.holds)

/-- `returned` tells whether control left the function that contains the statement. -/
structure Meaning (σ : Type*) where
  reached : List Assertion
  state : σ
  returned : Bool

def Stmt.meaning : Stmt σ → σ → Meaning σ
  | skip, s => ⟨[], s, false⟩
  | compute f, s => ⟨[], f s, false⟩
  | seq a b, s =>
    let first := a.meaning s
    if first.returned then first
    else
      let second := b.meaning first.state
      ⟨first.reached ++ second.reached, second.state, second.returned⟩
  | branch c a b, s => if (c s).1 then a.meaning (c s).2 else b.meaning (c s).2
  | check site c, s => ⟨[⟨site, (c s).1⟩], (c s).2, false⟩
  | require site c, s => ⟨[⟨site, (c s).1⟩], (c s).2, !(c s).1⟩
  | log _, s => ⟨[], s, false⟩
  | call helper, s => { helper.meaning s with returned := false }

structure Exec (σ : Type*) where
  state : σ
  shared : Shared
  returned : Bool

/-- `if (!(expr)) wcs_record_failure(__FILE__, __LINE__, #expr);` -/
def assert (site : Site) (holds : Bool) (h : Shared) : Shared :=
  if !holds then wcsRecordFailure h site.file site.line site.expr else h

def Stmt.exec : Stmt σ → σ → Shared → Exec σ
  | skip, s, h => ⟨s, h, false⟩
  | compute f, s, h => ⟨f s, h, false⟩
  | seq a b, s, h =>
    let first := a.exec s h
    if first.returned then first else b.exec first.state first.shared
  | branch c a b, s, h => if (c s).1 then a.exec (c s).2 h else b.exec (c s).2 h
  | check site c, s, h => ⟨(c s).2, assert site (c s).1 h, false⟩
  | require site c, s, h => ⟨(c s).2, assert site (c s).1 h, !(c s).1⟩
  | log m, s, h => ⟨s, { h with log := (wcsLogPrintf h.log m).1 }, false⟩
  | call helper, s, h => { helper.exec s h with returned := false }

@[simp] theorem failing_nil : failing [] = 0 := rfl

@[simp] theorem failing_append (reached reached' : List Assertion) :
    failing (reached ++ reached') = failing reached + failing reached' :=
  List.countP_append

theorem assert_failures (site : Site) (holds : Bool) (h : Shared) :
    (assert site holds h).failures =
      h.failures + BitVec.ofNat 32 (failing [⟨site, holds⟩]) := by
  cases holds <;> simp [assert, failing, wcsRecordFailure]

/-- The macros carry out the meaning of the body: they leave its state, return where it returns,
and add to the counter one for each failing assertion that it reaches. -/
theorem Stmt.exec_eq_meaning (b : Stmt σ) (s : σ) (h : Shared) :
    (b.exec s h).state = (b.meaning s).state ∧
      (b.exec s h).returned = (b.meaning s).returned ∧
      (b.exec s h).shared.failures =
        h.failures + BitVec.ofNat 32 (failing (b.meaning s).reached) := by
  induction b generalizing s h with
  | skip => simp [exec, meaning]
  | compute f => simp [exec, meaning]
  | seq a b iha ihb =>
    obtain ⟨hstate, hreturned, hfailures⟩ := iha s h
    obtain ⟨hstate', hreturned', hfailures'⟩ := ihb (a.exec s h).state (a.exec s h).shared
    simp only [exec, meaning, hreturned]
    by_cases hr : (a.meaning s).returned
    · simp [hr, hstate, hreturned, hfailures]
    · rw [hstate] at hstate' hreturned' hfailures'
      simp [hr, hstate, hstate', hreturned', hfailures', hfailures, BitVec.ofNat_add,
        BitVec.add_assoc]
  | branch c a b iha ihb =>
    simp only [exec, meaning]
    by_cases hc : (c s).1
    · simpa [hc] using iha (c s).2 h
    · simpa [hc] using ihb (c s).2 h
  | check site c => simp [exec, meaning, assert_failures]
  | require site c => simp [exec, meaning, assert_failures]
  | log m => simp [exec, meaning]
  | call helper ih =>
    obtain ⟨hstate, -, hfailures⟩ := ih s h
    simp [exec, meaning, hstate, hfailures]

end WasmCxxShim.Harness
