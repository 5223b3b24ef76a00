import WasmCxxShim.HarnessStatements

/-!
# The registry and the runner

`wcs_register_test` appends to a table of 4096 entries and drops what comes after. The runner
walks the table in order with a fresh failure counter for each test, and sums up in two counters.
Beside its result the run keeps a record of the bodies it called and the failure count that each
of them left, and its final message.
-/
namespace WasmCxxShim.Harness
open MachineWords

/-- `wcs_test_fn`: the address of a function, and the body that is there. -/
structure TestFn (σ : Type*) where
  address : Word
  body : Stmt σ

structure TestEntry (φ : Type*) where
  suite : CString
  name : CString
  fn : φ
  deriving DecidableEq

/-- The filled part of `wcs_tests[WCS_MAX_TESTS]`; its length is `wcs_test_n`. -/
@[ext] structure Registry (φ : Type*) where
  tests : List (TestEntry φ)
  bounded : tests.length ≤ 4096

variable {φ σ : Type*}

def Registry.empty : Registry φ := ⟨[], by simp⟩

/-- `wcs_register_test`, with the value it returns. -/
def wcsRegisterTest (r : Registry φ) (t : TestEntry φ) : Registry φ × Word :=
  if h : 4096 ≤ r.tests.length then (r, 0)
  else (⟨r.tests ++ [t], by rw [List.length_append, List.length_singleton]; omega⟩,
    BitVec.ofNat 32 (r.tests.length + 1))

/-- `wcs_test_count` -/
def wcsTestCount (r : Registry φ) : Word := BitVec.ofNat 32 r.tests.length

/-- Register the tests in order, as the static initialisers do: the returned values are
ignored. -/
def registerAll (r : Registry φ) (ts : List (TestEntry φ)) : Registry φ :=
  ts.foldl (fun r t => (wcsRegisterTest r t).1) r

theorem wcsRegisterTest_tests (r : Registry φ) (t : TestEntry φ) :
    (wcsRegisterTest r t).1.tests = (r.tests ++ [t]).take 4096 := by
  have hb := r.bounded
  unfold wcsRegisterTest
  split_ifs with h
  · rw [List.take_append_of_le_length h, List.take_of_length_le hb]
  · rw [List.take_of_length_le (by rw [List.length_append, List.length_singleton]; omega)]

theorem take_take_append (n : ℕ) {α : Type*} (xs ys : List α) :
    (xs.take n ++ ys).take n = (xs ++ ys).take n := by
  simp [List.take_append, List.take_take, List.length_take]
  omega

theorem registerAll_tests (r : Registry φ) (ts : List (TestEntry φ)) :
    (registerAll r ts).tests = (r.tests ++ ts).take 4096 := by
  induction ts generalizing r with
  | nil => simp [registerAll, List.take_of_length_le r.bounded]
  | cons t ts ih =>
    rw [registerAll, List.foldl_cons, ← registerAll, ih, wcsRegisterTest_tests, take_take_append,
      List.append_assoc, List.singleton_append]

def headerMessage (i count : Word) (suite name : CString) : Message where
  fmt := .lit "[%4zu/%4zu] %s.%s ... "
  args := [.ulong i, .ulong count, .str suite, .str name]
  matched := by
    have hparse : parse (CString.lit "[%4zu/%4zu] %s.%s ... ").bytes =
        .ordinary (ascii '[') :: .conversion 4 true .unsigned :: .ordinary (ascii '/') ::
          .conversion 4 true .unsigned :: .ordinary (ascii ']') :: .ordinary (ascii ' ') ::
          .conversion 0 false .string :: .ordinary (ascii '.') :: .conversion 0 false .string ::
          (bytesOf " ... ").map .ordinary := by decide +kernel
    rw [hparse]
    rfl

def failedMessage (failures : Word) : Message where
  fmt := .lit "FAILED (%d assertion failures)\n"
  args := [.int failures]
  matched := by
    have hparse : parse (CString.lit "FAILED (%d assertion failures)\n").bytes =
        (bytesOf "FAILED (").map .ordinary ++ .conversion 0 false .signed ::
          (bytesOf " assertion failures)\n").map .ordinary := by decide +kernel
    rw [hparse]
    rfl

def summaryMessage (passed failed total : Word) : Message where
  fmt := .lit "wasm-test-harness: %d passed, %d failed, %zu total\n"
  args := [.int passed, .int failed, .ulong total]
  matched := by
    have hparse : parse
        (CString.lit "wasm-test-harness: %d passed, %d failed, %zu total\n").bytes =
          (bytesOf "wasm-test-harness: ").map .ordinary ++ .conversion 0 false .signed ::
            ((bytesOf " passed, ").map .ordinary ++ .conversion 0 false .signed ::
              ((bytesOf " failed, ").map .ordinary ++ .conversion 0 true .unsigned ::
                (bytesOf " total\n").map .ordinary)) := by decide +kernel
    rw [hparse]
    rfl

/-- The variables of `wcs_run_tests` and of the program, with the record of the bodies called
and the failure count that each of them left. -/
structure RunState (σ : Type*) where
  state : σ
  shared : Shared
  passed : Word
  failed : Word
  charged : List (TestEntry (TestFn σ) × Word)

/-- The body of the test loop. -/
def runTest (count : Word) (i : ℕ) (t : TestEntry (TestFn σ)) (r : RunState σ) : RunState σ :=
  let header := headerMessage (BitVec.ofNat 32 (i + 1)) count t.suite t.name
  let body := t.fn.body.exec r.state ⟨0, (wcsLogPrintf r.shared.log header).1⟩
  let h := body.shared
  let charged := r.charged ++ [(t, h.failures)]
  if h.failures = 0 then
    ⟨body.state, { h with log := wcsLogStr h.log (.lit "ok\n") }, r.passed + 1, r.failed, charged⟩
  else
    ⟨body.state, { h with log := (wcsLogPrintf h.log (failedMessage h.failures)).1 }, r.passed,
      r.failed + 1, charged⟩

/-- `for (size_t i = 0; i < wcs_test_n; ++i)` from index `i` on. -/
def runLoop (count : Word) : ℕ → List (TestEntry (TestFn σ)) → RunState σ → RunState σ
  | _, [], r => r
  | i, t :: ts, r => runLoop count (i + 1) ts (runTest count i t r)

/-- What a run leaves, with the log at the end of its loop, the message it then logs and the
counters, and the value it returns. -/
structure RunResult (σ : Type*) where
  state : σ
  shared : Shared
  charged : List (TestEntry (TestFn σ) × Word)
  looped : Log
  summary : Message
  passed : Word
  failed : Word
  returned : Word

def wcsRunTests (reg : Registry (TestFn σ)) (s : σ) (h : Shared) : RunResult σ :=
  let log := wcsLogStr h.log startingText
  let r := runLoop (wcsTestCount reg) 0 reg.tests ⟨s, { h with log := log }, 0, 0, []⟩
  let summary := summaryMessage r.passed r.failed (wcsTestCount reg)
  let log := (wcsLogPrintf r.shared.log summary).1
  ⟨r.state, { r.shared with log := log }, r.charged, r.shared.log, summary, r.passed, r.failed,
    r.failed⟩

/-- The meanings of the bodies run one after the other. -/
def meanings : List (TestEntry (TestFn σ)) → σ → List (Meaning σ)
  | [], _ => []
  | t :: ts, s => t.fn.body.meaning s :: meanings ts (t.fn.body.meaning s).state

def finalState (ts : List (TestEntry (TestFn σ))) (s : σ) : σ :=
  ts.foldl (fun s t => (t.fn.body.meaning s).state) s

/-- The number of failing assertions that each test reaches. -/
def failureCounts (ts : List (TestEntry (TestFn σ))) (s : σ) : List ℕ :=
  (meanings ts s).map fun m => failing m.reached

/-- The counter of a test is an `int`: a test fails for the runner when its count is not a
multiple of 2^32. -/
def counterOf (n : ℕ) : Word := BitVec.ofNat 32 n

@[simp] theorem failureCounts_length (ts : List (TestEntry (TestFn σ))) (s : σ) :
    (failureCounts ts s).length = ts.length := by
  induction ts generalizing s with
  | nil => rfl
  | cons t ts ih => simpa [failureCounts, meanings] using ih _

theorem runTest_eq (count : Word) (i : ℕ) (t : TestEntry (TestFn σ)) (r : RunState σ) :
    let n := counterOf (failing (t.fn.body.meaning r.state).reached)
    (runTest count i t r).state = (t.fn.body.meaning r.state).state ∧
      (runTest count i t r).charged = r.charged ++ [(t, n)] ∧
      (runTest count i t r).passed = r.passed + (if n = 0 then 1 else 0) ∧
      (runTest count i t r).failed = r.failed + (if n = 0 then 0 else 1) := by
  have hexec := fun h => Stmt.exec_eq_meaning t.fn.body r.state h
  unfold runTest
  extract_lets n header body h charged
  obtain ⟨hstate, -, hfailures⟩ := hexec ⟨0, (wcsLogPrintf r.shared.log header).1⟩
  have hn : h.failures = n := hfailures.trans (BitVec.zero_add _)
  simp only [charged, hn]
  by_cases hzero : n = 0
  · simp only [if_pos hzero]
    exact ⟨hstate, trivial, trivial, (BitVec.add_zero _).symm⟩
  · simp only [if_neg hzero]
    exact ⟨hstate, trivial, (BitVec.add_zero _).symm, trivial⟩

theorem counterOf_countP_cons (p : Word → Bool) (n : Word) (ns : List Word) :
    counterOf ((n :: ns).countP p) = (if p n then 1 else 0) + counterOf (ns.countP p) := by
  cases h : p n <;> simp [h, counterOf, BitVec.ofNat_add, BitVec.add_comm]

/-- The run lemma: what the loop does to the counters and to the record is determined by the
meanings of the bodies. -/
theorem runLoop_eq (count : Word) (i : ℕ) (ts : List (TestEntry (TestFn σ))) (r : RunState σ) :
    let counters := (failureCounts ts r.state).map counterOf
    (runLoop count i ts r).state = finalState ts r.state ∧
      (runLoop count i ts r).charged = r.charged ++ ts.zip counters ∧
      (runLoop count i ts r).passed = r.passed + counterOf (counters.countP (· = 0)) ∧
      (runLoop count i ts r).failed = r.failed + counterOf (counters.countP (· ≠ 0)) := by
  induction ts generalizing i r with
  | nil => simp [runLoop, finalState, failureCounts, meanings, counterOf]
  | cons t ts ih =>
    obtain ⟨hstate, hcharged, hpassed, hfailed⟩ := runTest_eq count i t r
    obtain ⟨ihstate, ihcharged, ihpassed, ihfailed⟩ := ih (i + 1) (runTest count i t r)
    rw [hstate] at ihstate ihcharged ihpassed ihfailed
    have hcounts : failureCounts (t :: ts) r.state = failing (t.fn.body.meaning r.state).reached ::
        failureCounts ts (t.fn.body.meaning r.state).state := rfl
    simp only [runLoop, hcounts, List.map_cons, counterOf_countP_cons, decide_eq_true_eq]
    refine ⟨ihstate, ?_, ?_, ?_⟩
    · simp [ihcharged, hcharged]
    · rw [ihpassed, hpassed, BitVec.add_assoc]
    · rw [ihfailed, hfailed, BitVec.add_assoc, ite_not]

theorem wcsRunTests_eq (reg : Registry (TestFn σ)) (s : σ) (h : Shared) :
    let counters := (failureCounts reg.tests s).map counterOf
    (wcsRunTests reg s h).state = finalState reg.tests s ∧
      (wcsRunTests reg s h).charged = reg.tests.zip counters ∧
      (wcsRunTests reg s h).passed = counterOf (counters.countP (· = 0)) ∧
      (wcsRunTests reg s h).failed = counterOf (counters.countP (· ≠ 0)) := by
  obtain ⟨hstate, hcharged, hpassed, hfailed⟩ := runLoop_eq (wcsTestCount reg) 0
    reg.tests ⟨s, { h with log := wcsLogStr h.log startingText }, 0, 0, []⟩
  exact ⟨hstate, hcharged, hpassed.trans (BitVec.zero_add _), hfailed.trans (BitVec.zero_add _)⟩

/-- A run does not depend on the counter and the log that it finds. -/
theorem wcsRunTests_congr (reg : Registry (TestFn σ)) (s : σ) (h h' : Shared) :
    (wcsRunTests reg s h).charged = (wcsRunTests reg s h').charged ∧
      (wcsRunTests reg s h).returned = (wcsRunTests reg s h').returned := by
  obtain ⟨-, hcharged, -, hfailed⟩ := wcsRunTests_eq reg s h
  obtain ⟨-, hcharged', -, hfailed'⟩ := wcsRunTests_eq reg s h'
  exact ⟨hcharged.trans hcharged'.symm, hfailed.trans hfailed'.symm⟩

end WasmCxxShim.Harness
