import WasmCxxShim.HarnessRunner

/-!
# What a run reports

The runner's accounts are those of the bodies' meanings: each registered body runs once and in
order, each test is charged with the failing assertions that it reaches, and the returned value
counts the tests with a failure. The host turns that value into an exit status, which vouches
for the tests that were accepted into the table.
-/
namespace WasmCxxShim.Harness
open MachineWords

variable {σ : Type*}

/-- The accounts of a run of the registered tests from the program state `s`. The last message is
logged after the loop, and its arguments are the two counters and the number of tests. -/
structure Accounts (reg : Registry (TestFn σ)) (s : σ) (r : RunResult σ) : Prop where
  order : r.charged.map Prod.fst = reg.tests
  charged : r.charged.map (fun c => c.2.toInt) = (failureCounts reg.tests s).map Int.ofNat
  state : r.state = finalState reg.tests s
  returned : r.returned.toInt = (failureCounts reg.tests s).countP (0 < ·)
  total : (wcsTestCount reg).toNat = reg.tests.length
  logged : r.shared.log = (wcsLogPrintf r.looped r.summary).1
  format : r.summary.fmt = .lit "wasm-test-harness: %d passed, %d failed, %zu total\n"
  counts : r.summary.args = [.int r.passed, .int r.failed, .ulong (wcsTestCount reg)]
  summary : r.passed.toInt + r.failed.toInt = (wcsTestCount reg).toNat
  failed : r.failed = r.returned

theorem counterOf_toInt {n : ℕ} (h : n < 2 ^ 31) : (counterOf n).toInt = n := by
  rw [counterOf, toInt_ofNat_of_lt h]

theorem counterOf_eq_zero {n : ℕ} (h : n < 2 ^ 31) : counterOf n = 0#32 ↔ n = 0 := by
  constructor
  · intro hzero
    have := counterOf_toInt h
    rw [hzero] at this
    simpa using this.symm
  · rintro rfl
    rfl

theorem countP_counters_le (reg : Registry (TestFn σ)) (s : σ) (p : Word → Bool) :
    ((failureCounts reg.tests s).map counterOf).countP p ≤ 4096 := by
  have hlen : ((failureCounts reg.tests s).map counterOf).length = reg.tests.length := by simp
  have := List.countP_le_length (p := p) (l := (failureCounts reg.tests s).map counterOf)
  have hb := reg.bounded
  omega

/-- The runner keeps exact accounts of tests with fewer than 2^31 failures each, whatever the
counter and the log held before. -/
theorem wcsRunTests_accounts (reg : Registry (TestFn σ)) (s : σ)
    (hfew : ∀ n ∈ failureCounts reg.tests s, n < 2 ^ 31) (h h' : Shared) :
    Accounts reg s (wcsRunTests reg s h) ∧
      (wcsRunTests reg s h').charged = (wcsRunTests reg s h).charged ∧
      (wcsRunTests reg s h').returned = (wcsRunTests reg s h).returned := by
  obtain ⟨hstate, hcharged, hpassed, hfailed⟩ := wcsRunTests_eq reg s h
  have hbound := countP_counters_le reg s
  set counters := (failureCounts reg.tests s).map counterOf with hcounters
  have hlen : counters.length = reg.tests.length := by simp [hcounters]
  have htotal : (wcsTestCount reg).toNat = reg.tests.length :=
    toNat_ofNat_of_lt (lt_of_le_of_lt reg.bounded (by norm_num))
  refine ⟨⟨?_, ?_, hstate, ?_, htotal, rfl, rfl, rfl, ?_, rfl⟩, wcsRunTests_congr reg s h' h⟩
  · rw [hcharged, List.map_fst_zip hlen.ge]
  · have hsnd : ((wcsRunTests reg s h).charged.map Prod.snd).map BitVec.toInt =
        (failureCounts reg.tests s).map Int.ofNat := by
      rw [hcharged, List.map_snd_zip hlen.le, hcounters, List.map_map]
      exact List.map_congr_left fun n hn => counterOf_toInt (hfew n hn)
    rwa [List.map_map] at hsnd
  · have hnonzero : counters.countP (· ≠ 0) = (failureCounts reg.tests s).countP (0 < ·) := by
      rw [hcounters, List.countP_map]
      apply List.countP_congr
      intro n hn
      simp [counterOf_eq_zero (hfew n hn), Nat.pos_iff_ne_zero]
    rw [← hnonzero, ← counterOf_toInt (lt_of_le_of_lt (hbound _) (by norm_num)), ← hfailed]
    rfl
  · have hsplit := counters.length_eq_countP_add_countP (· = 0)
    rw [hpassed, hfailed, counterOf_toInt (lt_of_le_of_lt (hbound _) (by norm_num)),
      counterOf_toInt (lt_of_le_of_lt (hbound _) (by norm_num)), htotal, ← hlen, hsplit]
    simp

/-- `WCS_CHECK(0)` and `WCS_REQUIRE(0)` on a line of the self-test; the addresses of its functions
are made up. -/
def checkZero (line : Word) : Stmt Unit :=
  .check ⟨selfTestFile, line, zeroText⟩ fun s => (false, s)

def requireZero (line : Word) : Stmt Unit :=
  .require ⟨selfTestFile, line, zeroText⟩ fun s => (false, s)

/-- Failing tests of the self-test, and one whose helper is abandoned. -/
def selfTests : Registry (TestFn Unit) where
  tests :=
    [⟨.lit "WcsHarness", .lit "FailingCheck", 1, checkZero 39⟩,
      ⟨.lit "WcsHarness", .lit "MultipleFailingChecks", 2,
        .seq (checkZero 49) (.seq (checkZero 50) (checkZero 51))⟩,
      ⟨.lit "WcsHarness", .lit "RequireAbandonsTest", 3, .seq (requireZero 58) (checkZero 59)⟩,
      ⟨.lit "WcsHarness", .lit "HelperAbandoned", 4,
        .seq (.call (.seq (requireZero 63) (checkZero 64))) (checkZero 65)⟩]
  bounded := by decide

theorem wcsRunTests_accounts_selfTests :
    failureCounts selfTests.tests () = [1, 3, 1, 2] ∧
      Accounts selfTests () (wcsRunTests selfTests () ⟨0, Log.initial⟩) ∧
      (wcsRunTests selfTests () ⟨7, ⟨Log.initial.buffer, logCap⟩⟩).charged =
        (wcsRunTests selfTests () ⟨0, Log.initial⟩).charged ∧
      (wcsRunTests selfTests () ⟨7, ⟨Log.initial.buffer, logCap⟩⟩).returned =
        (wcsRunTests selfTests () ⟨0, Log.initial⟩).returned := by
  have hcounts : failureCounts selfTests.tests () = [1, 3, 1, 2] := by decide
  exact ⟨hcounts, wcsRunTests_accounts selfTests () (by rw [hcounts]; decide) _ _⟩

/-- `process.exit(failures === 0 ? 0 : 1)` -/
def exitStatus (failures : Word) : ℕ := if failures.toInt = 0 then 0 else 1

/-- The run executed the tests `ts`, in order, and none of them recorded between 1 and
2^31 - 1 failures. -/
def Vouches (r : RunResult σ) (ts : List (TestEntry (TestFn σ))) (s : σ) : Prop :=
  r.charged.map Prod.fst = ts ∧ ∀ n ∈ failureCounts ts s, n < 2 ^ 31 → n = 0

/-- Exit status 0 vouches for the first 4096 registrations, which are those that
`wcs_register_test` accepts. -/
theorem exitStatus_zero_vouches (regs : List (TestEntry (TestFn σ))) (s : σ) (h : Shared)
    (hexit : exitStatus (wcsRunTests (registerAll .empty regs) s h).returned = 0) :
    Vouches (wcsRunTests (registerAll .empty regs) s h) (regs.take 4096) s := by
  have htests : (registerAll Registry.empty regs).tests = regs.take 4096 := by
    rw [registerAll_tests, Registry.empty, List.nil_append]
  generalize registerAll Registry.empty regs = reg at *
  obtain ⟨-, hcharged, -, hfailed⟩ := wcsRunTests_eq reg s h
  have hbound := countP_counters_le reg s
  set counters := (failureCounts reg.tests s).map counterOf with hcounters
  have hlen : counters.length = reg.tests.length := by simp [hcounters]
  rw [← htests]
  refine ⟨?_, ?_⟩
  · rw [hcharged, List.map_fst_zip hlen.ge]
  · intro n hn hsmall
    have hreturned : (wcsRunTests reg s h).returned.toInt = counters.countP (· ≠ 0) := by
      rw [← counterOf_toInt (lt_of_le_of_lt (hbound _) (by norm_num)), ← hfailed]
      rfl
    have hzero : counters.countP (· ≠ 0) = 0 := by
      unfold exitStatus at hexit
      split_ifs at hexit with hret
      omega
    have := List.countP_eq_zero.mp hzero (counterOf n) (by rw [hcounters]; exact List.mem_map_of_mem hn)
    simpa [counterOf_eq_zero hsmall] using this

/-- `WCS_REQUIRE(1)` and then `WCS_CHECK(1)`. -/
def passingTest : TestEntry (TestFn Unit) :=
  ⟨.lit "WcsHarness", .lit "RequirePassing", 5,
    .seq (.require ⟨selfTestFile, 32, .lit "1"⟩ fun s => (true, s))
      (.check ⟨selfTestFile, 33, .lit "1"⟩ fun s => (true, s))⟩

def failingTest : TestEntry (TestFn Unit) :=
  ⟨.lit "WcsHarness", .lit "FailingCheck", 1, checkZero 39⟩

/-- A table full of passing tests, and one more test that fails. -/
def overfull : List (TestEntry (TestFn Unit)) := List.replicate 4096 passingTest ++ [failingTest]

theorem failureCounts_replicate_passing (n : ℕ) :
    failureCounts (List.replicate n passingTest) () = List.replicate n 0 := by
  induction n with
  | zero => rfl
  | succ n ih =>
    rw [List.replicate_succ, List.replicate_succ, ← ih]
    rfl

theorem exitStatus_of_passing (n : ℕ) (reg : Registry (TestFn Unit))
    (htests : reg.tests = List.replicate n passingTest) (h : Shared) :
    exitStatus (wcsRunTests reg () h).returned = 0 := by
  obtain ⟨-, -, -, hfailed⟩ := wcsRunTests_eq reg () h
  have hreturned : (wcsRunTests reg () h).returned = (wcsRunTests reg () h).failed := rfl
  have hzero : counterOf 0 = (0 : Word) := rfl
  rw [exitStatus, hreturned, hfailed, htests, failureCounts_replicate_passing, List.map_replicate,
    List.countP_replicate, hzero]
  rfl

theorem registerAll_overfull :
    (registerAll Registry.empty overfull).tests = List.replicate 4096 passingTest := by
  rw [registerAll_tests, Registry.empty, List.nil_append, overfull,
    List.take_left' (List.length_replicate)]

/-- Exit status 0 vouches for the 4096 tests of the full table. -/
theorem exitStatus_zero_vouches_overfull :
    Vouches (wcsRunTests (registerAll .empty overfull) () ⟨0, Log.initial⟩)
      (overfull.take 4096) () :=
  exitStatus_zero_vouches overfull () ⟨0, Log.initial⟩
    (exitStatus_of_passing 4096 _ registerAll_overfull _)

/-- The failing test is dropped, never run, and the exit status is 0. -/
theorem exitStatus_zero_overfull :
    exitStatus (wcsRunTests (registerAll .empty overfull) () ⟨0, Log.initial⟩).returned = 0 ∧
      failing (failingTest.fn.body.meaning ()).reached = 1 ∧
      ¬ Vouches (wcsRunTests (registerAll .empty overfull) () ⟨0, Log.initial⟩) overfull () := by
  refine ⟨exitStatus_of_passing 4096 _ registerAll_overfull _, rfl, ?_⟩
  rintro ⟨horder, -⟩
  have hlen := congrArg List.length horder
  obtain ⟨-, hcharged, -, -⟩ :=
    wcsRunTests_eq (registerAll Registry.empty overfull) () ⟨0, Log.initial⟩
  rw [hcharged, registerAll_overfull, List.length_map, List.length_zip, List.length_replicate, overfull,
    List.length_append, List.length_replicate, List.length_singleton] at hlen
  omega

end WasmCxxShim.Harness
