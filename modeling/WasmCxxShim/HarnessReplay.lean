import WasmCxxShim.HarnessAccounting

/-!
# Replayed static initialisers

A linker that wraps each export with the static initialisers registers the whole suite again on
every call. The registry has no test for an entry that is already there: a replay is harmless
only where the table is full or the suite is empty, and a triple that is registered twice is
run twice.
-/
namespace WasmCxxShim.Harness
open MachineWords

inductive HostStep
  | initialise
  | run
  deriving DecidableEq, Repr

structure Process (σ : Type*) where
  registry : Registry (TestFn σ)
  state : σ
  shared : Shared

variable {σ : Type*}

def hostStep (regs : List (TestEntry (TestFn σ))) (p : Process σ) : HostStep → Process σ
  | .initialise => { p with registry := registerAll p.registry regs }
  | .run =>
    let r := wcsRunTests p.registry p.state p.shared
    { p with state := r.state, shared := r.shared }

/-- The process after the history, from an empty table. -/
def processAfter (regs : List (TestEntry (TestFn σ))) (s : σ) (h : Shared)
    (history : List HostStep) : Process σ :=
  history.foldl (hostStep regs) ⟨.empty, s, h⟩

/-- The registrations that a history makes, in order. -/
def registrations (regs : List (TestEntry (TestFn σ))) (history : List HostStep) :
    List (TestEntry (TestFn σ)) :=
  history.flatMap fun step => if step = .initialise then regs else []

/-- The registry contract for a suite whose initialisers run first and then again in `rest`. -/
structure RegistryStable (regs : List (TestEntry (TestFn σ))) (rest : List HostStep) (s : σ)
    (h : Shared) : Prop where
  replay : (processAfter regs s h (.initialise :: rest)).registry =
    (processAfter regs s h [.initialise]).registry
  idempotent : ∀ pre t post, registrations regs (.initialise :: rest) = pre ++ t :: post →
    t ∈ (registerAll .empty pre).tests →
      (wcsRegisterTest (registerAll .empty pre) t).1 = registerAll .empty pre
  stable : ∀ before later, .initialise :: rest = before ++ later →
    (processAfter regs s h before).registry.tests <+:
      (processAfter regs s h (.initialise :: rest)).registry.tests
  runs : ∀ before later, rest = before ++ .run :: later →
    ∀ s' : σ, ∀ h' : Shared,
      let p := processAfter regs s h (.initialise :: before)
      let q := processAfter regs s h [.initialise]
      (wcsRunTests p.registry s' p.shared).charged = (wcsRunTests q.registry s' h').charged ∧
        (wcsRunTests p.registry s' p.shared).returned = (wcsRunTests q.registry s' h').returned

theorem registrations_append (regs : List (TestEntry (TestFn σ))) (before later : List HostStep) :
    registrations regs (before ++ later) = registrations regs before ++ registrations regs later :=
  List.flatMap_append

theorem registrations_initialise (regs : List (TestEntry (TestFn σ))) (rest : List HostStep) :
    registrations regs (.initialise :: rest) = regs ++ registrations regs rest := by
  simp [registrations]

theorem registrations_length (regs : List (TestEntry (TestFn σ))) (history : List HostStep) :
    (registrations regs history).length = history.count .initialise * regs.length := by
  induction history with
  | nil => simp [registrations]
  | cons step history ih =>
    have hcons : registrations regs (step :: history) =
        (if step = .initialise then regs else []) ++ registrations regs history := rfl
    cases step <;> simp [hcons, ih, Nat.succ_mul, Nat.add_comm]

theorem foldl_hostStep_tests (regs : List (TestEntry (TestFn σ))) (p : Process σ)
    (history : List HostStep) :
    (history.foldl (hostStep regs) p).registry.tests =
      (p.registry.tests ++ registrations regs history).take 4096 := by
  induction history generalizing p with
  | nil => simp [registrations, List.take_of_length_le p.registry.bounded]
  | cons step history ih =>
    rw [List.foldl_cons, ih]
    cases step with
    | initialise =>
      rw [registrations_initialise, hostStep, registerAll_tests, take_take_append,
        List.append_assoc]
    | run => rfl

theorem processAfter_tests (regs : List (TestEntry (TestFn σ))) (s : σ) (h : Shared)
    (history : List HostStep) :
    (processAfter regs s h history).registry.tests = (registrations regs history).take 4096 :=
  foldl_hostStep_tests regs _ history

theorem registerAll_empty_tests (ts : List (TestEntry (TestFn σ))) :
    (registerAll Registry.empty ts).tests = ts.take 4096 :=
  registerAll_tests Registry.empty ts

theorem nodup_iff_split {α : Type*} {xs : List α} :
    xs.Nodup ↔ ∀ pre t post, xs = pre ++ t :: post → t ∉ pre := by
  induction xs using List.reverseRecOn with
  | nil => simp
  | append_singleton xs x ih =>
    rw [← List.concat_eq_append, List.nodup_concat, List.concat_eq_append, ih]
    constructor
    · rintro ⟨hx, hxs⟩ pre t post hsplit
      rcases List.eq_nil_or_concat post with rfl | ⟨post, y, rfl⟩
      · obtain ⟨rfl, ht⟩ := List.append_inj' hsplit rfl
        rwa [← List.singleton_inj.mp ht]
      · have hsplit' : xs ++ [x] = (pre ++ t :: post) ++ [y] := by simpa using hsplit
        exact hxs pre t post (List.append_inj' hsplit' rfl).1
    · intro h
      exact ⟨h xs x [] rfl, fun pre t post hsplit => h pre t (post ++ [x]) (by simp [hsplit])⟩

/-- The replays leave the table as the first execution filled it. -/
def ReplaysHarmlessly (regs : List (TestEntry (TestFn σ))) (rest : List HostStep) : Prop :=
  rest.count .initialise = 0 ∨ regs = [] ∨ 4096 ≤ regs.length

theorem registrations_take {regs : List (TestEntry (TestFn σ))} {rest : List HostStep}
    (h : ReplaysHarmlessly regs rest) :
    (registrations regs (.initialise :: rest)).take 4096 = regs.take 4096 := by
  rw [registrations_initialise]
  by_cases hfull : 4096 ≤ regs.length
  · rw [List.take_append_of_le_length hfull]
  · have hlen := registrations_length regs rest
    have hnil : registrations regs rest = [] := by
      rcases h with h | h | h
      · simpa [h] using hlen
      · simpa [h] using hlen
      · exact absurd h hfull
    rw [hnil, List.append_nil]

/-- Registering a triple that is there changes nothing, exactly when no triple is registered
twice before the table is full. -/
theorem idempotent_iff {ts : List (TestEntry (TestFn σ))} :
    (∀ pre t post, ts = pre ++ t :: post → t ∈ (registerAll Registry.empty pre).tests →
      (wcsRegisterTest (registerAll Registry.empty pre) t).1 = registerAll Registry.empty pre) ↔
      (ts.take 4096).Nodup := by
  rw [nodup_iff_split]
  constructor
  · intro h pre t post hsplit hmem
    have hlen : pre.length < 4096 := by
      have := congrArg List.length hsplit
      simp only [List.length_take, List.length_append, List.length_cons] at this
      omega
    have hpre : (registerAll Registry.empty pre).tests = pre := by
      rw [registerAll_empty_tests, List.take_of_length_le hlen.le]
    have hts : ts = pre ++ t :: (post ++ ts.drop 4096) := by
      rw [← List.cons_append, ← List.append_assoc, ← hsplit, List.take_append_drop]
    have hsame := congrArg Registry.tests (h pre t _ hts (by rwa [hpre]))
    rw [wcsRegisterTest_tests, hpre, List.take_of_length_le (by simpa using hlen)] at hsame
    simpa using congrArg List.length hsame
  · intro h pre t post hsplit hmem
    apply Registry.ext
    rw [wcsRegisterTest_tests, registerAll_empty_tests] at *
    by_cases hfull : 4096 ≤ pre.length
    · rw [take_take_append, List.take_append_of_le_length hfull]
    · refine absurd (List.mem_of_mem_take hmem) (h pre t (post.take (4096 - pre.length - 1)) ?_)
      rw [hsplit, List.take_append, List.take_of_length_le (by omega),
        show 4096 - pre.length = 4096 - pre.length - 1 + 1 by omega, List.take_succ_cons]
      rfl

theorem replay_iff {regs : List (TestEntry (TestFn σ))} {rest : List HostStep} {s : σ}
    {h : Shared} :
    (processAfter regs s h (.initialise :: rest)).registry =
      (processAfter regs s h [.initialise]).registry ↔ ReplaysHarmlessly regs rest := by
  have honce : registrations regs [.initialise] = regs := by simp [registrations]
  constructor
  · intro hsame
    by_contra hharmful
    simp only [ReplaysHarmlessly, not_or, not_le] at hharmful
    obtain ⟨hcount, hne, hroom⟩ := hharmful
    have hlen := congrArg (fun r => r.tests.length) hsame
    simp only [processAfter_tests, honce, registrations_initialise, List.length_take,
      List.length_append, registrations_length] at hlen
    have := Nat.mul_pos (Nat.pos_of_ne_zero hcount) (List.length_pos_iff.mpr hne)
    omega
  · intro hharmless
    apply Registry.ext
    rw [processAfter_tests, processAfter_tests, registrations_take hharmless, honce]

/-- The registry contract holds of exactly the suites that register no triple twice before the
table is full, and that are replayed harmlessly. -/
theorem registryStable_iff (regs : List (TestEntry (TestFn σ))) (rest : List HostStep) (s : σ)
    (h : Shared) :
    RegistryStable regs rest s h ↔ (regs.take 4096).Nodup ∧ ReplaysHarmlessly regs rest := by
  constructor
  · rintro ⟨hreplay, hidem, -, -⟩
    have hharmless := replay_iff.mp hreplay
    rw [idempotent_iff, registrations_take hharmless] at hidem
    exact ⟨hidem, hharmless⟩
  · rintro ⟨hnodup, hharmless⟩
    refine ⟨replay_iff.mpr hharmless, ?_, ?_, ?_⟩
    · rwa [idempotent_iff, registrations_take hharmless]
    · intro before later hsplit
      rw [processAfter_tests, processAfter_tests, hsplit, registrations_append]
      exact (List.prefix_append _ _).take 4096
    · intro before later hsplit s' h'
      have hbefore : ReplaysHarmlessly regs before := by
        refine hharmless.imp_left fun hcount => ?_
        rw [hsplit, List.count_append] at hcount
        omega
      dsimp only
      rw [replay_iff.mpr hbefore]
      exact wcsRunTests_congr _ _ _ _

/-- Running the initialisers of one test a second time enters it twice. -/
theorem registryStable_replayed_once :
    (processAfter [passingTest] () ⟨0, Log.initial⟩ [.initialise]).registry.tests.length = 1 ∧
      (processAfter [passingTest] () ⟨0, Log.initial⟩
        [.initialise, .run, .initialise]).registry.tests = [passingTest, passingTest] ∧
      ¬ RegistryStable [passingTest] [.run, .initialise] () ⟨0, Log.initial⟩ := by
  refine ⟨?_, ?_, fun hstable => ?_⟩
  · rw [processAfter_tests]
    rfl
  · rw [processAfter_tests]
    rfl
  · have hlen := congrArg (fun r => r.tests.length) hstable.replay
    simp [processAfter_tests, registrations] at hlen

end WasmCxxShim.Harness
