import WasmCxxShim.DlmallocOutcomes
import WasmCxxShim.DlmallocRequestRules

/-!
# The increments that `sys_alloc` passes to `sbrk`

A run is free of traps and of bad increments exactly when no call of `sys_alloc` in it starts in
a state of `ReleaseAttempt`, where the source tries to give memory back.
-/
namespace WasmCxxShim.Dlmalloc
open MachineWords HaltingPrograms LinearMemory

/-- Every increment that `sbrk` was called with is a nonnegative multiple of the page size. -/
def GoodCalls (e : Env) : Prop := ∀ i ∈ e.sbrkCalls, GoodIncrement i

theorem GoodCalls.grew {n : ℕ} {e e' : Env} (h : GoodCalls e) (hgrew : Grew n e e') :
    GoodCalls e' := by
  intro i hi
  rcases hgrew.calls i hi with hi | hi
  · exact h i hi
  · exact hi

section Frame

variable {P : Env → Prop}

theorem tryInitAllocator_env {layout : HeapLayout} {w : World} (h : P w.env) :
    wp (tryInitAllocator layout) (fun _ w' => P w'.env)
      (fun r w' => r ≠ .sbrkTrap ∧ P w'.env) w := by
  rw [tryInitAllocator]
  dsimp only
  split_ifs
  · exact ⟨by decide, h⟩
  · exact h
  · exact h

theorem ensureInitialized_env {layout : HeapLayout} {w : World} (h : P w.env) :
    wp (ensureInitialized layout) (fun _ w' => P w'.env)
      (fun r w' => r ≠ .sbrkTrap ∧ P w'.env) w := by
  rw [ensureInitialized, wp_bind, wp_read]
  split_ifs
  · exact h
  · exact tryInitAllocator_env h

theorem dispose_env {d : Disposal} {w : World} (h : P w.env) :
    wp (dispose d) (fun _ w' => P w'.env) (fun r w' => r ≠ .sbrkTrap ∧ P w'.env) w := by
  cases d with
  | binned chunks => exact h
  | intoTop p psize chunks =>
    rw [dispose, wp_bind, wp_read]
    split_ifs
    · exact h
    · exact ⟨by decide, h⟩

theorem tryReallocChunk_env {nb : Word} {r : Resize} {w : World} (h : P w.env) :
    wp (tryReallocChunk nb r) (fun _ w' => P w'.env)
      (fun r w' => r ≠ .sbrkTrap ∧ P w'.env) w := by
  cases r with
  | refused => exact h
  | inPlace chunks remainder =>
    rw [tryReallocChunk, wp_bind]
    change wp (remainder.forM dispose >>= fun _ => pure true) _ _ _
    rw [wp_bind]
    cases remainder with
    | none => exact h
    | some d => exact dispose_env (w := { w with gm := { w.gm with chunks := chunks } }) h
  | intoTop p oldsize chunks =>
    rw [tryReallocChunk, wp_bind, wp_read]
    dsimp only
    split_ifs
    · exact h
    · exact h
    · exact ⟨by decide, h⟩

theorem keeps_env (layout : HeapLayout) (hgrow : ∀ delta e, P e → P (foreignGrow delta e)) :
    Keeps layout (fun w => P w.env) where
  init _ h := ensureInitialized_env h
  bins _ _ h := h
  split _ _ h _ _ := h
  dispose _ _ h := dispose_env h
  resize _ _ _ h := tryReallocChunk_env h
  grow delta w h := hgrow delta w.env h

end Frame

theorem allocateFromTop_env (nb : Word) (w : World) :
    ∃ mem gm, allocateFromTop nb w = .ok mem ⟨w.env, gm⟩ := by
  rw [allocateFromTop, read_bind_apply]
  split_ifs
  · exact ⟨_, _, rfl⟩
  · exact ⟨_, _, rfl⟩

theorem useRegion_env (nb tbase tsize : Word) (w : World) :
    ∃ mem gm, useRegion nb tbase tsize w = .ok mem ⟨w.env, gm⟩ := by
  rw [useRegion, read_bind_apply]
  generalize installRegion nb tbase tsize w.gm = result
  obtain ⟨mem | mem, m⟩ := result
  · exact allocateFromTop_env nb ⟨w.env, m⟩
  · exact ⟨mem, m, rfl⟩

theorem sysAlloc_increments {nb : Word} {w : World} (htop : w.gm.topsize ≤ nb)
    (hrelease : ¬ ReleaseAttempt nb w) (h : GoodCalls w.env) :
    wp (sysAlloc nb) (fun _ w' => GoodCalls w'.env)
      (fun r w' => r ≠ .sbrkTrap ∧ GoodCalls w'.env) w := by
  have hcases := sysAlloc_cases nb htop
  have hregion : ∀ n e, Grew n w.env e → ∀ tsize, (useRegion nb (breakAddr w.env) tsize
      { w with env := e }).Meets (fun _ w' => GoodCalls w'.env)
        (fun r w' => r ≠ .sbrkTrap ∧ GoodCalls w'.env) := by
    intro n e hgrew tsize
    obtain ⟨mem, gm, hrun⟩ := useRegion_env nb (breakAddr w.env) tsize { w with env := e }
    rw [hrun]
    exact h.grew hgrew
  unfold wp
  generalize hrun : sysAlloc nb w = outcome at hcases ⊢
  cases hcases with
  | exhausted e gm grew same short inside => exact h.grew grew
  | leaked e grew reaches => exact h.grew grew
  | extended n e ss grew => exact hregion _ e grew n
  | granted n e grew => exact hregion _ e grew n
  | undersized n e grew => exact hregion _ e grew n
  | trapped e release => exact absurd release hrelease

theorem sysAlloc_traps {nb : Word} {w : World} (htop : w.gm.topsize ≤ nb)
    (h : wp (sysAlloc nb) (fun _ _ => True) (fun r _ => r ≠ .sbrkTrap) w) :
    ¬ ReleaseAttempt nb w := by
  have hcases := sysAlloc_cases nb htop
  unfold wp at h
  generalize sysAlloc nb w = outcome at hcases h
  cases hcases with
  | exhausted e gm grew same short => exact fun hrel => short hrel.toPartialGrowth
  | leaked e grew reaches =>
    exact fun hrel => by simpa [hrel.contiguous] using reaches.noncontiguous
  | extended n e ss grew enough page holding adjacent short =>
    exact fun hrel => short hrel.toPartialGrowth
  | granted n e grew enough release => exact release
  | undersized n e grew pos short oversized =>
    exact fun hrel => BitVec.not_le.mpr hrel.extra_small oversized.extra_large
  | trapped e release => exact absurd rfl h

/-- The request makes no call of `sys_alloc` in a state of `ReleaseAttempt`. -/
def AvoidsRelease (layout : HeapLayout) : Request → World → Prop :=
  RequestCalls layout fun nb w => ¬ ReleaseAttempt nb w

/-- The run neither traps in `sbrk` nor calls it with a bad increment. -/
def IncrementsGood (layout : HeapLayout) (requests : List Request) (w : World) : Prop :=
  wp (runAll (step layout) requests) (fun _ w' => GoodCalls w'.env)
    (fun r w' => r ≠ .sbrkTrap ∧ GoodCalls w'.env) w

theorem goodCalls_foreignGrow {delta : Word} {e : Env} (h : GoodCalls e) :
    GoodCalls (foreignGrow delta e) := by
  unfold GoodCalls
  rw [foreignGrow_sbrkCalls]
  exact h

/-- A run from the initial world is free of traps and bad increments if and only if all its
requests avoid the attempt to release memory. -/
theorem run_increments_iff (layout : HeapLayout) (memory : Memory) (requests : List Request) :
    IncrementsGood layout requests (World.initial memory) ↔
      Along (step layout) (AvoidsRelease layout) requests (World.initial memory) := by
  constructor
  · intro h
    refine along_of_runAll_wp (fun r _ => r ≠ .sbrkTrap) (fun request w hw => ?_) requests
      (wp_mono h (fun _ _ _ => trivial) fun _ _ h => h.1)
    exact RequestCalls.mono (fun nb w' _ htop hcall => sysAlloc_traps htop hcall)
      (requestCalls_of_wp hw)
  · intro h
    refine runAll_wp (fun w => GoodCalls w.env) (fun request w hw hgood => ?_) requests
      (by simp [GoodCalls, World.initial]) h
    refine step_wp (fun _ _ hr hw => ⟨hr, hw⟩)
      (keeps_env layout fun delta e => goodCalls_foreignGrow) hw ?_
    exact RequestCalls.mono (fun nb w' _ htop hrelease hw' =>
      sysAlloc_increments htop hrelease hw') hgood

/-- Another party grows memory by a page, and the next request needs two more pages than fit. -/
theorem run_increments_negative :
    (runAll (step ⟨65536#32, 196608#32⟩) [.grow 1, .malloc 131004 none]
      (World.initial ⟨3, 6, by decide, by decide⟩)).state.env.sbrkCalls = [65536, 131072, -65536] ∧
    ¬ IncrementsGood ⟨65536#32, 196608#32⟩ [.grow 1, .malloc 131004 none]
      (World.initial ⟨3, 6, by decide, by decide⟩) := by
  refine ⟨by decide +kernel, fun h => (wp_reason h (e := .sbrkTrap) (by decide +kernel)).1 rfl⟩

end WasmCxxShim.Dlmalloc
