import WasmCxxShim.DlmallocAcquisition

/-!
# How a call of `sys_alloc` ends

The noncontiguous path, and with the contiguous one the six ways in which `sys_alloc` ends for a
request that top cannot serve: nothing was acquired, a region at the break goes to `useRegion`,
memory that ends at the end of the address space is lost, or `sbrk` traps.
-/
namespace WasmCxxShim.Dlmalloc
open MachineWords HaltingPrograms LinearMemory

/-- The ends of the noncontiguous path. -/
inductive Noncontiguous (nb : Word) (w : World) : Outcome Halt World (Word × Word) → Prop
  | granted (e : Env) (grew : Grew (systemSize nb).toNat w.env e)
      (small : systemSize nb < halfMaxSizeT) (fits : Fits (systemSize nb) w.env)
      (inside : w.env.memory.bytes + (systemSize nb).toNat < 4294967296) :
      Noncontiguous nb w (.ok (breakAddr w.env, systemSize nb) { w with env := e })
  | failed (e : Env) (grew : Grew 0 w.env e)
      (unfit : systemSize nb < halfMaxSizeT → ¬ Fits (systemSize nb) w.env) :
      Noncontiguous nb w (.ok (cmFail, 0) { w with env := e })
  | leaked (e : Env) (grew : Grew (systemSize nb).toNat w.env e)
      (small : systemSize nb < halfMaxSizeT) (fits : Fits (systemSize nb) w.env)
      (finish : w.env.memory.bytes + (systemSize nb).toNat = 4294967296) :
      Noncontiguous nb w (.ok (cmFail, 0) { w with env := e })

theorem growNoncontiguous_run {nb asize br finish : Word} {w w' w'' : World}
    (hlt : asize < halfMaxSizeT) (hbr : callMorecore asize w = .ok br w')
    (hfinish : callMorecore 0 w' = .ok finish w'') :
    growNoncontiguous nb asize w = .ok (if br ≠ cmFail ∧ finish ≠ cmFail ∧ br < finish ∧
      nb + topFootSize < finish - br then (br, finish - br) else (cmFail, 0)) w'' := by
  rw [growNoncontiguous, if_pos hlt, bind_ok hbr, bind_ok hfinish]
  split_ifs <;> rfl

theorem growNoncontiguous_large {nb asize : Word} {w : World} (hlt : ¬ asize < halfMaxSizeT) :
    growNoncontiguous nb asize w = .ok (cmFail, 0) w := by
  rw [growNoncontiguous, if_neg hlt, pure_apply]

theorem growNoncontiguous_cases {nb : Word} {w : World} (h : nb < systemSize nb) :
    Noncontiguous nb w (growNoncontiguous nb (systemSize nb) w) := by
  have hbounds := systemSize_bounds h
  by_cases hlt : systemSize nb < halfMaxSizeT
  · have hpage := pageIncrement_systemSize h hlt
    by_cases hfits : Fits (systemSize nb) w.env
    · have hgrew := (grew_called_grown hpage hfits).trans (grew_called goodIncrement_zero)
      rw [Nat.add_zero] at hgrew
      have hbreak := toNat_breakAddr (grown (systemSize nb) w.env hfits)
      have hlow := toNat_breakAddr_of_lt (fits_lt hpage hfits)
      have hle := bytes_le (grown (systemSize nb) w.env hfits).memory
      rw [grown_bytes hpage.2.2 hfits] at hbreak hle
      rw [growNoncontiguous_run hlt (callMorecore_ok (sbrk_ok hpage hfits)) (callMorecore_zero _),
        breakAddr_called]
      by_cases hend : w.env.memory.bytes + (systemSize nb).toNat = 4294967296
      · have hno : ¬ breakAddr w.env < breakAddr (grown (systemSize nb) w.env hfits) := by
          rw [word_lt, hbreak, hend]
          omega
        rw [if_neg fun hall => hno hall.2.2.1]
        exact .leaked _ hgrew hlt hfits hend
      · have hsize : breakAddr (grown (systemSize nb) w.env hfits) - breakAddr w.env =
            systemSize nb := by
          bv_omega
        have hyes : breakAddr w.env < breakAddr (grown (systemSize nb) w.env hfits) := by
          rw [word_lt, hbreak]
          omega
        have hfoot : nb + topFootSize < systemSize nb := by
          rw [topFootSize_eq]
          bv_omega
        rw [hsize, if_pos ⟨breakAddr_ne_cmFail _, breakAddr_ne_cmFail _, hyes, hfoot⟩]
        exact .granted _ hgrew hlt hfits (by omega)
    · rw [growNoncontiguous_run hlt (callMorecore_ok (sbrk_fail hpage hfits))
        (callMorecore_zero _), if_neg fun hall => hall.1 (by decide)]
      exact .failed _ ((grew_called (goodIncrement_of_page hpage)).trans
        (grew_called goodIncrement_zero)) fun _ => hfits
  · rw [growNoncontiguous_large hlt]
    exact .failed _ (Grew.refl _) fun h => absurd h hlt

theorem sysAlloc_rejected {nb : Word} {w : World} (h : ¬ Admitted nb w.gm) :
    sysAlloc nb w = .ok 0 w := by
  unfold Admitted systemSize at h
  by_cases hwrap : granularityAlign (nb + sysAllocPadding) ≤ nb
  · simp only [sysAlloc, hwrap, ↓reduceIte, pure_apply]
  · have hlimit : w.gm.footprintLimit ≠ 0 ∧
        (w.gm.footprint + granularityAlign (nb + sysAllocPadding) ≤ w.gm.footprint ∨
          w.gm.footprintLimit < w.gm.footprint + granularityAlign (nb + sysAllocPadding)) := by
      rw [BitVec.not_le] at hwrap
      by_contra hno
      refine h ⟨hwrap, ?_⟩
      by_cases hzero : w.gm.footprintLimit = 0
      · exact Or.inl hzero
      · refine Or.inr ?_
        simp only [not_and, not_or, BitVec.not_le, BitVec.not_lt] at hno
        exact hno hzero
    simp only [sysAlloc, hwrap, ↓reduceIte, read_bind_apply, hlimit, ne_eq, not_false_eq_true,
      and_self, pure_apply]

theorem acquireRegion_contiguous (nb asize : Word) {w : World}
    (hcontig : useNoncontiguous w.gm = false) :
    acquireRegion nb asize w = (growContiguous nb asize >>= fun region =>
      if region.1 = cmFail then growNoncontiguous nb asize else pure region) w := by
  rw [acquireRegion, read_bind_apply, if_neg (by rw [hcontig]; exact Bool.false_ne_true)]

theorem acquireRegion_noncontiguous (nb asize : Word) {w : World}
    (hcontig : useNoncontiguous w.gm = true) :
    acquireRegion nb asize w = growNoncontiguous nb asize w := by
  rw [acquireRegion, read_bind_apply, if_pos hcontig, pure_bind_apply, if_pos rfl]

theorem sysAlloc_admitted {nb : Word} {w : World} (h : Admitted nb w.gm) :
    sysAlloc nb w = (acquireRegion nb (systemSize nb) >>= fun region =>
      if region.1 = cmFail then pure 0 else useRegion nb region.1 region.2) w := by
  have hwrap : ¬ systemSize nb ≤ nb := BitVec.not_le.mpr h.1
  have hlimit : ¬ (w.gm.footprintLimit ≠ 0 ∧ (w.gm.footprint + systemSize nb ≤ w.gm.footprint ∨
      w.gm.footprintLimit < w.gm.footprint + systemSize nb)) := by
    rintro ⟨hne, hbad⟩
    obtain ⟨hlt, hle⟩ := h.2.resolve_left hne
    rcases hbad with hbad | hbad
    · exact BitVec.not_le.mpr hlt hbad
    · exact BitVec.not_le.mpr hbad hle
  unfold systemSize at hwrap hlimit
  simp only [sysAlloc, hwrap, ↓reduceIte, read_bind_apply, hlimit]
  rfl

/-- The ends of `sys_alloc`. -/
inductive SysAlloc (nb : Word) (w : World) : Outcome Halt World Word → Prop
  | exhausted (e : Env) (gm : MallocState) (grew : Grew 0 w.env e)
      (same : gm = w.gm ∨ gm = disableContiguous w.gm) (short : ¬ PartialGrowth nb w)
      (inside : ¬ ReachesEnd nb w) : SysAlloc nb w (.ok 0 ⟨e, gm⟩)
  | leaked (e : Env) (grew : Grew (systemSize nb).toNat w.env e) (reaches : ReachesEnd nb w) :
      SysAlloc nb w (.ok 0 { w with env := e })
  | extended (n : Word) (e : Env) (ss : Segment) (grew : Grew n.toNat w.env e)
      (enough : nb.toNat + 72 ≤ w.gm.topsize.toNat + n.toNat) (page : PageIncrement n)
      (holding : segmentHolding w.gm w.gm.top = some ss)
      (adjacent : breakAddr w.env = ss.base + ss.size) (short : ¬ PartialGrowth nb w)
      (inside : ¬ ReachesEnd nb w) :
      SysAlloc nb w (useRegion nb (breakAddr w.env) n { w with env := e })
  | granted (n : Word) (e : Env) (grew : Grew n.toNat w.env e)
      (enough : nb.toNat + 72 ≤ n.toNat) (release : ¬ ReleaseAttempt nb w)
      (oversized : ¬ OversizedExtension nb w) (inside : ¬ ReachesEnd nb w) :
      SysAlloc nb w (useRegion nb (breakAddr w.env) n { w with env := e })
  | undersized (n : Word) (e : Env) (grew : Grew n.toNat w.env e) (pos : 0 < n.toNat)
      (short : n.toNat < nb.toNat + 72) (oversized : OversizedExtension nb w) :
      SysAlloc nb w (useRegion nb (breakAddr w.env) n { w with env := e })
  | trapped (e : Env) (release : ReleaseAttempt nb w) :
      SysAlloc nb w (.halt .sbrkTrap { w with env := e })

theorem Grew.fits_iff {n : Word} {e e' : Env} (h : Grew 0 e e') : Fits n e' ↔ Fits n e := by
  have hbytes := h.bytes
  have hmax := h.maxPages
  unfold Memory.bytes at hbytes
  unfold Fits
  omega

theorem fits_maximal {n : Word} {e : Env} (hn : 65536 ∣ n.toNat) (h : Fits n e)
    (hend : e.memory.bytes + n.toNat = 4294967296) : e.memory.maxPages = 65536 := by
  have hle := e.memory.maxPages_le
  unfold Memory.bytes at hend
  unfold Fits at h
  omega

theorem sysAlloc_noncontiguous {nb : Word} {w : World} (hadm : Admitted nb w.gm)
    (hcontig : useNoncontiguous w.gm = true) : SysAlloc nb w (sysAlloc nb w) := by
  have hbounds := systemSize_bounds hadm.1
  have hpart : ¬ PartialGrowth nb w := fun h => by simp [h.contiguous] at hcontig
  have hacquire := acquireRegion_noncontiguous nb (systemSize nb) hcontig
  have hcases := growNoncontiguous_cases (w := w) hadm.1
  rw [← hacquire] at hcases
  rw [sysAlloc_admitted hadm]
  generalize hrun : acquireRegion nb (systemSize nb) w = outcome at hcases
  cases hcases with
  | granted e grew small fits inside =>
    rw [bind_ok hrun, if_neg (breakAddr_ne_cmFail _)]
    refine .granted _ _ grew hbounds.1 (fun h => hpart h.toPartialGrowth)
      (fun h => hpart h.toPartialGrowth) fun h => ?_
    have := h.finish
    omega
  | failed e grew unfit =>
    rw [bind_ok hrun, if_pos rfl]
    refine .exhausted _ _ grew (Or.inl rfl) hpart fun h => unfit h.small ?_
    have hbytes := h.finish
    have hmax := h.maximal
    unfold Memory.bytes at hbytes
    unfold Fits
    omega
  | leaked e grew small fits finish =>
    rw [bind_ok hrun, if_pos rfl]
    exact .leaked _ grew ⟨hadm, hcontig, small, fits_maximal hbounds.2.2 fits finish, finish⟩

/-- Every call for a request that top cannot serve ends in one of the six ways. -/
theorem sysAlloc_cases (nb : Word) {w : World} (htop : w.gm.topsize ≤ nb) :
    SysAlloc nb w (sysAlloc nb w) := by
  by_cases hadm : Admitted nb w.gm
  · cases hcontig : useNoncontiguous w.gm with
    | true => exact sysAlloc_noncontiguous hadm hcontig
    | false =>
      have hend : ¬ ReachesEnd nb w := fun h => by simp [h.noncontiguous] at hcontig
      have hcases := growContiguous_cases hadm htop hcontig
      rw [sysAlloc_admitted hadm]
      generalize hrun : growContiguous nb (systemSize nb) w = outcome at hcases
      have hacquire := acquireRegion_contiguous nb (systemSize nb) hcontig
      cases hcases with
      | extended n e ss grew enough page holding adjacent short =>
        rw [bind_ok hrun, if_neg (breakAddr_ne_cmFail _), pure_apply] at hacquire
        rw [bind_ok hacquire, if_neg (breakAddr_ne_cmFail _)]
        exact .extended _ _ ss grew enough page holding adjacent short hend
      | granted n e grew enough release oversized =>
        rw [bind_ok hrun, if_neg (breakAddr_ne_cmFail _), pure_apply] at hacquire
        rw [bind_ok hacquire, if_neg (breakAddr_ne_cmFail _)]
        exact .granted _ _ grew enough release oversized hend
      | undersized n e grew pos short oversized =>
        rw [bind_ok hrun, if_neg (breakAddr_ne_cmFail _), pure_apply] at hacquire
        rw [bind_ok hacquire, if_neg (breakAddr_ne_cmFail _)]
        exact .undersized _ _ grew pos short oversized
      | failed tsize e grew unfit short =>
        have hagain := growNoncontiguous_cases (w := ⟨e, disableContiguous w.gm⟩) hadm.1
        rw [bind_ok hrun, if_pos rfl] at hacquire
        rw [← hacquire] at hagain
        generalize hrun' : acquireRegion nb (systemSize nb) w = outcome at hagain
        cases hagain with
        | granted e' grew' small fits inside => exact absurd (grew.fits_iff.mp fits) (unfit small)
        | failed e' grew' unfit' =>
          rw [bind_ok hrun', if_pos rfl]
          exact .exhausted _ _ (grew.trans grew') (Or.inr rfl) short hend
        | leaked e' grew' small fits finish => exact absurd (grew.fits_iff.mp fits) (unfit small)
      | trapped e release =>
        rw [bind_halt hrun] at hacquire
        rw [bind_halt hacquire]
        exact .trapped e release
  · rw [sysAlloc_rejected hadm]
    exact .exhausted _ _ (Grew.refl _) (Or.inl rfl) (fun h => hadm h.admitted)
      fun h => hadm h.admitted

end WasmCxxShim.Dlmalloc
