import WasmCxxShim.DlmallocSysAlloc

/-!
# What the contiguous path does to linear memory

The contiguous path of `sys_alloc`, for a request that top cannot serve, ends in one of five
ways: the segment of top is extended, a region at the break is granted, a region that is too
small is used as it is, nothing is acquired, or `sbrk` traps. The third and the last have an
exact condition on the state before the call.
-/
namespace WasmCxxShim.Dlmalloc
open MachineWords HaltingPrograms LinearMemory

/-- Memory grew by `n` bytes through calls of `sbrk` with good increments. -/
structure Grew (n : ℕ) (e e' : Env) : Prop where
  bytes : e'.memory.bytes = e.memory.bytes + n
  maxPages : e'.memory.maxPages = e.memory.maxPages
  lent : e'.lent = e.lent
  calls : ∀ i ∈ e'.sbrkCalls, i ∈ e.sbrkCalls ∨ GoodIncrement i

theorem Grew.refl (e : Env) : Grew 0 e e :=
  ⟨(Nat.add_zero _).symm, rfl, rfl, fun _ h => Or.inl h⟩

theorem Grew.trans {n k : ℕ} {e e' e'' : Env} (h : Grew n e e') (h' : Grew k e' e'') :
    Grew (n + k) e e'' where
  bytes := by rw [h'.bytes, h.bytes, Nat.add_assoc]
  maxPages := h'.maxPages.trans h.maxPages
  lent := h'.lent.trans h.lent
  calls i hi := by
    rcases h'.calls i hi with hi | hi
    · exact h.calls i hi
    · exact Or.inr hi

theorem grew_called {n : Word} {e : Env} (hn : GoodIncrement n.toInt) : Grew 0 e (called n e) where
  bytes := (Nat.add_zero _).symm
  maxPages := rfl
  lent := rfl
  calls i hi := by
    rcases List.mem_append.mp hi with hi | hi
    · exact Or.inl hi
    · rw [List.mem_singleton.mp hi]
      exact Or.inr hn

theorem grew_called_grown {n : Word} {e : Env} (hn : PageIncrement n) (h : Fits n e) :
    Grew n.toNat e (called n (grown n e h)) where
  bytes := grown_bytes hn.2.2 h
  maxPages := rfl
  lent := rfl
  calls := (grew_called (goodIncrement_of_page hn)).calls

theorem goodIncrement_zero : GoodIncrement (0 : Word).toInt := ⟨by decide, by decide⟩

theorem callMorecore_ok {n a : Word} {w : World} {e : Env} (h : sbrk n w.env = .ok a e) :
    callMorecore n w = .ok a { w with env := e } := by
  unfold callMorecore within
  rw [h]

theorem callMorecore_zero (w : World) :
    callMorecore 0 w = .ok (breakAddr w.env) { w with env := called 0 w.env } :=
  callMorecore_ok (sbrk_zero w.env)

theorem callMorecore_negative {n : Word} {w : World} (hn : n.toInt < 0) :
    callMorecore n w = .halt .sbrkTrap { w with env := called n w.env } := by
  unfold callMorecore within
  rw [sbrk_negative hn]

/-- The break is a multiple of the page size, so it is never the failure value. -/
theorem dvd_breakAddr (e : Env) : 65536 ∣ (breakAddr e).toNat := by
  rw [toNat_breakAddr, Memory.bytes]
  omega

theorem breakAddr_ne_cmFail (e : Env) : breakAddr e ≠ cmFail := by
  intro h
  have hdvd := dvd_breakAddr e
  rw [h] at hdvd
  revert hdvd
  decide

/-- The bytes requested from MORECORE when no top space is counted: `asize`. -/
def systemSize (nb : Word) : Word := granularityAlign (nb + sysAllocPadding)

/-- The bytes requested from MORECORE to extend the segment of top: `ssize`. -/
def topGrowth (nb : Word) (m : MallocState) : Word :=
  granularityAlign (nb - m.topsize + sysAllocPadding)

/-- The bytes requested after a partial failure: `esize`. -/
def extraGrowth (nb : Word) (m : MallocState) : Word :=
  granularityAlign (nb + sysAllocPadding - topGrowth nb m)

theorem systemSize_bounds {nb : Word} (h : nb < systemSize nb) :
    nb.toNat + 72 ≤ (systemSize nb).toNat ∧ (systemSize nb).toNat < nb.toNat + 72 + 65536 ∧
      65536 ∣ (systemSize nb).toNat := by
  have hsum : (nb + sysAllocPadding).toNat = (nb.toNat + 72) % 4294967296 := by
    rw [sysAllocPadding_eq, BitVec.toNat_add]
    rfl
  have hsize := toNat_granularityAlign (nb + sysAllocPadding)
  rw [hsum] at hsize
  have hlt := nb.isLt
  rw [word_lt] at h
  unfold systemSize at h ⊢
  omega

theorem topGrowth_bounds {nb : Word} {m : MallocState} (h : nb < systemSize nb)
    (htop : m.topsize ≤ nb) :
    nb.toNat - m.topsize.toNat + 72 ≤ (topGrowth nb m).toNat ∧
      (topGrowth nb m).toNat ≤ (systemSize nb).toNat ∧ 65536 ∣ (topGrowth nb m).toNat := by
  have hbounds := systemSize_bounds h
  have hsize := toNat_granularityAlign (nb - m.topsize + sysAllocPadding)
  have hsum : (nb - m.topsize + sysAllocPadding).toNat = nb.toNat - m.topsize.toNat + 72 := by
    have := (systemSize nb).isLt
    rw [sysAllocPadding_eq]
    bv_omega
  rw [hsum] at hsize
  have hlt := (systemSize nb).isLt
  unfold topGrowth
  omega

theorem extraGrowth_bounds {nb : Word} {m : MallocState} (h : nb < systemSize nb)
    (htop : m.topsize ≤ nb) (hless : topGrowth nb m < nb + sysAllocPadding) :
    nb.toNat + 72 ≤ (topGrowth nb m).toNat + (extraGrowth nb m).toNat ∧
      0 < (extraGrowth nb m).toNat ∧ (topGrowth nb m).toNat + (extraGrowth nb m).toNat ≤
        (systemSize nb).toNat ∧ 65536 ∣ (extraGrowth nb m).toNat := by
  have hbounds := systemSize_bounds h
  have htopBounds := topGrowth_bounds h htop
  have hlt := (systemSize nb).isLt
  have hpad : (nb + sysAllocPadding).toNat = nb.toNat + 72 := by
    rw [sysAllocPadding_eq]
    bv_omega
  have hsize := toNat_granularityAlign (nb + sysAllocPadding - topGrowth nb m)
  have hsum : (nb + sysAllocPadding - topGrowth nb m).toNat =
      nb.toNat + 72 - (topGrowth nb m).toNat := by
    rw [word_lt] at hless
    bv_omega
  rw [hsum] at hsize
  rw [word_lt, hpad] at hless
  unfold extraGrowth
  omega

theorem copePartial_done {nb : Word} {g : Morecore} {w : World} (h : g.tbase ≠ cmFail) :
    copePartial nb g w = .ok g w := by
  simp only [copePartial, h, ne_eq, not_false_eq_true, ↓reduceIte, pure_apply]

theorem copePartial_none {nb ssize tsize : Word} {w : World} :
    copePartial nb ⟨cmFail, ssize, cmFail, tsize⟩ w =
      .ok ⟨cmFail, ssize, cmFail, tsize⟩ { w with gm := disableContiguous w.gm } := by
  simp only [copePartial, ne_eq, not_true_eq_false, ↓reduceIte, modifyState, modify_bind_apply,
    pure_apply]

/-- The space that was got is used as it is when it suffices, and also when the missing part is
too large to ask for. -/
theorem copePartial_use {nb br ssize tsize : Word} {w : World} (hbr : br ≠ cmFail)
    (h : ssize < nb + sysAllocPadding →
      halfMaxSizeT ≤ granularityAlign (nb + sysAllocPadding - ssize)) :
    copePartial nb ⟨br, ssize, cmFail, tsize⟩ w = .ok ⟨br, ssize, br, ssize⟩ w := by
  by_cases hsmall : ssize < halfMaxSizeT ∧ ssize < nb + sysAllocPadding
  · have hlarge := BitVec.not_lt.mpr (h hsmall.2)
    simp only [copePartial, ne_eq, not_true_eq_false, ↓reduceIte, hbr, not_false_eq_true, hsmall,
      and_self, hlarge, pure_apply]
  · simp only [copePartial, ne_eq, not_true_eq_false, ↓reduceIte, hbr, not_false_eq_true, hsmall,
      pure_apply]

theorem copePartial_extend {nb br ssize tsize : Word} (esize : Word) {w : World} (hbr : br ≠ cmFail)
    (hsmall : ssize < halfMaxSizeT ∧ ssize < nb + sysAllocPadding)
    (hesize : granularityAlign (nb + sysAllocPadding - ssize) = esize)
    (hlt : esize < halfMaxSizeT) (hpage : PageIncrement esize) (hfits : Fits esize w.env) :
    copePartial nb ⟨br, ssize, cmFail, tsize⟩ w =
      .ok ⟨br, ssize + esize, br, ssize + esize⟩
        { w with env := called esize (grown esize w.env hfits) } := by
  have hcall := callMorecore_ok (w := w) (sbrk_ok hpage hfits)
  simp only [copePartial, ne_eq, not_true_eq_false, ↓reduceIte, hbr, not_false_eq_true, hsmall,
    and_self, hesize, hlt, bind_ok hcall, breakAddr_ne_cmFail, pure_apply]

theorem copePartial_trap {nb br ssize tsize : Word} (esize : Word) {w : World} (hbr : br ≠ cmFail)
    (hsmall : ssize < halfMaxSizeT ∧ ssize < nb + sysAllocPadding)
    (hesize : granularityAlign (nb + sysAllocPadding - ssize) = esize)
    (hlt : esize < halfMaxSizeT) (hpage : PageIncrement esize) (hfits : ¬ Fits esize w.env)
    (hpos : 0 < ssize.toNat) :
    copePartial nb ⟨br, ssize, cmFail, tsize⟩ w =
      .halt .sbrkTrap { w with env := called (-ssize) (called esize w.env) } := by
  have hcall := callMorecore_ok (w := w) (sbrk_fail hpage hfits)
  have hneg : (-ssize).toInt < 0 := by
    have hhalf := hsmall.1
    rw [halfMaxSizeT_eq] at hhalf
    rw [BitVec.toInt_neg_iff]
    bv_omega
  have htrap := callMorecore_negative (w := { w with env := called esize w.env }) hneg
  have hfail : (-1 : Word) = cmFail := by decide
  simp only [copePartial, ne_eq, not_true_eq_false, ↓reduceIte, hbr, not_false_eq_true, hsmall,
    and_self, hesize, hlt, bind_ok hcall, hfail, bind_halt htrap]

/-- The request passes the overflow test and the footprint limit. -/
def Admitted (nb : Word) (m : MallocState) : Prop :=
  nb < systemSize nb ∧ (m.footprintLimit = 0 ∨
    m.footprint < m.footprint + systemSize nb ∧ m.footprint + systemSize nb ≤ m.footprintLimit)

/-- The contiguous path asks for memory to extend the segment of top and gets it elsewhere,
because the break has moved, and too little of it. -/
structure PartialGrowth (nb : Word) (w : World) : Prop where
  admitted : Admitted nb w.gm
  contiguous : useNoncontiguous w.gm = false
  initialized : w.gm.top ≠ 0
  small : topGrowth nb w.gm < halfMaxSizeT
  fits : Fits (topGrowth nb w.gm) w.env
  moved : ∃ ss, segmentHolding w.gm w.gm.top = some ss ∧ breakAddr w.env ≠ ss.base + ss.size
  short : topGrowth nb w.gm < nb + sysAllocPadding

/-- The missing part does not fit any more, so the source tries to release the first part. -/
structure ReleaseAttempt (nb : Word) (w : World) : Prop extends PartialGrowth nb w where
  extra_small : extraGrowth nb w.gm < halfMaxSizeT
  extra_unfit : w.env.memory.maxPages <
    w.env.memory.pages + (topGrowth nb w.gm).toNat / 65536 + (extraGrowth nb w.gm).toNat / 65536

/-- The missing part is not asked for, because as an `intptr_t` it would be negative. -/
structure OversizedExtension (nb : Word) (w : World) : Prop extends PartialGrowth nb w where
  extra_large : halfMaxSizeT ≤ extraGrowth nb w.gm

/-- The noncontiguous path gets memory up to the very end of the address space. -/
structure ReachesEnd (nb : Word) (w : World) : Prop where
  admitted : Admitted nb w.gm
  noncontiguous : useNoncontiguous w.gm = true
  small : systemSize nb < halfMaxSizeT
  maximal : w.env.memory.maxPages = 65536
  finish : w.env.memory.bytes + (systemSize nb).toNat = 4294967296

theorem pageIncrement_systemSize {nb : Word} (h : nb < systemSize nb)
    (hlt : systemSize nb < halfMaxSizeT) : PageIncrement (systemSize nb) := by
  have hbounds := systemSize_bounds h
  rw [halfMaxSizeT_eq, word_lt] at hlt
  have : (2147483647 : Word).toNat = 2147483647 := rfl
  exact ⟨by omega, by omega, hbounds.2.2⟩

theorem pageIncrement_topGrowth {nb : Word} {m : MallocState} (h : nb < systemSize nb)
    (htop : m.topsize ≤ nb) (hlt : topGrowth nb m < halfMaxSizeT) :
    PageIncrement (topGrowth nb m) := by
  have hbounds := topGrowth_bounds h htop
  rw [halfMaxSizeT_eq, word_lt] at hlt
  have : (2147483647 : Word).toNat = 2147483647 := rfl
  exact ⟨by omega, by omega, hbounds.2.2⟩

theorem pageIncrement_extraGrowth {nb : Word} {m : MallocState} (h : nb < systemSize nb)
    (htop : m.topsize ≤ nb) (hless : topGrowth nb m < nb + sysAllocPadding)
    (hlt : extraGrowth nb m < halfMaxSizeT) : PageIncrement (extraGrowth nb m) := by
  have hbounds := extraGrowth_bounds h htop hless
  rw [halfMaxSizeT_eq, word_lt] at hlt
  have : (2147483647 : Word).toNat = 2147483647 := rfl
  exact ⟨by omega, by omega, hbounds.2.2.2⟩

/-- The ends of the contiguous path. -/
inductive Contiguous (nb : Word) (w : World) : Outcome Halt World (Word × Word) → Prop
  | extended (n : Word) (e : Env) (ss : Segment) (grew : Grew n.toNat w.env e)
      (enough : nb.toNat + 72 ≤ w.gm.topsize.toNat + n.toNat) (page : PageIncrement n)
      (holding : segmentHolding w.gm w.gm.top = some ss)
      (adjacent : breakAddr w.env = ss.base + ss.size) (short : ¬ PartialGrowth nb w) :
      Contiguous nb w (.ok (breakAddr w.env, n) { w with env := e })
  | granted (n : Word) (e : Env) (grew : Grew n.toNat w.env e)
      (enough : nb.toNat + 72 ≤ n.toNat) (release : ¬ ReleaseAttempt nb w)
      (oversized : ¬ OversizedExtension nb w) :
      Contiguous nb w (.ok (breakAddr w.env, n) { w with env := e })
  | undersized (n : Word) (e : Env) (grew : Grew n.toNat w.env e) (pos : 0 < n.toNat)
      (short : n.toNat < nb.toNat + 72) (oversized : OversizedExtension nb w) :
      Contiguous nb w (.ok (breakAddr w.env, n) { w with env := e })
  | failed (tsize : Word) (e : Env) (grew : Grew 0 w.env e)
      (unfit : systemSize nb < halfMaxSizeT → ¬ Fits (systemSize nb) w.env)
      (short : ¬ PartialGrowth nb w) :
      Contiguous nb w (.ok (cmFail, tsize) ⟨e, disableContiguous w.gm⟩)
  | trapped (e : Env) (release : ReleaseAttempt nb w) :
      Contiguous nb w (.halt .sbrkTrap { w with env := e })

theorem growFirst_cases {nb : Word} {w : World} (hadm : Admitted nb w.gm)
    (hpart : ¬ PartialGrowth nb w) :
    Contiguous nb w ((growFirst nb (systemSize nb) >>= fun g =>
      copePartial nb g >>= fun g => pure (g.tbase, g.tsize)) w) := by
  have haligned : isPageAligned (breakAddr w.env) = true :=
    (isPageAligned_iff _).mpr (dvd_breakAddr w.env)
  have hrelease : ¬ ReleaseAttempt nb w := fun h => hpart h.toPartialGrowth
  have hover : ¬ OversizedExtension nb w := fun h => hpart h.toPartialGrowth
  by_cases hlt : systemSize nb < halfMaxSizeT
  · have hpage := pageIncrement_systemSize hadm.1 hlt
    have hcalled : Grew 0 w.env (called 0 w.env) := grew_called goodIncrement_zero
    by_cases hfits : Fits (systemSize nb) (called 0 w.env)
    · have hcall := callMorecore_ok (w := { w with env := called 0 w.env }) (sbrk_ok hpage hfits)
      have hgrow : growFirst nb (systemSize nb) w =
          .ok ⟨breakAddr w.env, systemSize nb, breakAddr w.env, systemSize nb⟩
            { w with env := called (systemSize nb) (grown (systemSize nb) _ hfits) } := by
        simp only [growFirst, bind_ok (callMorecore_zero w), breakAddr_ne_cmFail, ↓reduceIte,
          haligned, read_bind_apply, hadm.1, hlt, hadm.2, and_self, bind_ok hcall,
          breakAddr_called, pure_apply]
      rw [bind_ok hgrow, bind_ok (copePartial_done (breakAddr_ne_cmFail _)), pure_apply]
      have hgrew := hcalled.trans (grew_called_grown hpage hfits)
      rw [Nat.zero_add] at hgrew
      exact .granted _ _ hgrew (systemSize_bounds hadm.1).1 hrelease hover
    · have hcall := callMorecore_ok (w := { w with env := called 0 w.env })
        (sbrk_fail hpage hfits)
      have hne : (-1 : Word) ≠ breakAddr w.env := (breakAddr_ne_cmFail w.env).symm
      have hgrow : growFirst nb (systemSize nb) w =
          .ok ⟨cmFail, systemSize nb, cmFail, 0⟩
            { w with env := called (systemSize nb) (called 0 w.env) } := by
        simp only [growFirst, bind_ok (callMorecore_zero w), breakAddr_ne_cmFail, ↓reduceIte,
          haligned, read_bind_apply, hadm.1, hlt, hadm.2, and_self, bind_ok hcall, hne,
          pure_apply]
        rfl
      rw [bind_ok hgrow, bind_ok copePartial_none, pure_apply]
      have hgrew := hcalled.trans (grew_called (goodIncrement_of_page hpage))
      exact .failed _ _ hgrew (fun _ => hfits) hpart
  · have hgrow : growFirst nb (systemSize nb) w =
        .ok ⟨cmFail, systemSize nb, cmFail, 0⟩ { w with env := called 0 w.env } := by
      simp only [growFirst, bind_ok (callMorecore_zero w), breakAddr_ne_cmFail, ↓reduceIte,
        haligned, read_bind_apply, hlt, false_and, and_false, pure_apply]
    rw [bind_ok hgrow, bind_ok copePartial_none, pure_apply]
    exact .failed _ _ (grew_called goodIncrement_zero) (fun h => absurd h hlt) hpart

theorem growTop_call {nb : Word} {w : World} {ss : Segment}
    (hlt : topGrowth nb w.gm < halfMaxSizeT) {br : Word} {e : Env}
    (hcall : sbrk (topGrowth nb w.gm) w.env = .ok br e) :
    growTop nb ss w = .ok
      (if br = ss.base + ss.size then ⟨br, topGrowth nb w.gm, br, topGrowth nb w.gm⟩
        else ⟨br, topGrowth nb w.gm, cmFail, 0⟩) { w with env := e } := by
  rw [growTop, read_bind_apply]
  change (if topGrowth nb w.gm < halfMaxSizeT then _ else _ : Alloc Morecore) w = _
  rw [if_pos hlt]
  change (callMorecore (topGrowth nb w.gm) >>= _) w = _
  rw [bind_ok (callMorecore_ok hcall)]
  split_ifs <;> rfl

theorem growTop_large {nb : Word} {w : World} {ss : Segment}
    (hlt : ¬ topGrowth nb w.gm < halfMaxSizeT) :
    growTop nb ss w = .ok ⟨cmFail, topGrowth nb w.gm, cmFail, 0⟩ w := by
  rw [growTop, read_bind_apply]
  change (if topGrowth nb w.gm < halfMaxSizeT then _ else _ : Alloc Morecore) w = _
  rw [if_neg hlt]
  rfl

/-- The break has moved: the first part is used, extended, or attempted to be released. -/
theorem copePartial_cases {nb : Word} {w : World} (hadm : Admitted nb w.gm)
    (htop : w.gm.topsize ≤ nb) (hlt : topGrowth nb w.gm < halfMaxSizeT)
    (hfits : Fits (topGrowth nb w.gm) w.env)
    (hpart : topGrowth nb w.gm < nb + sysAllocPadding ↔ PartialGrowth nb w) :
    Contiguous nb w ((copePartial nb ⟨breakAddr w.env, topGrowth nb w.gm, cmFail, 0⟩ >>=
      fun g => pure (g.tbase, g.tsize))
        { w with env := called (topGrowth nb w.gm) (grown _ w.env hfits) }) := by
  have hpage := pageIncrement_topGrowth hadm.1 htop hlt
  have hgrew := grew_called_grown hpage hfits
  by_cases hless : topGrowth nb w.gm < nb + sysAllocPadding
  · have hextra := extraGrowth_bounds hadm.1 htop hless
    by_cases hsmall : extraGrowth nb w.gm < halfMaxSizeT
    · have hpage' := pageIncrement_extraGrowth hadm.1 htop hless hsmall
      have hover : ¬ OversizedExtension nb w := fun h => absurd hsmall (BitVec.not_lt.mpr h.2)
      by_cases hfits' : Fits (extraGrowth nb w.gm)
          (called (topGrowth nb w.gm) (grown _ w.env hfits))
      · rw [bind_ok (copePartial_extend (extraGrowth nb w.gm)
          (w := { w with env := called (topGrowth nb w.gm) (grown _ w.env hfits) })
          (breakAddr_ne_cmFail _) ⟨hlt, hless⟩ rfl hsmall hpage' hfits'), pure_apply]
        have hsum : (topGrowth nb w.gm + extraGrowth nb w.gm).toNat =
            (topGrowth nb w.gm).toNat + (extraGrowth nb w.gm).toNat := by
          have := (systemSize nb).isLt
          rw [BitVec.toNat_add, Nat.mod_eq_of_lt (by omega)]
        have hgrew' := hgrew.trans (grew_called_grown hpage' hfits')
        rw [← hsum] at hgrew'
        refine .granted _ _ hgrew' (by rw [hsum]; exact hextra.1) (fun hrel => ?_) hover
        exact absurd hrel.extra_unfit (not_lt.mpr (fits_called_grown.mp hfits'))
      · rw [bind_halt (copePartial_trap (extraGrowth nb w.gm)
          (w := { w with env := called (topGrowth nb w.gm) (grown _ w.env hfits) })
          (breakAddr_ne_cmFail _) ⟨hlt, hless⟩ rfl hsmall hpage' hfits' hpage.1)]
        exact .trapped _ ⟨hpart.mp hless, hsmall, not_le.mp fun h => hfits' (fits_called_grown.mpr h)⟩
    · have hlarge := BitVec.not_lt.mp hsmall
      rw [bind_ok (copePartial_use (breakAddr_ne_cmFail _) fun _ => hlarge), pure_apply]
      refine .undersized _ _ hgrew hpage.1 ?_ ⟨hpart.mp hless, hlarge⟩
      rw [sysAllocPadding_eq, word_lt] at hless
      have := systemSize_bounds hadm.1
      bv_omega
  · rw [bind_ok (copePartial_use (breakAddr_ne_cmFail _) fun h => absurd h hless), pure_apply]
    have hnot : ¬ PartialGrowth nb w := fun h => hless (hpart.mpr h)
    refine .granted _ _ hgrew ?_ (fun h => hnot h.toPartialGrowth)
      (fun h => hnot h.toPartialGrowth)
    have hsystem := systemSize_bounds hadm.1
    have := (systemSize nb).isLt
    rw [sysAllocPadding_eq, word_lt] at hless
    bv_omega

theorem growTop_cases {nb : Word} {w : World} {ss : Segment} (hadm : Admitted nb w.gm)
    (htop : w.gm.topsize ≤ nb) (hcontig : useNoncontiguous w.gm = false) (hinit : w.gm.top ≠ 0)
    (hss : segmentHolding w.gm w.gm.top = some ss) :
    Contiguous nb w ((growTop nb ss >>= fun g =>
      copePartial nb g >>= fun g => pure (g.tbase, g.tsize)) w) := by
  have hbounds := topGrowth_bounds hadm.1 htop
  have hss_unique : ∀ ss', segmentHolding w.gm w.gm.top = some ss' → ss' = ss :=
    fun ss' h => Option.some.inj (h.symm.trans hss)
  by_cases hlt : topGrowth nb w.gm < halfMaxSizeT
  · have hpage := pageIncrement_topGrowth hadm.1 htop hlt
    by_cases hfits : Fits (topGrowth nb w.gm) w.env
    · rw [bind_ok (growTop_call hlt (sbrk_ok hpage hfits))]
      by_cases hend : breakAddr w.env = ss.base + ss.size
      · rw [if_pos hend, bind_ok (copePartial_done (breakAddr_ne_cmFail _)), pure_apply]
        refine .extended (topGrowth nb w.gm) _ ss (grew_called_grown hpage hfits) (by omega) hpage
          hss hend fun hpart => ?_
        obtain ⟨ss', hss', hne⟩ := hpart.moved
        exact hne (hss_unique ss' hss' ▸ hend)
      · rw [if_neg hend]
        exact copePartial_cases hadm htop hlt hfits
          ⟨fun hless => ⟨hadm, hcontig, hinit, hlt, hfits, ⟨ss, hss, hend⟩, hless⟩,
            fun h => h.short⟩
    · have hsystem : ¬ Fits (systemSize nb) w.env := by
        unfold Fits at hfits ⊢
        omega
      have hfail : growTop nb ss w = .ok ⟨cmFail, topGrowth nb w.gm, cmFail,
          if cmFail = ss.base + ss.size then topGrowth nb w.gm else 0⟩
            { w with env := called (topGrowth nb w.gm) w.env } := by
        rw [growTop_call hlt (sbrk_fail hpage hfits)]
        have hcm : (-1 : Word) = cmFail := by decide
        rw [hcm]
        split_ifs <;> rfl
      rw [bind_ok hfail, bind_ok copePartial_none, pure_apply]
      exact .failed _ _ (grew_called (goodIncrement_of_page hpage)) (fun _ => hsystem)
        fun h => hfits h.fits
  · rw [bind_ok (growTop_large hlt), bind_ok copePartial_none, pure_apply]
    refine .failed _ _ (Grew.refl _) (fun h => absurd ?_ hlt) fun h => hlt h.small
    rw [word_lt] at h ⊢
    omega

theorem growHolding_none (nb asize : Word) : growHolding nb asize none = growFirst nb asize := rfl

theorem growHolding_some (nb asize : Word) (ss : Segment) :
    growHolding nb asize (some ss) = growTop nb ss := rfl

/-- The contiguous path ends in one of the five ways. -/
theorem growContiguous_cases {nb : Word} {w : World} (hadm : Admitted nb w.gm)
    (htop : w.gm.topsize ≤ nb) (hcontig : useNoncontiguous w.gm = false) :
    Contiguous nb w (growContiguous nb (systemSize nb) w) := by
  rw [growContiguous, read_bind_apply]
  by_cases hinit : w.gm.top = 0
  · rw [if_pos hinit, growHolding_none]
    exact growFirst_cases hadm fun h => h.initialized hinit
  · rw [if_neg hinit]
    cases hss : segmentHolding w.gm w.gm.top with
    | none =>
      rw [growHolding_none]
      refine growFirst_cases hadm fun h => ?_
      obtain ⟨ss, hsome, -⟩ := h.moved
      rw [hss] at hsome
      exact Option.some_ne_none _ hsome.symm
    | some ss =>
      rw [growHolding_some]
      exact growTop_cases hadm htop hcontig hinit hss

end WasmCxxShim.Dlmalloc
