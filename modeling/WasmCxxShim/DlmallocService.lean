import WasmCxxShim.DlmallocOwnership

/-!
# Every call of `sys_alloc` serves the request or leaves memory as it was

In a state of the heap invariant a call that returns does one or the other, except in two states:
when the noncontiguous path reaches the end of the address space, and when the contiguous path
keeps a region that is too small because the missing part is too large to ask for.
-/
namespace WasmCxxShim.Dlmalloc
open MachineWords HaltingPrograms AddressRegions LinearMemory

/-- The chunk returned for `nb` bytes, and the memory acquired for it. -/
structure Served (nb p : Word) (w w' : World) : Prop where
  nonnull : p ≠ 0
  size : nb ≤ w'.gm.chunks.chunksize (mem2chunk p)
  inside : ∃ s ∈ w'.gm.segs, s.base.toNat ≤ (mem2chunk p).toNat ∧
    (mem2chunk p).toNat + nb.toNat ≤ s.base.toNat + s.size.toNat
  grown : ∀ a, w.env.memory.bytes ≤ a → a < w'.env.memory.bytes →
    ∃ s ∈ w'.gm.segs, a ∈ s.region.bytes

/-- A call that returns gives NULL and leaves memory as it was, or serves the request. -/
def CallServes (nb : Word) (w : World) : Prop :=
  ∀ p w', sysAlloc nb w = .ok p w' →
    p = 0 ∧ w'.env.memory.pages = w.env.memory.pages ∨ Served nb p w w'

theorem Grew.pages_eq {n : ℕ} {e e' : Env} (h : Grew n e e') :
    e'.memory.pages = e.memory.pages ↔ n = 0 := by
  have hbytes := h.bytes
  unfold Memory.bytes at hbytes
  omega

theorem chunksize_inuse {s : Word} (hs : s.toNat % 16 = 0) :
    (s ||| pinuseBit ||| cinuseBit) &&& ~~~flagBits = s := by
  have hflags : ∀ t : Word, (t ||| pinuseBit ||| cinuseBit) &&& ~~~flagBits = t &&& ~~~flagBits := by
    intro t
    have hmask : (pinuseBit ||| cinuseBit) &&& ~~~flagBits = (0#32 : Word) := by decide
    rw [BitVec.or_assoc, BitVec.and_or_distrib_right, hmask, BitVec.or_zero]
  rw [hflags]
  apply BitVec.eq_of_toNat_eq
  have h := toNat_and_not_mask (k := 3) (by omega) s
  have hseven : (BitVec.ofNat 32 (2 ^ 3) - 1 : Word) = flagBits := by decide
  rw [hseven] at h
  rw [h]
  omega

theorem splitTop_chunksize {nb : Word} {m : MallocState} (hnb : nb.toNat % 16 = 0) :
    (splitTop nb m).chunks.chunksize m.top = nb := by
  have hhead : (splitTop nb m).chunks.head m.top = nb ||| pinuseBit ||| cinuseBit :=
    Function.update_self ..
  rw [ChunkStore.chunksize, hhead]
  exact chunksize_inuse hnb

theorem mem2chunk_chunk2mem (p : Word) : mem2chunk (chunk2mem p) = p := by
  rw [mem2chunk, chunk2mem, BitVec.add_sub_cancel]

section Calls

variable {layout : HeapLayout} {w : World} {n : Word} {e : Env} {m : MallocState} {nb : Word}

theorem served_of_installed (hm : Installed layout w n e m) (hnew : NewRegion w n e)
    (hnb : Padded nb) (hlt : nb < m.topsize) :
    Served nb (chunk2mem m.top) w ⟨e, splitTop nb m⟩ := by
  obtain ⟨s, hs, hin⟩ := hm.inv.top_in hm.initialized
  have hbounds := hm.inv.top_bounds hs hin
  have hmod := hnb.mod hlt
  obtain ⟨hlow, hfinish, haligned⟩ := hin
  rw [word_lt] at hlt
  dsimp only at hbounds hlow hfinish haligned
  refine ⟨?_, ?_, ⟨s, hs, ?_, ?_⟩, fun a hlow hhigh => ?_⟩
  · rw [chunk2mem, twoSizeTSizes_eq]
    bv_omega
  · rw [mem2chunk_chunk2mem, splitTop_chunksize hmod]
    exact BitVec.le_refl _
  · rw [mem2chunk_chunk2mem]
    exact hlow
  · rw [mem2chunk_chunk2mem]
    omega
  · obtain ⟨t, ht, hbase, hfin⟩ := hm.covers
    have hbytes := hnew.grew.bytes
    refine ⟨t, ht, ?_⟩
    rw [Region.mem_bytes]
    simp only [Segment.region, Region.finish]
    dsimp only at hhigh
    omega

/-- The request is served when the new top is large enough. -/
theorem callServes_of_topsize (hm : Installed layout w n e m) (hnew : NewRegion w n e)
    (hnb : Padded nb) (hlt : nb < m.topsize) {p : Word} {w' : World}
    (hrun : allocateFromTop nb ⟨e, m⟩ = .ok p w') : Served nb p w w' := by
  rw [allocateFromTop, read_bind_apply, if_pos hlt] at hrun
  cases hrun
  exact served_of_installed hm hnew hnb hlt

theorem not_adjacent_of_partialGrowth (h : PartialGrowth nb w) : ¬ Adjacent w := by
  rintro ⟨ss, hss, hend⟩
  obtain ⟨ss', hss', hne⟩ := h.moved
  have hsame := Option.some.inj (hss.symm.trans hss')
  exact hne (hsame ▸ hend)

/-- A region that is too small does not serve the request, and its memory stays acquired. -/
theorem not_callServes_of_undersized (h : HeapInv layout w) (hnew : NewRegion w n e)
    (hnb : Padded nb) (hshort : n.toNat < nb.toNat + 72) (hover : OversizedExtension nb w)
    (hrun : sysAlloc nb w = useRegion nb (breakAddr w.env) n { w with env := e }) :
    ¬ CallServes nb w := by
  intro hserves
  obtain ⟨m, hm, huse⟩ := h.useRegion_eq hnew nb
  have hsize := hm.starts_top (not_adjacent_of_partialGrowth hover.toPartialGrowth)
  have hmod := hnb.mod hover.admitted.1
  have hdvd := hnew.dvd
  have hno : ¬ nb < m.topsize := by
    rw [word_lt]
    omega
  rw [huse, allocateFromTop, read_bind_apply, if_neg hno, pure_apply] at hrun
  rcases hserves _ _ hrun with ⟨-, hpages⟩ | hserved
  · have := hnew.grew.pages_eq.mp hpages
    have := hnew.pos
    omega
  · exact hserved.nonnull rfl

theorem callServes_iff (h : HeapInv layout w) (hnb : Padded nb) (htop : w.gm.topsize ≤ nb) :
    CallServes nb w ↔ ¬ (ReachesEnd nb w ∨ OversizedExtension nb w) := by
  have hcases := sysAlloc_cases nb htop
  generalize hrun : sysAlloc nb w = outcome at hcases
  cases hcases with
  | exhausted e gm grew same short inside =>
    refine iff_of_true (fun p w' hw' => ?_)
      (not_or.mpr ⟨inside, fun hover => short hover.toPartialGrowth⟩)
    rw [hrun] at hw'
    cases hw'
    exact Or.inl ⟨rfl, grew.pages_eq.mpr rfl⟩
  | leaked e grew reaches =>
    refine iff_of_false (fun hserves => ?_) (fun hno => hno (Or.inl reaches))
    rcases hserves _ _ hrun with ⟨-, hpages⟩ | hserved
    · have := grew.pages_eq.mp hpages
      have := (systemSize_bounds reaches.admitted.1).1
      omega
    · exact hserved.nonnull rfl
  | extended n e ss grew enough page holding adjacent short inside =>
    refine iff_of_true (fun p w' hw' => ?_)
      (not_or.mpr ⟨inside, fun hover => short hover.toPartialGrowth⟩)
    have hnew : NewRegion w n e := ⟨grew, page.1⟩
    obtain ⟨m, hm, huse⟩ := h.useRegion_eq hnew nb
    have hsize := hm.extends_top ⟨ss, holding, adjacent⟩
    rw [hrun, huse] at hw'
    exact Or.inr (callServes_of_topsize hm hnew hnb (by rw [word_lt]; omega) hw')
  | granted n e grew enough release oversized inside =>
    refine iff_of_true (fun p w' hw' => ?_) (not_or.mpr ⟨inside, oversized⟩)
    have hnew : NewRegion w n e := ⟨grew, by omega⟩
    obtain ⟨m, hm, huse⟩ := h.useRegion_eq hnew nb
    have hlt : nb < m.topsize := by
      rw [word_lt]
      by_cases hadj : Adjacent w
      · have := hm.extends_top hadj
        omega
      · have := hm.starts_top hadj
        omega
    rw [hrun, huse] at hw'
    exact Or.inr (callServes_of_topsize hm hnew hnb hlt hw')
  | undersized n e grew pos short oversized =>
    exact iff_of_false (not_callServes_of_undersized h ⟨grew, pos⟩ hnb short oversized hrun)
      (fun hno => hno (Or.inr oversized))
  | trapped e release =>
    refine iff_of_true (fun p w' hw' => ?_) (not_or.mpr ⟨fun hend => ?_, fun hover => ?_⟩)
    · rw [hrun] at hw'
      cases hw'
    · simpa [hend.noncontiguous] using release.contiguous
    · exact BitVec.not_le.mpr release.extra_small hover.extra_large

end Calls

/-- After every run, each call of `sys_alloc` that the next request makes keeps memory or serves
the request, if and only if it starts in neither of the two states. -/
theorem run_calls_serve_iff (layout : HeapLayout) (memory : Memory) (requests : List Request)
    (request : Request) (w : World) (hinitial : InitialHeap layout memory)
    (hrepr : 0 < layout.heapBase.toNat ∨ memory.maxPages < 65536)
    (hrun : runAll (step layout) requests (World.initial memory) = .ok () w) :
    RequestCalls layout (fun nb w' => CallServes nb w' ↔
      ¬ (ReachesEnd nb w' ∨ OversizedExtension nb w')) request w := by
  have hw := wp_ok (run_heapInv (heapInv_initial hinitial hrepr) requests) hrun
  exact RequestCalls.mono (fun nb w' hnb htop hw' => callServes_iff hw' hnb htop)
    (requestCalls_inv (heapInv_keeps layout) hw)

/-- A block that is given back to top, blocks that stay, and two pages of another party. -/
def mixedRequests : List Request :=
  [.malloc 100 none, .free 65552 (.intoTop 65544 112 MallocState.zeroed.chunks),
    .calloc 3 50 none, .grow 2, .alignedAlloc 64 40 none (.binned MallocState.zeroed.chunks)
      (.binned MallocState.zeroed.chunks)]

theorem run_calls_serve_mixed :
    RequestCalls ⟨65536#32, 131072#32⟩ (fun nb w' => CallServes nb w' ↔
      ¬ (ReachesEnd nb w' ∨ OversizedExtension nb w')) (.malloc 70000 none)
      (runAll (step ⟨65536#32, 131072#32⟩) mixedRequests
        (World.initial ⟨2, 65536, by decide, by decide⟩)).state :=
  run_calls_serve_iff _ _ mixedRequests _ _ ⟨by decide, by decide⟩ (Or.inl (by decide))
    (Outcome.eq_ok (by decide +kernel))

/-- Three pages do not fit and the allocator gives up contiguity; the last two pages are then
acquired for the next request and lost. -/
theorem run_loses_last_pages :
    let run := runAll (step ⟨65536#32, 131072#32⟩) [.grow 65532, .malloc 200000 none]
      (World.initial ⟨2, 65536, by decide, by decide⟩)
    run.result = some () ∧ run.state.env.memory.pages = 65534 ∧
      (dlmalloc ⟨65536#32, 131072#32⟩ 65472 none run.state).result = some 0 ∧
      (dlmalloc ⟨65536#32, 131072#32⟩ 65472 none run.state).state.env.memory.pages = 65536 ∧
      ¬ RequestCalls ⟨65536#32, 131072#32⟩ CallServes (.malloc 65472 none) run.state := by
  refine ⟨by decide +kernel, by decide +kernel, by decide +kernel, by decide +kernel, fun h => ?_⟩
  rw [RequestCalls, MallocCalls] at h
  obtain ⟨_, hserve⟩ := wp_returns h (by decide +kernel)
  rw [ServeCalls] at hserve
  have hcall := hserve rfl (by decide +kernel)
  rcases hcall _ _ (Outcome.eq_ok (a := 0) (by decide +kernel)) with ⟨-, hpages⟩ | hserved
  · revert hpages
    decide +kernel
  · exact hserved.nonnull rfl

end WasmCxxShim.Dlmalloc
