import WasmCxxShim.DlmallocHeapInvariant

/-!
# The allocator only manages memory it owns

A region that `sys_alloc` acquires begins at the old break. It becomes the first segment, extends
the segment of top, or becomes a segment of its own, and the heap invariant holds again; with
`sys_alloc_cases` every run of requests keeps the invariant.
-/
namespace WasmCxxShim.Dlmalloc
open MachineWords HaltingPrograms AddressRegions LinearMemory

/-- The break is where the segment of top ends. -/
def Adjacent (w : World) : Prop :=
  ∃ ss, segmentHolding w.gm w.gm.top = some ss ∧ breakAddr w.env = ss.base + ss.size

/-- The state after a region of `n` bytes at the break has been added to the segments. -/
structure Installed (layout : HeapLayout) (w : World) (n : Word) (e : Env) (m : MallocState) :
    Prop where
  inv : HeapInv layout ⟨e, m⟩
  initialized : isInitialized m = true
  covers : ∃ s ∈ m.segs, s.base.toNat ≤ w.env.memory.bytes ∧
    w.env.memory.bytes + n.toNat = s.base.toNat + s.size.toNat
  extends_top : Adjacent w → m.topsize.toNat = w.gm.topsize.toNat + n.toNat
  starts_top : ¬ Adjacent w → m.topsize.toNat + 64 = n.toNat

/-- What is known of the region. -/
structure NewRegion (w : World) (n : Word) (e : Env) : Prop where
  grew : Grew n.toNat w.env e
  pos : 0 < n.toNat

namespace NewRegion

variable {w : World} {n : Word} {e : Env}

theorem dvd (h : NewRegion w n e) : 65536 ∣ n.toNat := by
  have hbytes := h.grew.bytes
  have hdef : w.env.memory.bytes = w.env.memory.pages * 65536 := rfl
  have hdef' : e.memory.bytes = e.memory.pages * 65536 := rfl
  omega

theorem bounds (h : NewRegion w n e) : 65536 ≤ n.toNat ∧
    w.env.memory.bytes + n.toNat ≤ 4294967296 ∧
      (breakAddr w.env).toNat = w.env.memory.bytes := by
  have hbytes := h.grew.bytes
  have hle := bytes_le e.memory
  have hpos := h.pos
  obtain ⟨k, hk⟩ := h.dvd
  exact ⟨by omega, by omega, toNat_breakAddr_of_lt (by omega)⟩

end NewRegion

theorem segmentHolds_bytes {s : Segment} {a : Word} (h : segmentHolds s a = true) :
    a.toNat ∈ s.region.bytes := by
  simp only [segmentHolds, Bool.and_eq_true, decide_eq_true_eq, word_le, word_lt,
    BitVec.toNat_add] at h
  rw [Region.mem_bytes]
  simp only [Segment.region, Region.finish]
  have := Nat.mod_le (s.base.toNat + s.size.toNat) (2 ^ 32)
  omega

theorem segmentHolding_some {m : MallocState} {a : Word} {s : Segment}
    (h : segmentHolding m a = some s) : s ∈ m.segs ∧ segmentHolds s a = true :=
  ⟨List.mem_of_find?_eq_some h, List.find?_some (p := fun s => segmentHolds s a) h⟩

/-- A segment whose end, as a pointer, is the break ends there as a region too. -/
theorem finish_of_end {w : World} {n : Word} {e : Env} (hnew : NewRegion w n e) {s : Segment}
    (hbelow : s.base.toNat + s.size.toNat ≤ w.env.memory.bytes)
    (hend : breakAddr w.env = s.base + s.size) :
    s.base.toNat + s.size.toNat = w.env.memory.bytes := by
  obtain ⟨hbig, hroom, hbreak⟩ := hnew.bounds
  have h := congrArg BitVec.toNat hend
  rw [hbreak, BitVec.toNat_add] at h
  omega

namespace HeapInv

variable {layout : HeapLayout} {w : World} {n : Word} {e : Env}

theorem segment_below (h : HeapInv layout w) (hinit : isInitialized w.gm = true) {s : Segment}
    (hs : s ∈ w.gm.segs) : s.base.toNat + s.size.toNat ≤ w.env.memory.bytes :=
  h.placed.below s.region (by
    rw [regions, segments_of_initialized hinit]
    exact List.mem_map_of_mem hs)

theorem segment_above (h : HeapInv layout w) (hinit : isInitialized w.gm = true) {s : Segment}
    (hs : s ∈ w.gm.segs) : layout.heapBase.toNat ≤ s.base.toNat :=
  h.placed.above s.region (by
    rw [regions, segments_of_initialized hinit]
    exact List.mem_map_of_mem hs)

theorem segment_plain (h : HeapInv layout w) (hinit : isInitialized w.gm = true) {s : Segment}
    (hs : s ∈ w.gm.segs) : 0 < s.size.toNat ∧ s.sflags = 0 :=
  h.plain s (by
    rw [segments_of_initialized hinit]
    exact hs)

/-- Two segments that hold an address are the same. -/
theorem segment_unique (h : HeapInv layout w) (hinit : isInitialized w.gm = true)
    {s t : Segment} (hs : s ∈ w.gm.segs) (ht : t ∈ w.gm.segs) {a : ℕ} (has : a ∈ s.region.bytes)
    (hat : a ∈ t.region.bytes) : s = t := by
  have hpair := h.placed.held_apart
  rw [regions, segments_of_initialized hinit] at hpair
  exact eq_of_overlap hpair hs ht has hat

/-- The segment that is found by its end is the one that holds top, if the break is there. -/
theorem adjacent_iff (h : HeapInv layout w)
    (hinit : isInitialized w.gm = true) :
    Adjacent w ↔ ∃ s ∈ w.gm.segs, breakAddr w.env = s.base + s.size ∧
      segmentHolds s w.gm.top = true := by
  constructor
  · rintro ⟨ss, hss, hend⟩
    obtain ⟨hmem, hholds⟩ := segmentHolding_some hss
    exact ⟨ss, hmem, hend, hholds⟩
  · rintro ⟨s, hs, hend, hholds⟩
    cases hfind : segmentHolding w.gm w.gm.top with
    | none =>
      rw [segmentHolding, List.find?_eq_none] at hfind
      exact absurd hholds (hfind s hs)
    | some ss =>
      obtain ⟨hmem, hholds'⟩ := segmentHolding_some hfind
      have hsame : ss = s := h.segment_unique hinit hmem hs (segmentHolds_bytes hholds')
        (segmentHolds_bytes hholds)
      exact ⟨ss, hfind, hsame ▸ hend⟩

/-- No segment begins where the new region ends. -/
theorem no_segment_at_end (h : HeapInv layout w) (hnew : NewRegion w n e)
    (hinit : isInitialized w.gm = true) {s : Segment} (hs : s ∈ w.gm.segs) :
    s.base ≠ breakAddr w.env + n := by
  intro heq
  obtain ⟨hbig, hroom, hbreak⟩ := hnew.bounds
  have hbelow := h.segment_below hinit hs
  have habove := h.segment_above hinit hs
  have hpos := (h.segment_plain hinit hs).1
  have hbase := congrArg BitVec.toNat heq
  rw [BitVec.toNat_add, hbreak] at hbase
  have hbytes := hnew.grew.bytes
  have hmax := hnew.grew.maxPages
  have hpages := e.memory.pages_le
  have hdef : e.memory.bytes = e.memory.pages * 65536 := rfl
  have := h.representable
  omega

/-- The segment list of a region that is added on its own. -/
theorem added (h : HeapInv layout w) (hnew : NewRegion w n e) {m : MallocState}
    (hsegs : m.segs = ⟨breakAddr w.env, n, 0⟩ :: segments w.gm)
    (hfootprint : m.footprint = w.gm.footprint + n)
    (hlimit : m.footprintLimit = w.gm.footprintLimit)
    (htop : m.top = alignAsChunk (breakAddr w.env))
    (hsize : m.topsize = n - topFootSize - alignOffset (chunk2mem (breakAddr w.env)))
    (hnot : ¬ Adjacent w) : Installed layout w n e m := by
  obtain ⟨hbig, hroom, hbreak⟩ := hnew.bounds
  have hdvd := dvd_breakAddr w.env
  have htopIn : TopIn m ⟨breakAddr w.env, n, 0⟩ :=
    topIn_of_base htop hsize (by omega) (by omega)
  have hmem : (⟨breakAddr w.env, n, 0⟩ : Segment) ∈ m.segs := by
    rw [hsegs]
    exact List.mem_cons_self
  have hregs : m.segs.map Segment.region =
      ⟨(breakAddr w.env).toNat, n.toNat⟩ :: regions w.gm := by
    rw [hsegs]
    rfl
  have hrange := h.range
  have hinside := h.inside
  have hbytes := hnew.grew.bytes
  refine ⟨h.after_growth hnew.grew ?_ ?_ hfootprint ?_ ?_ ⟨_, by rw [hsegs]; rfl, htopIn⟩,
    htopIn.initialized, ⟨_, hmem, ?_, ?_⟩, fun hadj => absurd hadj hnot, fun _ => ?_⟩
  · rw [hregs, hnew.grew.lent]
    refine h.placed.hold ?_ ?_ ?_
    · dsimp only
      omega
    · dsimp only
      omega
    · simp only [Region.finish]
      omega
  · rw [hregs, total_cons]
    exact Nat.add_comm _ _
  · rw [hlimit]
    exact h.unlimited
  · intro s hs
    rw [hsegs] at hs
    rcases List.mem_cons.mp hs with rfl | hs
    · exact ⟨hnew.pos, rfl⟩
    · exact h.plain s hs
  · dsimp only
    omega
  · dsimp only
    omega
  · exact topsize_of_base (Dvd.dvd.trans (by decide) hdvd) hsize (by omega)

/-- The segment that holds the address of top is the one that top lies in. -/
theorem topIn_of_holds (h : HeapInv layout w) (hinit : isInitialized w.gm = true) {s : Segment}
    (hs : s ∈ w.gm.segs) (hholds : segmentHolds s w.gm.top = true) : TopIn w.gm s := by
  obtain ⟨t, ht, hin⟩ := h.top_in hinit
  have hsame : t = s := by
    refine h.segment_unique hinit ht hs (a := w.gm.top.toNat) ?_ (segmentHolds_bytes hholds)
    have := hin.low
    have := hin.finish
    rw [Region.mem_bytes]
    simp only [Segment.region, Region.finish]
    omega
  exact hsame ▸ hin

/-- It is the first one. -/
theorem first_of_holds (h : HeapInv layout w) (hinit : isInitialized w.gm = true) {s : Segment}
    (hs : s ∈ w.gm.segs) (hholds : segmentHolds s w.gm.top = true) :
    ∃ rest, w.gm.segs = s :: rest := by
  obtain ⟨t, ht, hin⟩ := h.top_first hinit
  have hsame : t = s := by
    refine h.segment_unique hinit (List.mem_of_mem_head? ht) hs (a := w.gm.top.toNat) ?_
      (segmentHolds_bytes hholds)
    have := hin.low
    have := hin.finish
    rw [Region.mem_bytes]
    simp only [Segment.region, Region.finish]
    omega
  obtain ⟨rest, hrest⟩ := List.head?_eq_some_iff.mp ht
  exact ⟨rest, hsame ▸ hrest⟩

/-- A segment keeps its flags and stays nonempty when it grows. -/
theorem plain_of_grown (h : HeapInv layout w) (hinit : isInitialized w.gm = true)
    {rest : List Segment} {s : Segment} (hsplit : w.gm.segs = s :: rest) {size : Word}
    (hsize : s.size.toNat ≤ size.toNat) :
    ∀ t ∈ { s with size := size } :: rest, 0 < t.size.toNat ∧ t.sflags = 0 := by
  have hplain : ∀ t ∈ s :: rest, 0 < t.size.toNat ∧ t.sflags = 0 := by
    intro t ht
    rw [← hsplit] at ht
    exact h.segment_plain hinit ht
  have hs := hplain s List.mem_cons_self
  intro t ht
  rcases List.mem_cons.mp ht with rfl | ht
  · exact ⟨hs.1.trans_le hsize, hs.2⟩
  · exact hplain t (List.mem_cons_of_mem s ht)

/-- The region extends the segment of top. -/
theorem extended (h : HeapInv layout w) (hnew : NewRegion w n e)
    (hinit : isInitialized w.gm = true) {rest : List Segment} {sp : Segment}
    (hsplit : w.gm.segs = sp :: rest) (hend : breakAddr w.env = sp.base + sp.size)
    (hholds : segmentHolds sp w.gm.top = true) {m : MallocState}
    (hsegs : m.segs = { sp with size := sp.size + n } :: rest)
    (hfootprint : m.footprint = w.gm.footprint + n)
    (hlimit : m.footprintLimit = w.gm.footprintLimit)
    (htop : m.top = alignAsChunk w.gm.top)
    (hsize : m.topsize = w.gm.topsize + n - alignOffset (chunk2mem w.gm.top)) :
    Installed layout w n e m := by
  obtain ⟨hbig, hroom, hbreak⟩ := hnew.bounds
  have hsp : sp ∈ w.gm.segs := by
    rw [hsplit]
    simp
  have hfin := finish_of_end hnew (h.segment_below hinit hsp) hend
  have hin := h.topIn_of_holds hinit hsp hholds
  have hoffset := hin.alignOffset_eq_zero
  obtain ⟨hlow, hfinish, haligned⟩ := hin
  have hsize' : m.topsize.toNat = w.gm.topsize.toNat + n.toNat := by
    rw [hsize, hoffset, BitVec.sub_zero]
    exact BitVec.toNat_add_of_lt (by omega)
  have htop' : m.top = w.gm.top := by
    rw [htop, alignAsChunk, hoffset, BitVec.add_zero]
  have hbytes := hnew.grew.bytes
  have hgrown : (sp.size + n).toNat = sp.size.toNat + n.toNat := by
    have habove := h.segment_above hinit hsp
    have hmax := hnew.grew.maxPages
    have hpages := e.memory.pages_le
    have hdef : e.memory.bytes = e.memory.pages * 65536 := rfl
    have := h.representable
    exact BitVec.toNat_add_of_lt (by omega)
  have htopIn : TopIn m { sp with size := sp.size + n } :=
    ⟨by rw [htop']; exact hlow, by dsimp only; rw [htop', hsize', hgrown]; omega,
      by rw [htop']; exact haligned⟩
  have hmem : { sp with size := sp.size + n } ∈ m.segs := by
    rw [hsegs]
    simp
  have hold : regions w.gm = [] ++ sp.region :: rest.map Segment.region := by
    rw [regions, segments_of_initialized hinit, hsplit]
    rfl
  have hregs : m.segs.map Segment.region =
      [] ++ ⟨sp.region.base, sp.region.size + n.toNat⟩ :: rest.map Segment.region := by
    rw [hsegs, List.map_cons]
    simp only [Segment.region, hgrown, List.nil_append]
  have hadj : Adjacent w := (h.adjacent_iff hinit).mpr ⟨sp, hsp, hend, hholds⟩
  refine ⟨h.after_growth hnew.grew ?_ ?_ hfootprint ?_ ?_ ⟨_, by rw [hsegs]; rfl, htopIn⟩,
    htopIn.initialized, ⟨_, hmem, ?_, ?_⟩, fun _ => hsize', fun hnot => absurd hadj hnot⟩
  · have hplaced := h.placed
    rw [hold] at hplaced
    rw [hregs, hnew.grew.lent, hbytes]
    refine hplaced.extend hfin ?_
    have hregion : sp.region.finish = w.env.memory.bytes := hfin
    rw [hregion]
  · rw [hregs, hold]
    simp only [List.nil_append, total_cons]
    omega
  · rw [hlimit]
    exact h.unlimited
  · rw [hsegs]
    exact h.plain_of_grown hinit hsplit (by omega)
  · dsimp only
    omega
  · dsimp only
    omega

/-- The region becomes the first segment. -/
theorem first (h : HeapInv layout w) (hnew : NewRegion w n e)
    (hinit : isInitialized w.gm = false) :
    Installed layout w n e (firstSegment (breakAddr w.env) n (addFootprint n w.gm)) := by
  have hnot : ¬ Adjacent w := by
    rintro ⟨ss, hss, -⟩
    obtain ⟨hmem, hholds⟩ := segmentHolding_some hss
    rw [(h.fresh hinit).1, List.mem_singleton] at hmem
    have := Region.mem_bytes.mp (segmentHolds_bytes hholds)
    rw [hmem] at this
    simp [Segment.region, Region.finish] at this
  refine h.added hnew ?_ rfl rfl rfl rfl hnot
  change _ :: w.gm.segs.tail = _
  rw [(h.fresh hinit).1, segments_of_fresh hinit, List.tail_cons]
  rfl

/-- The record of the first segment is part of the state. -/
theorem appendRegion_first {m : MallocState} {sp : Segment} {rest : List Segment}
    {tbase tsize : Word} (hsegs : m.segs = sp :: rest) (hend : tbase = sp.base + sp.size) :
    appendRegion tbase tsize m = initTop m.top (m.topsize + tsize)
      { m with segs := { sp with size := sp.size + tsize } :: rest } := by
  have hp : endsAt tbase sp = true := beq_iff_eq.mpr hend
  rw [appendRegion, updateSegment, hsegs]
  simp [updateFirst, List.findIdx?_cons, hp]

theorem mergeable_of_plain {s : Segment} (h : s.sflags = 0) : mergeable s = true := by
  rw [mergeable, isExternSegment, h]
  decide

theorem installApart_none {nb tbase tsize : Word} {m : MallocState}
    (hnone : m.segs.find? (beginsAt (tbase + tsize)) = none) :
    installApart nb tbase tsize m = (none, addSegment tbase tsize useMmapBit
      { m with leastAddr := if tbase < m.leastAddr then tbase else m.leastAddr }) := by
  unfold installApart
  dsimp only
  rw [hnone]

theorem installApart_installed (h : HeapInv layout w) (hnew : NewRegion w n e)
    (hinit : isInitialized w.gm = true) (hnot : ¬ Adjacent w) (nb : Word) :
    ∃ m, installApart nb (breakAddr w.env) n (addFootprint n w.gm) = (none, m) ∧
      Installed layout w n e m := by
  have hnone : (addFootprint n w.gm).segs.find? (beginsAt (breakAddr w.env + n)) = none := by
    rw [List.find?_eq_none]
    intro s hs hbegins
    exact h.no_segment_at_end hnew hinit hs (beq_iff_eq.mp hbegins)
  refine ⟨_, installApart_none hnone, h.added hnew ?_ rfl rfl rfl rfl hnot⟩
  rw [segments_of_initialized hinit]
  rfl

theorem installMerging_installed (h : HeapInv layout w) (hnew : NewRegion w n e)
    (hinit : isInitialized w.gm = true) (nb : Word) :
    ∃ m, installMerging nb (breakAddr w.env) n (addFootprint n w.gm) = (none, m) ∧
      Installed layout w n e m := by
  unfold installMerging
  cases hfind : (addFootprint n w.gm).segs.find? (endsAt (breakAddr w.env)) with
  | none =>
    refine h.installApart_installed hnew hinit (fun hadj => ?_) nb
    obtain ⟨s, hs, hend, -⟩ := (h.adjacent_iff hinit).mp hadj
    exact List.find?_eq_none.mp hfind s hs (beq_iff_eq.mpr hend)
  | some sp =>
    have hsp : sp ∈ w.gm.segs := List.mem_of_find?_eq_some hfind
    have hend : breakAddr w.env = sp.base + sp.size :=
      beq_iff_eq.mp (List.find?_some (p := endsAt (breakAddr w.env)) hfind)
    have hmerge := mergeable_of_plain (h.segment_plain hinit hsp).2
    dsimp only
    by_cases hholds : segmentHolds sp w.gm.top = true
    · obtain ⟨rest, hsplit⟩ := h.first_of_holds hinit hsp hholds
      refine ⟨_, if_pos ?_, h.extended hnew hinit hsplit hend hholds ?_ ?_ ?_ ?_ ?_⟩
      · rw [hmerge]
        exact hholds
      all_goals
        rw [appendRegion_first (m := addFootprint n w.gm) hsplit hend]
        rfl
    · rw [if_neg (by rw [hmerge]; exact hholds)]
      refine h.installApart_installed hnew hinit (fun hadj => hholds ?_) nb
      obtain ⟨s, hs, hend', hs'⟩ := (h.adjacent_iff hinit).mp hadj
      obtain rfl : s = sp := by
        have hfin := finish_of_end hnew (h.segment_below hinit hs) hend'
        have hfin' := finish_of_end hnew (h.segment_below hinit hsp) hend
        have hpos := (h.segment_plain hinit hs).1
        have hpos' := (h.segment_plain hinit hsp).1
        apply h.segment_unique hinit hs hsp (a := w.env.memory.bytes - 1)
        · rw [Region.mem_bytes]
          simp only [Segment.region, Region.finish]
          omega
        · rw [Region.mem_bytes]
          simp only [Segment.region, Region.finish]
          omega
      exact hs'

/-- A region at the break is never prepended to a segment, and the invariant holds after it. -/
theorem installRegion_installed (h : HeapInv layout w) (hnew : NewRegion w n e) (nb : Word) :
    ∃ m, installRegion nb (breakAddr w.env) n w.gm = (none, m) ∧ Installed layout w n e m := by
  have hsame : isInitialized (addFootprint n w.gm) = isInitialized w.gm := rfl
  unfold installRegion
  dsimp only
  rw [hsame]
  by_cases hinit : isInitialized w.gm = true
  · rw [if_pos hinit]
    exact h.installMerging_installed hnew hinit nb
  · rw [if_neg hinit]
    exact ⟨_, rfl, h.first hnew (Bool.not_eq_true _ ▸ hinit)⟩

/-- Memory may grow without the allocator taking note of it. -/
theorem grew (h : HeapInv layout w) {k : ℕ} (hgrew : Grew k w.env e) :
    HeapInv layout ⟨e, w.gm⟩ := by
  have hbytes := hgrew.bytes
  have hinside := h.inside
  refine ⟨h.range, ?_, ?_, ?_, ?_, h.footprint, h.unlimited, h.plain, h.fresh,
    h.top_first⟩
  · dsimp only
    omega
  · dsimp only
    rw [hgrew.maxPages]
    exact h.representable
  · intro r hr
    exact h.lent_above r (hgrew.lent ▸ hr)
  · dsimp only
    rw [hgrew.lent, hbytes]
    exact h.placed.grow (by omega)

theorem disable (h : HeapInv layout w) : HeapInv layout { w with gm := disableContiguous w.gm } :=
  ⟨h.range, h.inside, h.representable, h.lent_above, h.placed, h.footprint, h.unlimited, h.plain,
    h.fresh, fun hinit => by
      obtain ⟨s, hs, htop⟩ := h.top_first hinit
      exact ⟨s, hs, htop.low, htop.finish, htop.aligned⟩⟩

theorem useRegion_eq (h : HeapInv layout w) (hnew : NewRegion w n e) (nb : Word) :
    ∃ m, Installed layout w n e m ∧
      useRegion nb (breakAddr w.env) n { w with env := e } = allocateFromTop nb ⟨e, m⟩ := by
  obtain ⟨m, hrun, hm⟩ := h.installRegion_installed hnew nb
  refine ⟨m, hm, ?_⟩
  rw [useRegion, read_bind_apply]
  dsimp only
  rw [hrun]
  rfl

theorem allocateFromTop_wp (h : HeapInv layout w) {nb : Word} (hnb : Padded nb) :
    wp (allocateFromTop nb) (fun _ => HeapInv layout) (fun _ _ => True) w := by
  rw [allocateFromTop, wp_bind, wp_read]
  split_ifs with hlt
  · exact h.split hnb hlt
  · exact h

theorem useRegion_wp (h : HeapInv layout w) (hnew : NewRegion w n e) {nb : Word}
    (hnb : Padded nb) :
    (useRegion nb (breakAddr w.env) n { w with env := e }).Meets (fun _ => HeapInv layout)
      fun _ _ => True := by
  obtain ⟨m, hm, hrun⟩ := h.useRegion_eq hnew nb
  rw [hrun]
  exact hm.inv.allocateFromTop_wp hnb

theorem sysAlloc_wp (h : HeapInv layout w) {nb : Word} (hnb : Padded nb)
    (htop : w.gm.topsize ≤ nb) :
    wp (sysAlloc nb) (fun _ => HeapInv layout) (fun _ _ => True) w := by
  have hcases := sysAlloc_cases nb htop
  unfold wp
  generalize sysAlloc nb w = outcome at hcases ⊢
  cases hcases with
  | exhausted e gm hgrew same =>
    rcases same with rfl | rfl
    · exact h.grew hgrew
    · exact (h.grew hgrew).disable
  | leaked e hgrew => exact h.grew hgrew
  | extended n e ss hgrew enough page => exact h.useRegion_wp ⟨hgrew, page.1⟩ hnb
  | granted n e hgrew enough => exact h.useRegion_wp ⟨hgrew, by omega⟩ hnb
  | undersized n e hgrew pos => exact h.useRegion_wp ⟨hgrew, pos⟩ hnb
  | trapped e release => exact trivial

end HeapInv

/-- The linker's promise: the initial heap lies inside the initial memory. -/
structure InitialHeap (layout : HeapLayout) (memory : Memory) : Prop where
  range : layout.heapBase.toNat ≤ layout.heapEnd.toNat
  inside : layout.heapEnd.toNat ≤ memory.bytes

theorem heapInv_initial {layout : HeapLayout} {memory : Memory} (h : InitialHeap layout memory)
    (hrepr : 0 < layout.heapBase.toNat ∨ memory.maxPages < 65536) :
    HeapInv layout (World.initial memory) where
  range := h.range
  inside := h.inside
  representable := hrepr
  lent_above _ hr := nomatch hr
  placed := Placed.empty _ _
  footprint := rfl
  unlimited := rfl
  plain _ hs := nomatch hs
  fresh _ := ⟨rfl, rfl⟩
  top_first hinit := nomatch hinit

theorem run_heapInv {layout : HeapLayout} {w : World} (h : HeapInv layout w)
    (requests : List Request) :
    wp (runAll (step layout) requests) (fun _ => HeapInv layout) (fun _ _ => True) w := by
  refine runAll_wp (HeapInv layout) (fun request w hw _ => ?_) requests h (along_true _ _ _)
  refine step_wp (fun _ _ _ _ => trivial) (heapInv_keeps layout) hw ?_
  exact RequestCalls.mono (fun nb w' hnb htop _ hw' => hw'.sysAlloc_wp hnb htop)
    (requestCalls_of_wp (wp_true (step layout request) w))

/-- What the allocator owns: segments inside memory, apart from each other and from the pages of
others, and a footprint that is their size. -/
structure OwnsSegments (layout : HeapLayout) (w : World) : Prop where
  inside : ∀ s ∈ segments w.gm, layout.heapBase.toNat ≤ s.region.base ∧
    s.region.finish ≤ w.env.memory.bytes
  disjoint : (segments w.gm).Pairwise fun s t => Disjoint s.region.bytes t.region.bytes
  others : ∀ s ∈ segments w.gm, ∀ r ∈ w.env.lent, Disjoint s.region.bytes r.bytes
  footprint : w.gm.footprint.toNat = ((segments w.gm).map fun s => s.size.toNat).sum

theorem HeapInv.owns {layout : HeapLayout} {w : World} (h : HeapInv layout w) :
    OwnsSegments layout w where
  inside s hs := ⟨h.placed.above _ (List.mem_map_of_mem hs), h.placed.below _ (List.mem_map_of_mem hs)⟩
  disjoint := (List.pairwise_map.mp h.placed.held_apart).imp fun hst => hst.disjoint
  others s hs r hr := (h.placed.lent_apart _ (List.mem_map_of_mem hs) r hr).disjoint
  footprint := by
    rw [h.footprint, total, regions, List.map_map]
    rfl

/-- After every run of requests and foreign growth the allocator owns its segments. -/
theorem run_owns_segments (layout : HeapLayout) (memory : Memory) (requests : List Request)
    (hinitial : InitialHeap layout memory)
    (hrepr : 0 < layout.heapBase.toNat ∨ memory.maxPages < 65536) :
    wp (runAll (step layout) requests) (fun _ => OwnsSegments layout) (fun _ _ => True)
      (World.initial memory) :=
  wp_mono (run_heapInv (heapInv_initial hinitial hrepr) requests) (fun _ _ h => h.owns)
    fun _ _ h => h

/-- One page of heap and two of memory: a split, a foreign page, and a region of its own. -/
theorem run_owns_segments_two_pages :
    wp (runAll (step ⟨65536#32, 131072#32⟩) [.malloc 100 none, .grow 1, .malloc 70000 none])
      (fun _ => OwnsSegments ⟨65536#32, 131072#32⟩) (fun _ _ => True)
      (World.initial ⟨2, 65536, by decide, by decide⟩) ∧
    (runAll (step ⟨65536#32, 131072#32⟩) [.malloc 100 none, .grow 1, .malloc 70000 none]
      (World.initial ⟨2, 65536, by decide, by decide⟩)).state.gm.segs =
        [⟨196608#32, 131072#32, 0#32⟩, ⟨65536#32, 65536#32, 0#32⟩] :=
  ⟨run_owns_segments _ _ _ ⟨by decide, by decide⟩ (Or.inl (by decide)), by decide +kernel⟩

/-- With a heap from address 0 on, the last page is prepended to the first segment, whose interval
then reaches past the address space. -/
theorem run_overlaps_at_zero :
    ¬ wp (runAll (step ⟨0#32, 65536#32⟩) [.malloc 65452 none, .grow 65534, .malloc 20 none])
      (fun _ => OwnsSegments ⟨0#32, 65536#32⟩) (fun _ _ => True)
      (World.initial ⟨1, 65536, by decide, by decide⟩) := by
  intro h
  obtain ⟨_, howns⟩ := wp_returns h (by decide +kernel)
  have hsegs : segments (runAll (step ⟨0#32, 65536#32⟩)
      [.malloc 65452 none, .grow 65534, .malloc 20 none]
      (World.initial ⟨1, 65536, by decide, by decide⟩)).state.gm =
        [⟨4294901760#32, 131072#32, 0#32⟩] := by
    decide +kernel
  have hinside := (howns.inside ⟨4294901760#32, 131072#32, 0#32⟩ (by rw [hsegs]; simp)).2
  have hle := hinside.trans (bytes_le _)
  revert hle
  decide

end WasmCxxShim.Dlmalloc
