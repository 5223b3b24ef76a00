import WasmCxxShim.DlmallocIncrements

/-!
# The memory that the allocator manages

`HeapInv` is the invariant of the allocator state between requests: its segments and the pages
lent to other parties are placed apart below the break, the footprint is the size of the
segments, and top lies at the end of the first of them. Every part of a request keeps it.
-/
namespace WasmCxxShim.Dlmalloc
open MachineWords HaltingPrograms AddressRegions LinearMemory

/-- The segments of an allocator; the record of an uninitialised one is not a segment. -/
def segments (m : MallocState) : List Segment := if isInitialized m then m.segs else []

def regions (m : MallocState) : List Region := (segments m).map Segment.region

/-- Top is an aligned chunk in the segment, followed only by the space at its foot. -/
structure TopIn (m : MallocState) (s : Segment) : Prop where
  low : s.base.toNat ≤ m.top.toNat
  finish : m.top.toNat + m.topsize.toNat + 56 = s.base.toNat + s.size.toNat
  aligned : m.top.toNat % 16 = 8

theorem TopIn.alignOffset_eq_zero {m : MallocState} {s : Segment} (h : TopIn m s) :
    alignOffset (chunk2mem m.top) = 0#32 := by
  have haligned := h.aligned
  apply BitVec.eq_of_toNat_eq
  rw [toNat_alignOffset, chunk2mem, twoSizeTSizes_eq]
  bv_omega

structure HeapInv (layout : HeapLayout) (w : World) : Prop where
  range : layout.heapBase.toNat ≤ layout.heapEnd.toNat
  inside : layout.heapEnd.toNat ≤ w.env.memory.bytes
  representable : 0 < layout.heapBase.toNat ∨ w.env.memory.maxPages < 65536
  lent_above : ∀ r ∈ w.env.lent, layout.heapEnd.toNat ≤ r.base
  placed : Placed layout.heapBase.toNat w.env.memory.bytes (regions w.gm) w.env.lent
  footprint : w.gm.footprint.toNat = total (regions w.gm)
  unlimited : w.gm.footprintLimit = 0
  plain : ∀ s ∈ segments w.gm, 0 < s.size.toNat ∧ s.sflags = 0
  fresh : isInitialized w.gm = false → w.gm.segs = [⟨0, 0, 0⟩] ∧ w.gm.topsize = 0
  top_first : isInitialized w.gm = true → ∃ s, w.gm.segs.head? = some s ∧ TopIn w.gm s

theorem request2size_mod (bytes : Word) : (request2size bytes).toNat % 16 = 0 := by
  unfold request2size
  split_ifs
  · rw [minChunkSize_eq]
    rfl
  · rw [toNat_padRequest]
    omega

/-- Every padded size that some size exceeds is a multiple of the alignment. -/
theorem Padded.mod {nb k : Word} (h : Padded nb) (hlt : nb < k) : nb.toNat % 16 = 0 := by
  obtain ⟨bytes, rfl⟩ := h
  unfold paddedSize at hlt ⊢
  split_ifs at hlt ⊢
  · exact request2size_mod bytes
  · have : maxSizeT.toNat = 4294967295 := by decide
    rw [word_lt, this] at hlt
    have := k.isLt
    omega
  · rw [toNat_padRequest]
    omega

theorem isInitialized_iff {m : MallocState} : isInitialized m = true ↔ m.top ≠ 0 := by
  simp [isInitialized]

theorem TopIn.initialized {m : MallocState} {s : Segment} (h : TopIn m s) :
    isInitialized m = true := by
  rw [isInitialized_iff, word_ne_zero]
  have := h.aligned
  omega

theorem segments_of_initialized {m : MallocState} (h : isInitialized m = true) :
    segments m = m.segs := if_pos h

theorem segments_of_fresh {m : MallocState} (h : isInitialized m = false) : segments m = [] := by
  rw [segments, h, if_neg Bool.false_ne_true]

/-- Different positions in the segment list that hold the same address do not exist. -/
theorem eq_of_overlap {segs : List Segment} (hapart : (segs.map Segment.region).Pairwise Region.Apart)
    {s t : Segment} (hs : s ∈ segs) (ht : t ∈ segs) {a : ℕ} (has : a ∈ s.region.bytes)
    (hat : a ∈ t.region.bytes) : s = t := by
  by_contra hne
  rw [List.pairwise_map] at hapart
  have : Std.Symm fun s t : Segment => s.region.Apart t.region := ⟨fun _ _ h => h.symm⟩
  have hst := hapart.forall hs ht hne
  exact Set.disjoint_left.mp hst.disjoint has hat

namespace HeapInv

variable {layout : HeapLayout} {w : World}

theorem top_in (h : HeapInv layout w) (hinit : isInitialized w.gm = true) :
    ∃ s ∈ w.gm.segs, TopIn w.gm s := by
  obtain ⟨s, hs, htop⟩ := h.top_first hinit
  exact ⟨s, List.mem_of_mem_head? hs, htop⟩

/-- Top may move within its segment. -/
theorem move_top (h : HeapInv layout w) {m : MallocState} (hsegs : m.segs = w.gm.segs)
    (hfootprint : m.footprint = w.gm.footprint) (hlimit : m.footprintLimit = w.gm.footprintLimit)
    (hinit : isInitialized w.gm = true) (htop : ∀ s ∈ w.gm.segs, TopIn w.gm s → TopIn m s) :
    HeapInv layout { w with gm := m } := by
  obtain ⟨s, hs, hin⟩ := h.top_first hinit
  have hin' := htop s (List.mem_of_mem_head? hs) hin
  have hm := hin'.initialized
  have hseg : segments m = segments w.gm := by
    rw [segments_of_initialized hm, segments_of_initialized hinit, hsegs]
  have hreg : regions m = regions w.gm := by rw [regions, regions, hseg]
  refine ⟨h.range, h.inside, h.representable, h.lent_above, ?_, ?_, ?_, ?_, ?_, ?_⟩
  · rw [hreg]
    exact h.placed
  · rw [hreg, hfootprint]
    exact h.footprint
  · rw [hlimit]
    exact h.unlimited
  · rw [hseg]
    exact h.plain
  · intro hfresh
    rw [hm] at hfresh
    cases hfresh
  · intro _
    rw [hsegs]
    exact ⟨s, hs, hin'⟩

theorem bins (h : HeapInv layout w) (chunks : ChunkStore) :
    HeapInv layout { w with gm := { w.gm with chunks := chunks } } :=
  ⟨h.range, h.inside, h.representable, h.lent_above, h.placed, h.footprint, h.unlimited, h.plain,
    h.fresh, fun hinit => by
      obtain ⟨s, hs, htop⟩ := h.top_first hinit
      exact ⟨s, hs, htop.low, htop.finish, htop.aligned⟩⟩

/-- The allocator is initialised when its top is larger than some size. -/
theorem initialized_of_topsize (h : HeapInv layout w) {nb : Word} (hlt : nb < w.gm.topsize) :
    isInitialized w.gm = true := by
  by_contra hfresh
  have := (h.fresh (Bool.not_eq_true _ ▸ hfresh)).2
  rw [this, word_lt] at hlt
  simp at hlt

/-- What is known of the segment that top lies in. -/
theorem top_bounds (h : HeapInv layout w) {s : Segment} (hs : s ∈ w.gm.segs) (htop : TopIn w.gm s) :
    s.base.toNat + s.size.toNat ≤ w.env.memory.bytes ∧
      w.env.memory.bytes ≤ 4294967296 := by
  have hin := h.placed.below s.region (by
    rw [regions, segments_of_initialized htop.initialized]
    exact List.mem_map_of_mem hs)
  exact ⟨hin, bytes_le w.env.memory⟩

/-- A chunk that borders top lies in the same segment. -/
theorem borders_top (h : HeapInv layout w) {p psize : Word} (hb : BordersTop p psize w.gm)
    {s : Segment} (hs : s ∈ w.gm.segs) (htop : TopIn w.gm s) : s.base.toNat ≤ p.toNat := by
  obtain ⟨hend, hmod, t, ht, hlow, hhigh⟩ := hb
  have hpair := h.placed.held_apart
  rw [regions, segments_of_initialized htop.initialized] at hpair
  obtain rfl : s = t := by
    apply eq_of_overlap hpair hs ht (a := w.gm.top.toNat)
    · have := htop.low
      have := htop.finish
      rw [Region.mem_bytes]
      simp only [Segment.region, Region.finish]
      omega
    · rw [Region.mem_bytes]
      simp only [Segment.region, Region.finish]
      omega
  exact hlow

theorem split (h : HeapInv layout w) {nb : Word} (hnb : Padded nb) (hlt : nb < w.gm.topsize) :
    HeapInv layout { w with gm := splitTop nb w.gm } := by
  refine h.move_top rfl rfl rfl (h.initialized_of_topsize hlt) fun s hs htop => ?_
  have hmod := hnb.mod hlt
  obtain ⟨hin, hle⟩ := h.top_bounds hs htop
  obtain ⟨hlow, hfinish, haligned⟩ := htop
  rw [word_lt] at hlt
  have htop' : (splitTop nb w.gm).top.toNat = w.gm.top.toNat + nb.toNat :=
    BitVec.toNat_add_of_lt (by omega)
  have hsize' : (splitTop nb w.gm).topsize.toNat = w.gm.topsize.toNat - nb.toNat :=
    BitVec.toNat_sub_of_le (word_le.mpr hlt.le)
  exact ⟨by omega, by omega, by omega⟩

theorem dispose (h : HeapInv layout w) (d : Disposal) :
    wp (Dlmalloc.dispose d) (fun _ => HeapInv layout)
      (fun r w' => r ≠ .sbrkTrap ∧ HeapInv layout w') w := by
  cases d with
  | binned chunks => exact h.bins chunks
  | intoTop p psize chunks =>
    rw [Dlmalloc.dispose, wp_bind, wp_read]
    split_ifs with hb
    · have hinit : isInitialized w.gm = true := by
        have := hb.1
        have := hb.2.1
        rw [isInitialized_iff, word_ne_zero]
        omega
      refine h.move_top rfl rfl rfl hinit fun s hs htop => ?_
      have hbase := h.borders_top hb hs htop
      obtain ⟨hin, hle⟩ := h.top_bounds hs htop
      obtain ⟨hlow, hfinish, haligned⟩ := htop
      obtain ⟨hend, hmod, -⟩ := hb
      have hsize : (w.gm.topsize + psize).toNat = w.gm.topsize.toNat + psize.toNat :=
        BitVec.toNat_add_of_lt (by omega)
      exact ⟨hbase, by dsimp only; omega, hmod⟩
    · exact ⟨by decide, h⟩

theorem resize (h : HeapInv layout w) (bytes : Word) (r : Resize) :
    wp (tryReallocChunk (request2size bytes) r) (fun _ => HeapInv layout)
      (fun r w' => r ≠ .sbrkTrap ∧ HeapInv layout w') w := by
  cases r with
  | refused => exact h
  | inPlace chunks remainder =>
    rw [tryReallocChunk, wp_bind]
    change wp (remainder.forM Dlmalloc.dispose >>= fun _ => pure true) _ _ _
    rw [wp_bind]
    cases remainder with
    | none => exact h.bins chunks
    | some d => exact (h.bins chunks).dispose d
  | intoTop p oldsize chunks =>
    rw [tryReallocChunk, wp_bind, wp_read]
    dsimp only
    split_ifs with hb hroom
    · obtain ⟨hb, hless⟩ := hb
      have hinit : isInitialized w.gm = true := by
        have := hb.1
        have := hb.2.1
        rw [isInitialized_iff, word_ne_zero]
        omega
      refine h.move_top rfl rfl rfl hinit fun s hs htop => ?_
      have hbase := h.borders_top hb hs htop
      have hnb := request2size_mod bytes
      generalize request2size bytes = nb at hnb hless hroom ⊢
      obtain ⟨hin, hle⟩ := h.top_bounds hs htop
      obtain ⟨hlow, hfinish, haligned⟩ := htop
      obtain ⟨hend, hmod, -⟩ := hb
      have hsum : (oldsize + w.gm.topsize).toNat = oldsize.toNat + w.gm.topsize.toNat :=
        BitVec.toNat_add_of_lt (by omega)
      rw [word_lt, hsum] at hroom
      have hsize : (oldsize + w.gm.topsize - nb).toNat =
          oldsize.toNat + w.gm.topsize.toNat - nb.toNat := by
        rw [BitVec.toNat_sub_of_le (by rw [word_le, hsum]; omega), hsum]
      have htop' : (p + nb).toNat = p.toNat + nb.toNat := BitVec.toNat_add_of_lt (by omega)
      exact ⟨by dsimp only; omega, by dsimp only; omega, by dsimp only; omega⟩
    · exact h
    · exact ⟨by decide, h⟩

theorem grow (h : HeapInv layout w) (delta : Word) :
    HeapInv layout { w with env := foreignGrow delta w.env } := by
  by_cases hfits : w.env.memory.pages + delta.toNat ≤ w.env.memory.maxPages
  · rw [foreignGrow_ok hfits]
    have hbytes : (lentTo delta w.env hfits).memory.bytes =
        w.env.memory.bytes + delta.toNat * 65536 := Nat.add_mul _ _ _
    refine ⟨h.range, ?_, h.representable, ?_, ?_, h.footprint, h.unlimited, h.plain, h.fresh,
      h.top_first⟩
    · have := h.inside
      dsimp only
      omega
    · intro r hr
      rcases List.mem_cons.mp hr with rfl | hr
      · exact h.inside
      · exact h.lent_above r hr
    · exact h.placed.lend (r := ⟨_, _⟩) (le_refl _) hbytes.ge
  · rw [foreignGrow_fail hfits]
    exact h

/-- A new state after memory grew by `n` bytes that went to the segments. -/
theorem after_growth (h : HeapInv layout w) {n : Word} {e : Env} (grew : Grew n.toNat w.env e)
    {m : MallocState}
    (hplaced : Placed layout.heapBase.toNat e.memory.bytes (m.segs.map Segment.region) e.lent)
    (htotal : total (m.segs.map Segment.region) = total (regions w.gm) + n.toNat)
    (hfootprint : m.footprint = w.gm.footprint + n) (hlimit : m.footprintLimit = 0)
    (hplain : ∀ s ∈ m.segs, 0 < s.size.toNat ∧ s.sflags = 0)
    (htop : ∃ s, m.segs.head? = some s ∧ TopIn m s) :
    HeapInv layout ⟨e, m⟩ := by
  have hbytes := grew.bytes
  have hmax := grew.maxPages
  obtain ⟨s, hs, hin⟩ := htop
  have hseg : segments m = m.segs := segments_of_initialized hin.initialized
  have hreg : regions m = m.segs.map Segment.region := by rw [regions, hseg]
  have hinside := h.inside
  have hrepr : 0 < layout.heapBase.toNat ∨ e.memory.maxPages < 65536 := by
    rw [hmax]
    exact h.representable
  have hlt : total (m.segs.map Segment.region) < 4294967296 := by
    have hrange := h.range
    have hle := hplaced.total_le (by omega)
    have hbytes_le := bytes_le e.memory
    have hpages := e.memory.pages_le
    have hdef : e.memory.bytes = e.memory.pages * 65536 := rfl
    omega
  refine ⟨h.range, ?_, hrepr, ?_, ?_, ?_, hlimit, ?_, ?_, fun _ => ⟨s, hs, hin⟩⟩
  · dsimp only
    omega
  · intro r hr
    exact h.lent_above r (grew.lent ▸ hr)
  · rw [hreg]
    exact hplaced
  · dsimp only
    rw [hreg, hfootprint, BitVec.toNat_add_of_lt (by rw [h.footprint]; omega), h.footprint, htotal]
  · rw [hseg]
    exact hplain
  · intro hfresh
    dsimp only at hfresh
    rw [hin.initialized] at hfresh
    cases hfresh

end HeapInv

theorem topIn_of_base {m : MallocState} {base size flags : Word} (htop : m.top = alignAsChunk base)
    (hsize : m.topsize = size - topFootSize - alignOffset (chunk2mem base))
    (hroom : base.toNat + size.toNat ≤ 4294967296) (hbig : 72 ≤ size.toNat) :
    TopIn m ⟨base, size, flags⟩ := by
  have hoffset := toNat_alignOffset (chunk2mem base)
  have hmem : (chunk2mem base).toNat = base.toNat + 8 := by
    rw [chunk2mem, twoSizeTSizes_eq]
    exact BitVec.toNat_add_of_lt (show base.toNat + 8 < 2 ^ 32 by omega)
  rw [hmem] at hoffset
  have htop' : m.top.toNat = base.toNat + (alignOffset (chunk2mem base)).toNat := by
    rw [htop, alignAsChunk]
    exact BitVec.toNat_add_of_lt (by omega)
  have hsize' : m.topsize.toNat = size.toNat - 56 - (alignOffset (chunk2mem base)).toNat := by
    have hfoot : topFootSize.toNat = 56 := by decide
    have hsub : (size - topFootSize).toNat = size.toNat - 56 := by
      rw [BitVec.toNat_sub_of_le (by rw [word_le, hfoot]; omega), hfoot]
    rw [hsize, BitVec.toNat_sub_of_le (by rw [word_le, hsub]; omega), hsub]
  exact ⟨by dsimp only; omega, by dsimp only; omega, by omega⟩

/-- In a segment that begins at a page the new top begins 8 bytes after it. -/
theorem topsize_of_base {m : MallocState} {base size : Word} (hbase : 16 ∣ base.toNat)
    (hsize : m.topsize = size - topFootSize - alignOffset (chunk2mem base))
    (hbig : 72 ≤ size.toNat) : m.topsize.toNat + 64 = size.toNat := by
  have hoffset := toNat_alignOffset (chunk2mem base)
  have hmem : (chunk2mem base).toNat % 16 = 8 := by
    rw [chunk2mem, twoSizeTSizes_eq]
    bv_omega
  have hfoot : topFootSize.toNat = 56 := by decide
  have hsub : (size - topFootSize).toNat = size.toNat - 56 := by
    rw [BitVec.toNat_sub_of_le (by rw [word_le, hfoot]; omega), hfoot]
  rw [hsize, BitVec.toNat_sub_of_le (by rw [word_le, hsub]; omega), hsub]
  omega

/-- The initial heap is one segment with top at its start. -/
theorem HeapInv.firstHeap {layout : HeapLayout} {w : World} (h : HeapInv layout w)
    (hfresh : isInitialized w.gm = false) {size : Word}
    (hsize : size.toNat = layout.heapEnd.toNat - layout.heapBase.toNat) (hbig : 88 < size.toNat) :
    HeapInv layout { w with gm := initialState layout.heapBase size w.gm } := by
  have hrange := h.range
  have hinside := h.inside
  have hle := bytes_le w.env.memory
  have htop : TopIn (initialState layout.heapBase size w.gm) ⟨layout.heapBase, size, 0⟩ :=
    topIn_of_base rfl rfl (by omega) (by omega)
  have hsegs : segments (initialState layout.heapBase size w.gm) =
      [⟨layout.heapBase, size, 0⟩] := by
    rw [segments_of_initialized htop.initialized]
    change _ :: w.gm.segs.tail = _
    rw [(h.fresh hfresh).1, List.tail_cons]
  have hregs : regions (initialState layout.heapBase size w.gm) =
      [⟨layout.heapBase.toNat, size.toNat⟩] := by
    rw [regions, hsegs]
    rfl
  refine ⟨hrange, hinside, h.representable, h.lent_above, ?_, ?_, h.unlimited, ?_, ?_, fun _ =>
    ⟨_, rfl, htop⟩⟩
  · dsimp only
    rw [hregs]
    refine ⟨by simp, by simp [Region.finish]; omega, h.placed.lent_below, by simp, ?_⟩
    intro r hr t ht
    rw [List.mem_singleton.mp hr]
    have := h.lent_above t ht
    exact Or.inl (by simp only [Region.finish]; omega)
  · dsimp only
    rw [hregs]
    rfl
  · dsimp only
    rw [hsegs]
    intro s hs
    rw [List.mem_singleton.mp hs]
    exact ⟨by dsimp only; omega, rfl⟩
  · intro hno
    rw [htop.initialized] at hno
    cases hno

theorem HeapInv.init {layout : HeapLayout} {w : World} (h : HeapInv layout w) :
    wp (ensureInitialized layout) (fun _ => HeapInv layout)
      (fun r w' => r ≠ .sbrkTrap ∧ HeapInv layout w') w := by
  rw [ensureInitialized, wp_bind, wp_read]
  by_cases hinit : isInitialized w.gm = true
  · rw [if_pos hinit]
    exact h
  rw [if_neg hinit, tryInitAllocator]
  dsimp only
  split_ifs with htrap hsmall
  · exact ⟨by decide, h⟩
  · exact h
  · have hmin : minChunkSize + topFootSize + mallocAlignment = (88 : Word) := by decide
    rw [hmin, BitVec.not_le, word_lt] at hsmall
    exact h.firstHeap (Bool.not_eq_true _ ▸ hinit) (BitVec.toNat_sub_of_le h.range) hsmall

theorem heapInv_keeps (layout : HeapLayout) : Keeps layout (HeapInv layout) where
  init _ h := h.init
  bins _ chunks h := h.bins chunks
  split _ _ h hnb hlt := h.split hnb hlt
  dispose d _ h := h.dispose d
  resize bytes r _ h := h.resize bytes r
  grow delta _ h := h.grow delta

end WasmCxxShim.Dlmalloc
