import WasmCxxShim.DlmallocInstall

/-!
# The tiling when the heap grows

A region joins the segments in one of three ways: as the first segment, at the end of the segment
of top, or as a segment of its own. The heap stays tiled in each of them, and the only chunk that
may be newly in use holds the record of a segment.
-/
namespace WasmCxxShim.Dlmalloc
open MachineWords HaltingPrograms AddressRegions AddressTilings LinearMemory

variable {m m' : MallocState} {T N : Set Tile} {t u : Tile} {c c' : ChunkStore}
  {layout : HeapLayout} {w : World} {n : Word} {e : Env}

/-- The state in which a region is added on its own. -/
def beforeAdding (w : World) (n : Word) : MallocState :=
  { addFootprint n w.gm with
    leastAddr := if breakAddr w.env < w.gm.leastAddr then breakAddr w.env else w.gm.leastAddr }

inductive Joins (w : World) (n : Word) : MallocState → Prop
  | first (fresh : isInitialized w.gm = false) :
      Joins w n (firstSegment (breakAddr w.env) n (addFootprint n w.gm))
  | extends_top (sp : Segment) (found : w.gm.segs.find? (endsAt (breakAddr w.env)) = some sp)
      (holds : segmentHolds sp w.gm.top = true) (init : isInitialized w.gm = true) :
      Joins w n (appendRegion (breakAddr w.env) n (addFootprint n w.gm))
  | added (init : isInitialized w.gm = true) :
      Joins w n (addSegment (breakAddr w.env) n useMmapBit (beforeAdding w n))

theorem HeapInv.installRegion_joins (h : HeapInv layout w) (hnew : NewRegion w n e) (nb : Word) :
    ∃ m, installRegion nb (breakAddr w.env) n w.gm = (none, m) ∧ Joins w n m := by
  have hsame : isInitialized (addFootprint n w.gm) = isInitialized w.gm := rfl
  unfold installRegion
  dsimp only
  rw [hsame]
  by_cases hinit : isInitialized w.gm = true
  · have hnone : (addFootprint n w.gm).segs.find? (beginsAt (breakAddr w.env + n)) = none := by
      rw [List.find?_eq_none]
      intro s hs hbegins
      exact h.no_segment_at_end hnew hinit hs (beq_iff_eq.mp hbegins)
    have hadded : installApart nb (breakAddr w.env) n (addFootprint n w.gm) = (none, _) :=
      HeapInv.installApart_none hnone
    rw [if_pos hinit]
    unfold installMerging
    cases hfind : (addFootprint n w.gm).segs.find? (endsAt (breakAddr w.env)) with
    | none => exact ⟨_, hadded, .added hinit⟩
    | some sp =>
      have hmerge := HeapInv.mergeable_of_plain
        (h.segment_plain hinit (List.mem_of_find?_eq_some hfind)).2
      dsimp only
      by_cases hholds : segmentHolds sp w.gm.top = true
      · refine ⟨_, if_pos ?_, .extends_top sp hfind hholds hinit⟩
        rw [hmerge]
        exact hholds
      · rw [if_neg (by rw [hmerge]; exact hholds)]
        exact ⟨_, hadded, .added hinit⟩
  · rw [if_neg hinit]
    exact ⟨_, rfl, .first (Bool.not_eq_true _ ▸ hinit)⟩

theorem Tiled.empty (hT : Tiled m T) (hfresh : isInitialized m = false) : T = ∅ := by
  ext t
  simp only [Set.mem_empty_iff_false, iff_false]
  intro ht
  rw [hT.initialized ht] at hfresh
  cases hfresh

/-- Top is a tile of its segment. -/
theorem Tiled.top_in (hT : Tiled m T) {s : Segment} (hs : s ∈ segments m) (hin : TopIn m s) :
    (⟨m.top, m.topsize, .top⟩ : Tile).In s := by
  refine hT.in_of_addr (hT.top_mem hin.initialized) hs ⟨hin.low, ?_⟩
  have hfinish := hin.finish
  dsimp only
  omega

theorem tags_empty (c : ChunkStore) : Tags c ∅ :=
  ⟨fun _ h => h.elim, fun _ h => h.elim, fun _ h => h.elim, fun _ h => h.elim, fun _ h => h.elim,
    fun _ h => h.elim⟩

/-- A new top that is the whole of the first segment. -/
theorem Tiled.firstTop (hT : Tiled m T) (hfresh : isInitialized m = false) {s : Segment}
    (hchunks : m'.chunks = (m.chunks.setHead m'.top (m'.topsize ||| pinuseBit)).setHead
      (m'.top + m'.topsize) topFootSize) (hsegs : m'.segs = [s]) (hin : TopIn m' s)
    (hfirst : m'.top.toNat = firstChunk s) (hmod : m'.topsize.toNat % 16 = 0)
    (hlarge : 16 ≤ m'.topsize.toNat) (hroom : s.base.toNat + s.size.toNat ≤ 4294967296)
    (hleast : m'.leastAddr.toNat ≤ s.base.toNat) :
    Evolves m m' T {⟨m'.top, m'.topsize, .top⟩} ∅ ∅ := by
  obtain rfl := hT.empty hfresh
  have hinit := hin.initialized
  have hfinish := hin.finish
  have hshaped : (⟨m'.top, m'.topsize, .top⟩ : Tile).Shaped :=
    ⟨hin.aligned, hmod, hlarge, by dsimp only; omega⟩
  have hnext : (m'.top + m'.topsize).toNat = m'.top.toNat + m'.topsize.toNat := hshaped.toNat_next
  have htags := Tags.newTop (tags_empty m.chunks) hshaped fun t ht => ht.elim
  rw [← hchunks, insert_empty_eq] at htags
  have hseg : segments m' = [s] := by rw [segments_of_initialized hinit, hsegs]
  have hfree : freeChunks {(⟨m'.top, m'.topsize, .top⟩ : Tile)} = freeChunks ∅ := by
    ext x
    simp [freeChunks]
  have hused : ∀ x ∈ ({⟨m'.top, m'.topsize, .top⟩} : Set Tile), x.kind ≠ .inuse := by
    rintro x rfl hkind
    cases hkind
  refine ⟨⟨htags, ?_, fun _ => rfl, fun t ht _ => ht, ?_, ?_, ?_, ?_, ?_⟩, ?_, fun t ht => ht.1.elim⟩
  · rw [hfree, hchunks]
    exact hT.links.congr rfl rfl rfl
  · rintro t rfl
    refine ⟨s, by rw [hseg]; simp, hfirst.ge, ?_⟩
    change (m'.top + m'.topsize).toNat + 24 ≤ _
    omega
  · rw [hseg]
    intro s' hs' x hlow hhigh
    rw [List.mem_singleton.mp hs'] at hlow hhigh
    refine ⟨_, rfl, ?_⟩
    rw [Region.mem_bytes]
    simp only [Tile.region, Region.finish]
    omega
  · rw [hseg]
    intro s₁ h₁ s₂ h₂ _ _ _
    rw [List.mem_singleton.mp h₁, List.mem_singleton.mp h₂]
  · rw [hseg]
    intro s' hs'
    rw [List.mem_singleton.mp hs']
    exact hleast
  · rintro t rfl
    exact Or.inl (le_refl _)
  · ext x
    refine ⟨fun hx => absurd hx.2 (hused x hx.1), ?_⟩
    rintro (⟨hx, -⟩ | hx)
    · exact hx.1.elim
    · exact hx.elim

/-- Other tiles end before top, or lie beyond its segment. -/
theorem Tiled.clear_of_top (hT : Tiled m T) (ht : t ∈ T)
    (hne : t ≠ ⟨m.top, m.topsize, .top⟩) :
    t.next.toNat ≤ m.top.toNat ∨ (m.top + m.topsize).toNat + 56 < t.addr.toNat := by
  have htop := hT.top_mem (hT.initialized ht)
  have htopaddr : m.top.toNat % 16 = 8 := (hT.shaped _ htop).addr
  have htopsize : m.topsize.toNat % 16 = 0 := (hT.shaped _ htop).size
  have htopnext : (m.top + m.topsize).toNat = m.top.toNat + m.topsize.toNat :=
    (hT.shaped _ htop).toNat_next
  have htoplarge : 16 ≤ m.topsize.toNat := (hT.shaped _ htop).large
  have haddr := (hT.shaped t ht).addr
  have hlarge := (hT.shaped t ht).large
  have hbeside := hT.separate t ht _ htop hne
  rw [Beside, (hT.shaped t ht).finish_eq, (hT.shaped _ htop).finish_eq] at hbeside
  change t.next.toNat ≤ m.top.toNat ∨ (m.top + m.topsize).toNat ≤ t.addr.toNat at hbeside
  rcases hT.beyond t ht with hbefore | hafter
  · omega
  · omega

theorem HeapInv.tile_below (h : HeapInv layout w) (hT : Tiled w.gm T) (ht : t ∈ T) :
    t.next.toNat + 24 ≤ w.env.memory.bytes := by
  obtain ⟨s, hs, hin⟩ := hT.inside t ht
  have hinit := hT.initialized ht
  rw [segments_of_initialized hinit] at hs
  exact hin.2.trans (h.segment_below hinit hs)

/-- The tiles after the last one has been replaced. -/
theorem mem_replace_last {b : ℕ} (hT : Tags c T) {r : Tile} (hr : r ∈ T) (hend : r.next.toNat ≤ b)
    (hclear : ∀ t ∈ T, t ≠ r → t.next.toNat ≤ r.addr.toNat ∨ b < t.addr.toNat) :
    t ∈ replace Tile.region T r.addr.toNat b N ↔ t ∈ T ∧ t ≠ r ∨ t ∈ N := by
  rw [mem_replace]
  refine or_congr (and_congr_right fun ht => ?_) Iff.rfl
  rw [Outside, (hT.shaped t ht).finish_eq]
  constructor
  · rintro hout rfl
    have hnext := (hT.shaped t ht).toNat_next
    have hlarge := (hT.shaped t ht).large
    change t.next.toNat ≤ t.addr.toNat ∨ b ≤ t.addr.toNat at hout
    omega
  · intro hne
    exact (hclear t ht hne).imp_right Nat.le_of_lt

section Growing

variable (h : HeapInv layout w) (hT : Tiled w.gm T) (hnew : NewRegion w n e)
  (hm : Installed layout w n e m')

include h hT hnew hm

/-- The region at the end of the segment of top extends top. -/
theorem HeapInv.extendTop_tiled (hinit : isInitialized w.gm = true) {sp : Segment}
    (hfind : w.gm.segs.find? (endsAt (breakAddr w.env)) = some sp)
    (hholds : segmentHolds sp w.gm.top = true)
    (hm' : m' = appendRegion (breakAddr w.env) n (addFootprint n w.gm)) :
    (∃ T', Evolves w.gm m' T T' ∅ ∅) ∧ m'.top.toNat = w.gm.top.toNat ∧
      m'.top.toNat + m'.topsize.toNat + 56 = sp.base.toNat + (sp.size + n).toNat := by
  obtain ⟨hbig, hroom, hbreak⟩ := hnew.bounds
  have hsp : sp ∈ w.gm.segs := List.mem_of_find?_eq_some hfind
  have hend : breakAddr w.env = sp.base + sp.size :=
    beq_iff_eq.mp (List.find?_some (p := endsAt (breakAddr w.env)) hfind)
  have hfin := finish_of_end hnew (h.segment_below hinit hsp) hend
  have hin := h.topIn_of_holds hinit hsp hholds
  have hoffset := hin.alignOffset_eq_zero
  have hadj : Adjacent w := (h.adjacent_iff hinit).mpr ⟨sp, hsp, hend, hholds⟩
  have htop' : m'.top = w.gm.top := by
    rw [hm', appendRegion, initTop_top]
    change w.gm.top + alignOffset (chunk2mem w.gm.top) = _
    rw [hoffset, BitVec.add_zero]
  have htopNat : m'.top.toNat = w.gm.top.toNat := congrArg BitVec.toNat htop'
  have hsize' := hm.extends_top hadj
  have hmem := hT.top_mem hinit
  have hnext : (w.gm.top + w.gm.topsize).toNat = w.gm.top.toNat + w.gm.topsize.toNat :=
    (hT.shaped _ hmem).toNat_next
  have hmod : w.gm.topsize.toNat % 16 = 0 := (hT.shaped _ hmem).size
  have hlarge : 16 ≤ w.gm.topsize.toNat := (hT.shaped _ hmem).large
  have hfinish := hin.finish
  have hdvd := hnew.dvd
  have hshaped : (⟨m'.top, m'.topsize, .top⟩ : Tile).Shaped :=
    ⟨by rw [htop']; exact hin.aligned, by dsimp only; omega, by dsimp only; omega,
      by dsimp only; rw [htop']; omega⟩
  have hnext' : (m'.top + m'.topsize).toNat = m'.top.toNat + m'.topsize.toNat := hshaped.toNat_next
  obtain ⟨rest, hold⟩ := h.first_of_holds hinit hsp hholds
  rw [HeapInv.appendRegion_first (m := addFootprint n w.gm) hold hend] at hm'
  have hchunks : m'.chunks = (w.gm.chunks.setHead m'.top (m'.topsize ||| pinuseBit)).setHead
      (m'.top + m'.topsize) topFootSize := by
    rw [hm']
    rfl
  have hne : m'.top ≠ m'.top + m'.topsize := by
    intro heq
    rw [← heq] at hnext'
    omega
  have hself : m'.chunks.head m'.top = m'.topsize ||| pinuseBit := by
    rw [hchunks]
    simp [hne]
  have hborder : m'.chunks.head (m'.top + m'.topsize) = topFootSize := by
    rw [hchunks]
    simp
  have hbefore : ∀ t ∈ T, t ≠ ⟨w.gm.top, w.gm.topsize, .top⟩ → t.next.toNat ≤ w.gm.top.toNat := by
    intro t ht htne
    rcases hT.clear_of_top ht htne with hbefore | hafter
    · exact hbefore
    · have := h.tile_below hT ht
      have := (hT.shaped t ht).toNat_next
      omega
  have hgrown : (sp.size + n).toNat = sp.size.toNat + n.toNat := by
    have habove := h.segment_above hinit hsp
    have hbytes := hnew.grew.bytes
    have hmax := hnew.grew.maxPages
    have hpages := e.memory.pages_le
    have hdef : e.memory.bytes = e.memory.pages * 65536 := rfl
    have := h.representable
    exact BitVec.toNat_add_of_lt (by omega)
  have hsegs' : m'.segs = { sp with size := sp.size + n } :: rest := by
    rw [hm']
    rfl
  have hseg := segments_of_initialized hm.initialized
  have hseg₀ := segments_of_initialized hinit
  have hkind : ∀ x ∈ ({⟨m'.top, m'.topsize, .top⟩} : Set Tile), x.kind = .top := by
    rintro x rfl
    rfl
  have hrep : Replaces w.gm.chunks m'.chunks T ⟨w.gm.top, w.gm.topsize, .top⟩
      (m'.top + m'.topsize).toNat {⟨m'.top, m'.topsize, .top⟩} := by
    refine Replaces.last hT.toTags (fun _ => hT.free) hmem ?_
      (fun t ht htne => Or.inl (hbefore t ht htne)) ?_ (hT.pinuse_of_unused hmem (by simp))
      ?_ ?_ ?_ ?_ ?_ ⟨_, rfl, htop'⟩ ?_ ?_ ?_
    · change (w.gm.top + w.gm.topsize).toNat ≤ _
      rw [hnext', hnext, htop', hsize']
      omega
    · rw [hchunks]
      change Frame w.gm.top.toNat _ _ _
      exact (Frame.refl.setHead _ (by omega) (by omega) (by omega)).setHead _ (by omega) (by omega)
        (by omega)
    · change m'.chunks.pinuse w.gm.top = true
      rw [← htop', ChunkStore.pinuse_eq, hself, headPinuse_free]
    · rintro x rfl
      exact hshaped
    · rintro x rfl y rfl hne'
      exact absurd rfl hne'
    · rintro x rfl
      exact ⟨by rw [htop'], le_refl _⟩
    · rintro x rfl
      exact Tagged.top hshaped.size hself (by rw [ChunkStore.pinuse, hborder]; decide)
    · rintro x rfl
      exact Or.inl htop'
    · exact fun x hx hno => absurd (hkind x hx) hno
    · rintro x rfl y rfl heq
      exact absurd heq hne
  have htags := hrep.tags hT.toTags
  have hmem' : ∀ t, t ∈ replace Tile.region T w.gm.top.toNat (m'.top + m'.topsize).toNat
      {⟨m'.top, m'.topsize, .top⟩} ↔
        t ∈ T ∧ t ≠ ⟨w.gm.top, w.gm.topsize, .top⟩ ∨ t = ⟨m'.top, m'.topsize, .top⟩ := by
    intro t
    refine mem_replace_last hT.toTags hmem ?_ fun t ht htne => Or.inl (hbefore t ht htne)
    change (w.gm.top + w.gm.topsize).toNat ≤ _
    rw [hnext', hnext, htop', hsize']
    omega
  have hcover : ∀ x, w.gm.top.toNat ≤ x → x < (m'.top + m'.topsize).toNat →
      x ∈ covered Tile.region ({⟨m'.top, m'.topsize, .top⟩} : Set Tile) := by
    intro x hlow hhigh
    refine ⟨_, rfl, ?_⟩
    rw [Region.mem_bytes]
    simp only [Tile.region, Region.finish]
    omega
  have hkept := covered_replace hrep.clean hcover
  refine ⟨?_, htopNat, by omega⟩
  refine ⟨_, ⟨htags, ?_, ?_, ?_, ?_, ?_, ?_, ?_, ?_⟩, ?_, ?_⟩
  · have hfree : freeChunks (replace Tile.region T w.gm.top.toNat (m'.top + m'.topsize).toNat
        {⟨m'.top, m'.topsize, .top⟩}) = freeChunks T := by
      ext x
      refine (hmem' _).trans ?_
      simp [freeChunks]
    rw [hchunks]
    exact hfree ▸ hT.links.congr rfl rfl rfl
  · exact fun _ => (hmem' _).mpr (Or.inr rfl)
  · intro t ht htop
    rcases (hmem' t).mp ht with ⟨ht, hne'⟩ | rfl
    · exact absurd (hT.top_only t ht htop) hne'
    · rfl
  · rw [hseg, hsegs']
    intro t ht
    rcases (hmem' t).mp ht with ⟨ht, -⟩ | rfl
    · obtain ⟨s, hs, hlow, hhigh⟩ := hT.inside t ht
      rw [hseg₀, hold] at hs
      rcases List.mem_cons.mp hs with rfl | hs
      · refine ⟨{ s with size := s.size + n }, by simp, hlow, ?_⟩
        dsimp only
        omega
      · exact ⟨s, List.mem_cons_of_mem _ hs, hlow, hhigh⟩
    · refine ⟨{ sp with size := sp.size + n }, by simp, ?_, ?_⟩
      · exact (hT.top_in (hseg₀ ▸ hsp) hin).1.trans htopNat.ge
      · change (m'.top + m'.topsize).toNat + 24 ≤ sp.base.toNat + (sp.size + n).toNat
        rw [hnext', htop', hsize', hgrown]
        omega
  · rw [hseg, hsegs']
    intro s hs x hlow hhigh
    have hs' : s = { sp with size := sp.size + n } ∨ s ∈ w.gm.segs := by
      rw [hold]
      exact (List.mem_cons.mp hs).imp_right (List.mem_cons_of_mem _)
    rcases hs' with rfl | hs'
    · by_cases hx : x + 56 < sp.base.toNat + sp.size.toNat
      · exact hkept (hT.filled sp (hseg₀ ▸ hsp) x hlow hx)
      · obtain ⟨t, ht, hxt⟩ := hcover x (by omega) (by
          rw [hnext', htop', hsize']
          dsimp only at hhigh
          omega)
        exact ⟨t, Or.inr ht, hxt⟩
    · exact hkept (hT.filled s (hseg₀ ▸ hs') x hlow hhigh)
  · rw [hseg]
    intro s hs s' hs' x hx hx'
    exact hm.inv.segment_unique hm.initialized hs hs' hx hx'
  · rw [hseg, hsegs']
    have hleast : m'.leastAddr = w.gm.leastAddr := by
      rw [hm']
      rfl
    have hall := hT.least
    rw [hseg₀, hold] at hall
    rw [hleast]
    intro s hs
    rcases List.mem_cons.mp hs with rfl | hs
    · exact hall sp (by simp)
    · exact hall s (List.mem_cons_of_mem _ hs)
  · intro t ht
    rcases (hmem' t).mp ht with ⟨ht, hne'⟩ | rfl
    · left
      have := hbefore t ht hne'
      have := (hT.shaped t ht).toNat_next
      rw [htop']
      omega
    · exact Or.inl (le_refl _)
  · ext t
    simp only [used, Set.mem_ofPred_eq, hmem', Set.sdiff_empty, Set.union_empty]
    constructor
    · rintro ⟨⟨ht, -⟩ | rfl, hinuse⟩
      · exact ⟨ht, hinuse⟩
      · cases hinuse
    · rintro ⟨ht, hinuse⟩
      refine ⟨Or.inl ⟨ht, ?_⟩, hinuse⟩
      rintro rfl
      cases hinuse
  · intro t ht _
    refine hrep.frame.untouched hT.toTags (fun _ => hT.free) ht (Or.inl (hbefore t ht.1 ?_))
    rintro rfl
    cases ht.2

end Growing

/-- The record of the segment goes to where the foot of top was. -/
theorem addSegment_chunks {m : MallocState} {s : Segment} (hheld : segmentHolding m m.top = some s)
    (hin : TopIn m s) (hroom : s.base.toNat + s.size.toNat < 4294967296)
    (hmod : m.topsize.toNat % 16 = 0) (hlarge : 16 ≤ m.topsize.toNat) (base size flags : Word) :
    (addSegment base size flags m).chunks = closeTop m.top m.topsize (s.base + s.size)
      (m.segs.headD ⟨0, 0, 0⟩) (m.records.headD 0) (initTop base (size - topFootSize) m).chunks := by
  have hlow := hin.low
  have hfinish := hin.finish
  have haligned := hin.aligned
  have hend : (s.base + s.size).toNat = s.base.toNat + s.size.toNat := BitVec.toNat_add_of_lt hroom
  have hnext : (m.top + m.topsize).toNat = m.top.toNat + m.topsize.toNat :=
    BitVec.toNat_add_of_lt (by omega)
  have hpad : padRequest sizeofMallocSegment = 32 := by decide
  have hback : (32 : Word) + fourSizeTSizes + chunkAlignMask = 63 := by decide
  have hraw : (s.base + s.size - 63).toNat = s.base.toNat + s.size.toNat - 63 := by
    rw [BitVec.toNat_sub_of_le (show (63 : Word) ≤ _ by
      rw [word_le, hend]
      exact show 63 ≤ _ by omega), hend]
    rfl
  have hoffset : (alignOffset (chunk2mem (s.base + s.size - 63))).toNat = 7 := by
    rw [toNat_alignOffset, chunk2mem, twoSizeTSizes_eq,
      BitVec.toNat_add_of_lt (show _ + 8 < 2 ^ 32 by omega), hraw]
    change (16 - (s.base.toNat + s.size.toNat - 63 + 8) % 16) % 16 = 7
    omega
  have hasp : s.base + s.size - 63 + alignOffset (chunk2mem (s.base + s.size - 63)) =
      m.top + m.topsize := by
    apply BitVec.eq_of_toNat_eq
    rw [BitVec.toNat_add_of_lt (by omega), hraw, hoffset, hnext]
    omega
  have hmin : ¬ m.top + m.topsize < m.top + minChunkSize := by
    rw [word_lt, hnext, minChunkSize_eq,
      BitVec.toNat_add_of_lt (show m.top.toNat + 16 < 2 ^ 32 by omega)]
    exact Nat.not_lt.mpr (Nat.add_le_add_left hlarge _)
  have hne : ¬ m.top + m.topsize = m.top := fun heq => by
    rw [heq] at hnext
    omega
  have hsize : m.top + m.topsize - m.top = m.topsize := by
    rw [BitVec.add_comm, BitVec.add_sub_cancel]
  unfold addSegment
  dsimp only
  rw [hheld, Option.getD_some, hpad, hback, hasp, if_neg hmin, if_neg hne, hsize]
  rfl

theorem closeTop_links {top topsize oldEnd next : Word} {seg : Segment} {F : Set (Word × Word)}
    (h : Links c F) (hfresh : (top, topsize) ∉ F) :
    Links (closeTop top topsize oldEnd seg next c) (insert (top, topsize) F) := by
  generalize hrecord : (c.setSizeAndPinuseOfInuseChunk (top + topsize) 32).writeRecord
    (chunk2mem (top + topsize)) seg next = c₁
  obtain ⟨hdv, hsize, hbinned⟩ := fenceposts_rest oldEnd
    (oldEnd - (top + topsize + 32)).toNat (top + topsize + 32) c₁
  have hlinks₁ : Links c₁ F := hrecord ▸ h.congr rfl rfl rfl
  have hlinks : Links ((c₁.fenceposts oldEnd (oldEnd - (top + topsize + 32)).toNat
    (top + topsize + 32)).setFreeWithPinuse top topsize (top + topsize)) F :=
      hlinks₁.congr hdv hsize hbinned
  have hinsert := hlinks.insert hfresh
  rw [← hrecord] at hinsert
  exact hinsert

theorem toNat_alignAsChunk {a : Word} (h : a.toNat % 16 = 0) (hroom : a.toNat < 4294967280) :
    (alignAsChunk a).toNat = a.toNat + 8 ∧ (alignOffset (chunk2mem a)).toNat = 8 := by
  have hmem : (chunk2mem a).toNat = a.toNat + 8 := by
    rw [chunk2mem, twoSizeTSizes_eq]
    exact BitVec.toNat_add_of_lt (show a.toNat + 8 < 2 ^ 32 by omega)
  have hoffset : (alignOffset (chunk2mem a)).toNat = 8 := by
    rw [toNat_alignOffset, hmem]
    omega
  refine ⟨?_, hoffset⟩
  rw [alignAsChunk, BitVec.toNat_add_of_lt (by omega), hoffset]

/-- The segment of top is found unless it ends with the address space. -/
theorem HeapInv.top_held (h : HeapInv layout w) (hinit : isInitialized w.gm = true)
    (hroom : w.env.memory.bytes < 4294967296) :
    ∃ s ∈ w.gm.segs, segmentHolding w.gm w.gm.top = some s ∧ TopIn w.gm s := by
  cases hfind : segmentHolding w.gm w.gm.top with
  | none =>
    obtain ⟨s, hs, hin⟩ := h.top_in hinit
    have hlow := hin.low
    have hfinish := hin.finish
    have hbelow := h.segment_below hinit hs
    have hend : (s.base + s.size).toNat = s.base.toNat + s.size.toNat :=
      BitVec.toNat_add_of_lt (by omega)
    refine absurd ?_ (List.find?_eq_none.mp hfind s hs)
    rw [segmentHolds, Bool.and_eq_true, decide_eq_true_eq, decide_eq_true_eq, word_le, word_lt, hend]
    omega
  | some s =>
    obtain ⟨hs, hholds⟩ := segmentHolding_some hfind
    exact ⟨s, hs, rfl, h.topIn_of_holds hinit hs hholds⟩

section Adding

variable (h : HeapInv layout w) (hT : Tiled w.gm T) (hnew : NewRegion w n e)

include h hT hnew

/-- A region away from top becomes a segment of its own, with top in it. What was top is a free
chunk now. -/
theorem HeapInv.addSegment_tiled (hm : Installed layout w n e m')
    (hinit : isInitialized w.gm = true)
    (hm' : m' = addSegment (breakAddr w.env) n useMmapBit (beforeAdding w n)) :
    (∃ T', Evolves w.gm m' T T' ∅ {recordTile w.gm.top w.gm.topsize}) ∧
      m'.top.toNat + m'.topsize.toNat + 56 = (breakAddr w.env).toNat + n.toNat := by
  obtain ⟨hbig, hroom, hbreak⟩ := hnew.bounds
  have hpage : w.env.memory.bytes % 65536 = 0 := Nat.mul_mod_left _ _
  have hdvd := hnew.dvd
  have hmem := hT.top_mem hinit
  have hnext : (w.gm.top + w.gm.topsize).toNat = w.gm.top.toNat + w.gm.topsize.toNat :=
    (hT.shaped _ hmem).toNat_next
  have hmod : w.gm.topsize.toNat % 16 = 0 := (hT.shaped _ hmem).size
  have hlarge : 16 ≤ w.gm.topsize.toNat := (hT.shaped _ hmem).large
  -- The segment that held top.
  obtain ⟨ss, hss, hheld, hin⟩ := h.top_held hinit (by omega)
  have hlow := hin.low
  have hfinish := hin.finish
  have hssbelow := h.segment_below hinit hss
  have hend : (ss.base + ss.size).toNat = ss.base.toNat + ss.size.toNat :=
    BitVec.toNat_add_of_lt (by omega)
  have hchunks := addSegment_chunks (m := beforeAdding w n) hheld ⟨hlow, hfinish, hin.aligned⟩
    (by omega) hmod hlarge (breakAddr w.env) n useMmapBit
  rw [← hm'] at hchunks
  -- The new top.
  obtain ⟨hnewtop, hoffset⟩ := toNat_alignAsChunk (a := breakAddr w.env) (by omega) (by omega)
  have htop' : m'.top = alignAsChunk (breakAddr w.env) := by
    rw [hm']
    rfl
  have hsize' : m'.topsize = n - topFootSize - alignOffset (chunk2mem (breakAddr w.env)) := by
    rw [hm']
    rfl
  have hsizeNat := topsize_of_base (show 16 ∣ (breakAddr w.env).toNat by omega) hsize' (by omega)
  have htopNat : m'.top.toNat = w.env.memory.bytes + 8 := by
    rw [htop', hnewtop, hbreak]
  have hshaped : (⟨m'.top, m'.topsize, .top⟩ : Tile).Shaped :=
    ⟨by dsimp only; omega, by dsimp only; omega, by dsimp only; omega, by dsimp only; omega⟩
  have hnext' : (m'.top + m'.topsize).toNat = m'.top.toNat + m'.topsize.toNat := hshaped.toNat_next
  have hbelow : ∀ t ∈ T, t.next.toNat < m'.top.toNat := by
    intro t ht
    have := h.tile_below hT ht
    omega
  generalize hc : (initTop (breakAddr w.env) (n - topFootSize) (beforeAdding w n)).chunks = c
    at hchunks
  have hc' : c = (w.gm.chunks.setHead m'.top (m'.topsize ||| pinuseBit)).setHead
      (m'.top + m'.topsize) topFootSize := by
    rw [← hc, htop', hsize']
    rfl
  have htags : Tags c (insert ⟨m'.top, m'.topsize, .top⟩ T) := hc' ▸
    hT.toTags.newTop hshaped hbelow
  have hother : (⟨m'.top, m'.topsize, .top⟩ : Tile) ≠ ⟨w.gm.top, w.gm.topsize, .top⟩ := by
    intro heq
    have htops : m'.top = w.gm.top := congrArg Tile.addr heq
    have := hbelow _ hmem
    rw [htops] at this
    change (w.gm.top + w.gm.topsize).toNat < _ at this
    omega
  have hmem₁ : (⟨w.gm.top, w.gm.topsize, .top⟩ : Tile) ∈
      (insert ⟨m'.top, m'.topsize, .top⟩ T : Set Tile) := Or.inr hmem
  have hclear : ∀ t ∈ (insert ⟨m'.top, m'.topsize, .top⟩ T : Set Tile),
      t ≠ ⟨w.gm.top, w.gm.topsize, .top⟩ →
        t.next.toNat ≤ w.gm.top.toNat ∨ (ss.base + ss.size).toNat < t.addr.toNat := by
    rintro t (rfl | ht) hne
    · right
      dsimp only
      omega
    · rcases hT.clear_of_top ht hne with hbefore | hafter
      · exact Or.inl hbefore
      · right
        omega
  have hlinked : ∀ q, IsFree c q →
      (⟨q.1, q.2, .free⟩ : Tile) ∈ (insert ⟨m'.top, m'.topsize, .top⟩ T : Set Tile) := by
    intro q hq
    rw [hc'] at hq
    exact Or.inr (hT.free hq)
  have hrep := closeTop_replaces (g := w.gm.segs.headD ⟨0, 0, 0⟩) (k := w.gm.records.headD 0)
    hmem₁ htags (show (ss.base + ss.size).toNat = _ by omega) (by omega) hlinked hclear
  have hchunks' : m'.chunks = closeTop w.gm.top w.gm.topsize (ss.base + ss.size)
      (w.gm.segs.headD ⟨0, 0, 0⟩) (w.gm.records.headD 0) c := hchunks
  rw [← hchunks'] at hrep
  have hmem' : ∀ t, t ∈ replace Tile.region (insert ⟨m'.top, m'.topsize, .top⟩ T) w.gm.top.toNat
      (ss.base + ss.size).toNat
      {⟨w.gm.top, w.gm.topsize, .free⟩, recordTile w.gm.top w.gm.topsize} ↔
        (t = ⟨m'.top, m'.topsize, .top⟩ ∨ t ∈ T) ∧ t ≠ ⟨w.gm.top, w.gm.topsize, .top⟩ ∨
          t = ⟨w.gm.top, w.gm.topsize, .free⟩ ∨ t = recordTile w.gm.top w.gm.topsize := by
    intro t
    refine mem_replace_last htags hmem₁ ?_ hclear
    change (w.gm.top + w.gm.topsize).toNat ≤ _
    omega
  have hseg : segments m' = ⟨breakAddr w.env, n, useMmapBit⟩ :: w.gm.segs := by
    rw [segments_of_initialized hm.initialized, hm']
    rfl
  have hseg₀ := segments_of_initialized hinit
  have hold : ∀ s ∈ w.gm.segs, s ∈ segments w.gm := fun s hs => hseg₀ ▸ hs
  have hfirst : firstChunk ⟨breakAddr w.env, n, useMmapBit⟩ = w.env.memory.bytes + 8 := by
    rw [firstChunk, hbreak, hoffset]
  have hintop := hT.top_in (hold ss hss) hin
  have hrecord : (recordTile w.gm.top w.gm.topsize).next.toNat = (ss.base + ss.size).toNat - 24 := by
    change (w.gm.top + w.gm.topsize + 32).toNat = _
    rw [BitVec.toNat_add_of_lt (show _ + 32 < 2 ^ 32 by omega), hnext, hend, ← hfinish]
    rfl
  refine ⟨?_, by omega⟩
  refine ⟨_, ⟨hrep.tags htags, ?_, ?_, ?_, ?_, ?_, ?_, ?_, ?_⟩, ?_, ?_⟩
  · have hfree : freeChunks (replace Tile.region (insert ⟨m'.top, m'.topsize, .top⟩ T)
        w.gm.top.toNat (ss.base + ss.size).toNat
        {⟨w.gm.top, w.gm.topsize, .free⟩, recordTile w.gm.top w.gm.topsize}) =
          insert (w.gm.top, w.gm.topsize) (freeChunks T) := by
      ext x
      refine (hmem' _).trans ?_
      simp [freeChunks, recordTile, Prod.ext_iff, or_comm]
    rw [hchunks']
    refine hfree ▸ closeTop_links (hT.links.congr ?_ ?_ ?_) fun hbad => ?_
    · rw [hc']
      rfl
    · rw [hc']
      rfl
    · rw [hc']
      rfl
    · have := hT.eq_of_addr hmem hbad rfl
      cases this
  · exact fun _ => (hmem' _).mpr (Or.inl ⟨Or.inl rfl, hother⟩)
  · intro t ht htop
    rcases (hmem' t).mp ht with ⟨rfl | ht, hne⟩ | rfl | rfl
    · rfl
    · exact absurd (hT.top_only t ht htop) hne
    · cases htop
    · cases htop
  · rw [hseg]
    intro t ht
    rcases (hmem' t).mp ht with ⟨rfl | ht, -⟩ | rfl | rfl
    · refine ⟨_, List.mem_cons_self, by rw [hfirst]; exact htopNat.ge, ?_⟩
      change (m'.top + m'.topsize).toNat + 24 ≤ (breakAddr w.env).toNat + n.toNat
      omega
    · obtain ⟨s, hs, hins⟩ := hT.inside t ht
      exact ⟨s, List.mem_cons_of_mem _ (hseg₀ ▸ hs), hins⟩
    · exact ⟨ss, List.mem_cons_of_mem _ hss, hintop⟩
    · refine ⟨ss, List.mem_cons_of_mem _ hss, ?_, by omega⟩
      have hlow' : firstChunk ss ≤ w.gm.top.toNat := hintop.1
      change _ ≤ (w.gm.top + w.gm.topsize).toNat
      omega
  · rw [hseg]
    intro s hs x hlow' hhigh'
    rcases List.mem_cons.mp hs with rfl | hs
    · refine ⟨⟨m'.top, m'.topsize, .top⟩, (hmem' _).mpr (Or.inl ⟨Or.inl rfl, hother⟩), ?_⟩
      rw [hfirst] at hlow'
      rw [Region.mem_bytes]
      simp only [Tile.region, Region.finish]
      dsimp only at hhigh'
      omega
    · obtain ⟨t, ht, hx⟩ := hT.filled s (hold s hs) x hlow' hhigh'
      by_cases hne : t = ⟨w.gm.top, w.gm.topsize, .top⟩
      · refine ⟨⟨w.gm.top, w.gm.topsize, .free⟩, (hmem' _).mpr (Or.inr (Or.inl rfl)), ?_⟩
        rw [hne] at hx
        exact hx
      · exact ⟨t, (hmem' _).mpr (Or.inl ⟨Or.inr ht, hne⟩), hx⟩
  · rw [segments_of_initialized hm.initialized]
    intro s hs s' hs' x hx hx'
    exact hm.inv.segment_unique hm.initialized hs hs' hx hx'
  · have hleast : m'.leastAddr =
        if breakAddr w.env < w.gm.leastAddr then breakAddr w.env else w.gm.leastAddr := by
      rw [hm']
      rfl
    rw [hseg, hleast]
    intro s hs
    rcases List.mem_cons.mp hs with rfl | hs
    · split_ifs with hlt
      · exact le_refl _
      · exact word_le.mp (BitVec.not_lt.mp hlt)
    · have hall := hT.least s (hold s hs)
      split_ifs with hlt
      · exact (word_lt.mp hlt).le.trans hall
      · exact hall
  · intro t ht
    left
    rcases (hmem' t).mp ht with ⟨rfl | ht, -⟩ | rfl | rfl
    · exact le_refl _
    · have := hbelow t ht
      have := (hT.shaped t ht).toNat_next
      omega
    · dsimp only
      omega
    · change (w.gm.top + w.gm.topsize).toNat ≤ _
      omega
  · ext t
    simp only [used, Set.mem_ofPred_eq, hmem', Set.sdiff_empty, Set.mem_union, Set.mem_singleton_iff]
    constructor
    · rintro ⟨⟨rfl | ht, -⟩ | rfl | rfl, hinuse⟩
      · cases hinuse
      · exact Or.inl ⟨ht, hinuse⟩
      · cases hinuse
      · exact Or.inr rfl
    · rintro (⟨ht, hinuse⟩ | rfl)
      · refine ⟨Or.inl ⟨Or.inr ht, ?_⟩, hinuse⟩
        rintro rfl
        cases hinuse
      · exact ⟨Or.inr (Or.inr rfl), rfl⟩
  · intro t ht _
    have hne : t ≠ ⟨w.gm.top, w.gm.topsize, .top⟩ := by
      rintro rfl
      cases ht.2
    have hfirst' : Frame m'.top.toNat (m'.top + m'.topsize).toNat w.gm.chunks c := by
      rw [hc']
      exact (Frame.refl.setHead _ (le_refl _) (by omega) (by omega)).setHead _ (by omega) (le_refl _)
        (by omega)
    have hbefore := hfirst'.untouched hT.toTags (fun _ => hT.free) ht (Or.inl (hbelow t ht.1).le)
    refine hbefore.trans (hrep.frame.untouched htags hlinked ⟨Or.inr ht.1, ht.2⟩ ?_)
    exact (hclear t (Or.inr ht.1) hne).imp_right Nat.le_of_lt

/-- The region is the whole heap. -/
theorem HeapInv.firstSegment_tiled (hfresh : isInitialized w.gm = false)
    (hm' : m' = firstSegment (breakAddr w.env) n (addFootprint n w.gm)) :
    ∃ T', Evolves w.gm m' T T' ∅ ∅ := by
  obtain ⟨hbig, hroom, hbreak⟩ := hnew.bounds
  have hpage : w.env.memory.bytes % 65536 = 0 := Nat.mul_mod_left _ _
  have hdvd := hnew.dvd
  obtain ⟨hnewtop, hoffset⟩ := toNat_alignAsChunk (a := breakAddr w.env) (by omega) (by omega)
  have htop' : m'.top = alignAsChunk (breakAddr w.env) := by
    rw [hm']
    rfl
  have hsize' : m'.topsize = n - topFootSize - alignOffset (chunk2mem (breakAddr w.env)) := by
    rw [hm']
    rfl
  have hsizeNat := topsize_of_base (show 16 ∣ (breakAddr w.env).toNat by omega) hsize' (by omega)
  have hin : TopIn m' ⟨breakAddr w.env, n, useMmapBit⟩ :=
    topIn_of_base htop' hsize' (by omega) (by omega)
  have hleast : m'.leastAddr = if w.gm.leastAddr = 0 ∨ breakAddr w.env < w.gm.leastAddr
      then breakAddr w.env else w.gm.leastAddr := by
    rw [hm']
    rfl
  refine ⟨_, hT.firstTop hfresh ?_ ?_ hin ?_ (by omega) (by omega) (by dsimp only; omega) ?_⟩
  · rw [htop', hsize', hm']
    rfl
  · rw [hm']
    change _ :: w.gm.segs.tail = _
    rw [(h.fresh hfresh).1, List.tail_cons]
  · rw [htop', hnewtop, firstChunk, hoffset]
  · rw [hleast]
    dsimp only
    split_ifs with hlt
    · exact le_refl _
    · exact word_le.mp (BitVec.not_lt.mp (not_or.mp hlt).2)

end Adding

/-- Segment records lie where the feet of tops were, at the ends of segments: there is one in every
segment but that of top, and it is not the first chunk there. -/
structure Recorded (m : MallocState) (R : Set Tile) : Prop where
  size : ∀ r ∈ R, r.size = 32
  ends : ∀ r ∈ R, ∃ s ∈ segments m, r.addr.toNat + 56 = s.base.toNat + s.size.toNat
  complete : ∀ s ∈ segments m,
    (∃ r ∈ R, r.addr.toNat + 56 = s.base.toNat + s.size.toNat ∧ firstChunk s < r.addr.toNat) ∨
      m.top.toNat + m.topsize.toNat + 56 = s.base.toNat + s.size.toNat

theorem initialized_of_segment {s : Segment} (hs : s ∈ segments m) : isInitialized m = true := by
  by_contra hno
  rw [segments, if_neg hno] at hs
  cases hs

theorem Changes.recorded {R gone fresh : Set Tile} {T' : Set Tile} (h : Changes m m' T T' gone fresh)
    (hT : Tiled m T) (hR : Recorded m R) : Recorded m' R := by
  refine ⟨hR.size, fun r hr => ?_, fun s hs => ?_⟩
  · rw [h.segments_eq]
    exact hR.ends r hr
  · rw [h.segments_eq] at hs
    refine (hR.complete s hs).imp_right fun htop => ?_
    have hinit := initialized_of_segment hs
    have hfinish := congrArg BitVec.toNat h.finish
    have hnext := (hT.shaped _ (hT.top_mem hinit)).toNat_next
    have hnext' := (h.tiled.shaped _ (h.tiled.top_mem (h.initialized.trans hinit))).toNat_next
    dsimp only [Tile.next] at hnext hnext'
    omega

/-- No chunk in use lies where the foot of top is. -/
theorem Tiled.not_at_foot (hT : Tiled m T) (ht : t ∈ T) :
    t.addr.toNat ≠ m.top.toNat + m.topsize.toNat := by
  have hmem := hT.top_mem (hT.initialized ht)
  have hnext : (m.top + m.topsize).toNat = m.top.toNat + m.topsize.toNat :=
    (hT.shaped _ hmem).toNat_next
  have hlarge : 16 ≤ m.topsize.toNat := (hT.shaped _ hmem).large
  rcases hT.beyond t ht with hbefore | hafter
  · omega
  · omega

/-- The segment that ends with the foot of top is the one that top lies in. -/
theorem HeapInv.top_in_segment (h : HeapInv layout w) (hT : Tiled w.gm T) {s : Segment}
    (hs : s ∈ segments w.gm)
    (hend : w.gm.top.toNat + w.gm.topsize.toNat + 56 = s.base.toNat + s.size.toNat) :
    (⟨w.gm.top, w.gm.topsize, .top⟩ : Tile).In s := by
  have hinit := initialized_of_segment hs
  have hseg := segments_of_initialized hinit
  obtain ⟨s', hs', hin⟩ := h.top_in hinit
  have hpos := (h.segment_plain hinit (hseg ▸ hs)).1
  have hfinish := hin.finish
  have hlow := hin.low
  rw [hT.segment_eq hs (hseg ▸ hs') (s.base.toNat + s.size.toNat - 1) (by omega) (by omega)]
  exact hT.top_in (hseg ▸ hs') hin

/-- What becomes of the tiling and of the segment records when the heap grows. The one chunk that
may be newly in use holds the record of a segment. -/
structure Grows (m m' : MallocState) (T T' fresh : Set Tile) : Prop where
  evolves : Evolves m m' T T' ∅ fresh
  new : ∀ t ∈ fresh, t ∉ T
  records : ∀ R ⊆ T, Recorded m R → Recorded m' (R ∪ fresh)

/-- However a region joins the segments, the heap stays tiled. -/
theorem HeapInv.installRegion_tiled (h : HeapInv layout w) (hT : Tiled w.gm T)
    (hnew : NewRegion w n e) (nb : Word) :
    ∃ m T' fresh, installRegion nb (breakAddr w.env) n w.gm = (none, m) ∧
      Installed layout w n e m ∧ Grows w.gm m T T' fresh := by
  obtain ⟨m, hinstall, hm⟩ := h.installRegion_installed hnew nb
  obtain ⟨m₁, hinstall₁, hjoins⟩ := h.installRegion_joins hnew nb
  obtain rfl : m = m₁ := congrArg Prod.snd (hinstall.symm.trans hinstall₁)
  suffices hgrows : ∃ T' fresh, Grows w.gm m T T' fresh by
    obtain ⟨T', fresh, hgrows⟩ := hgrows
    exact ⟨m, T', fresh, hinstall, hm, hgrows⟩
  clear hinstall hinstall₁
  have hseg := segments_of_initialized hm.initialized
  cases hjoins with
  | first hfresh =>
    obtain ⟨T', hevolves⟩ := h.firstSegment_tiled hT hnew hfresh rfl
    refine ⟨T', ∅, hevolves, fun _ hx => hx.elim, fun R hR hends =>
      ⟨fun r hr => hends.size r (hr.resolve_right id), fun r hr => ?_, fun s hs => ?_⟩⟩
    · rw [hT.empty hfresh] at hR
      exact (hR (hr.resolve_right id)).elim
    · obtain ⟨s', hs', hin⟩ := hm.inv.top_in hm.initialized
      have hone : ∀ x ∈ (firstSegment (breakAddr w.env) n (addFootprint n w.gm)).segs,
          x = ⟨breakAddr w.env, n, useMmapBit⟩ := by
        intro x hx
        change x ∈ _ :: w.gm.segs.tail at hx
        rw [(h.fresh hfresh).1, List.tail_cons] at hx
        exact List.mem_singleton.mp hx
      rw [hone s (hseg ▸ hs), ← hone s' hs']
      exact Or.inr hin.finish
  | extends_top sp hfind hholds hinit =>
    obtain ⟨⟨T', hevolves⟩, hstays, hfinish⟩ := h.extendTop_tiled hT hnew hm hinit hfind hholds rfl
    have hin := h.topIn_of_holds hinit (List.mem_of_find?_eq_some hfind) hholds
    have hend₀ : breakAddr w.env = sp.base + sp.size :=
      beq_iff_eq.mp (List.find?_some (p := endsAt (breakAddr w.env)) hfind)
    obtain ⟨rest, hold⟩ := h.first_of_holds hinit (List.mem_of_find?_eq_some hfind) hholds
    have hsegs' : (appendRegion (breakAddr w.env) n (addFootprint n w.gm)).segs =
        { sp with size := sp.size + n } :: rest := by
      rw [HeapInv.appendRegion_first (m := addFootprint n w.gm) hold hend₀]
      rfl
    have hsp : { sp with size := sp.size + n } ∈
        (appendRegion (breakAddr w.env) n (addFootprint n w.gm)).segs := by
      rw [hsegs']
      simp
    have hkept : ∀ s ∈ w.gm.segs, s = sp ∨
        s ∈ (appendRegion (breakAddr w.env) n (addFootprint n w.gm)).segs := by
      rw [hold, hsegs']
      exact fun s hs => (List.mem_cons.mp hs).imp_right (List.mem_cons_of_mem _)
    have hback : ∀ s ∈ (appendRegion (breakAddr w.env) n (addFootprint n w.gm)).segs,
        s = { sp with size := sp.size + n } ∨ s ∈ w.gm.segs := by
      rw [hold, hsegs']
      exact fun s hs => (List.mem_cons.mp hs).imp_right (List.mem_cons_of_mem _)
    refine ⟨T', ∅, hevolves, fun _ hx => hx.elim, fun R hR hends =>
      ⟨fun r hr => hends.size r (hr.resolve_right id), fun r hr => ?_, fun s hs => ?_⟩⟩
    · obtain ⟨s, hs, heq⟩ := hends.ends r (hr.resolve_right id)
      rw [segments_of_initialized hinit] at hs
      rcases hkept s hs with rfl | hs
      · have := hin.finish
        exact absurd (show r.addr.toNat = _ by omega) (hT.not_at_foot (hR (hr.resolve_right id)))
      · exact ⟨s, hseg ▸ hs, heq⟩
    · rw [hseg] at hs
      rcases hback s hs with rfl | hs'
      · exact Or.inr hfinish
      rcases hends.complete s (segments_of_initialized hinit ▸ hs') with ⟨r, hr, heq⟩ | htop
      · exact Or.inl ⟨r, Or.inl hr, heq⟩
      · -- The segment that ends after top is the one that was extended.
        have hpos := (h.segment_plain hinit hs').1
        have hlow' := hin.low
        have hsame : s = { sp with size := sp.size + n } := by
          refine hm.inv.segment_unique hm.initialized hs hsp
            (a := s.base.toNat + s.size.toNat - 1) ?_ ?_
          · rw [Region.mem_bytes]
            simp only [Segment.region, Region.finish]
            omega
          · rw [Region.mem_bytes]
            simp only [Segment.region, Region.finish]
            have hgrown := hm.extends_top ((h.adjacent_iff hinit).mpr ⟨sp,
              List.mem_of_find?_eq_some hfind, hend₀, hholds⟩)
            omega
        exact Or.inr (hsame ▸ hfinish)
  | added hinit =>
    obtain ⟨⟨T', hevolves⟩, hfinish⟩ := h.addSegment_tiled hT hnew hm hinit rfl
    have hnext : (w.gm.top + w.gm.topsize).toNat = w.gm.top.toNat + w.gm.topsize.toNat :=
      (hT.shaped _ (hT.top_mem hinit)).toNat_next
    have hseg₀ := segments_of_initialized hinit
    have hrecord : (recordTile w.gm.top w.gm.topsize).addr.toNat =
        w.gm.top.toNat + w.gm.topsize.toNat := hnext
    refine ⟨T', _, hevolves, ?_, fun R hR hends => ⟨?_, fun r hr => ?_, fun s hs => ?_⟩⟩
    · rintro t rfl ht
      exact hT.not_at_foot ht hnext
    · rintro r (hr | rfl)
      · exact hends.size r hr
      · rfl
    · rw [hseg]
      rcases hr with hr | rfl
      · obtain ⟨s, hs, heq⟩ := hends.ends r hr
        exact ⟨s, List.mem_cons_of_mem _ (hseg₀ ▸ hs), heq⟩
      · obtain ⟨s, hs, hin⟩ := h.top_in hinit
        exact ⟨s, List.mem_cons_of_mem _ hs, by rw [hrecord]; exact hin.finish⟩
    · rw [hseg] at hs
      rcases List.mem_cons.mp hs with rfl | hs
      · exact Or.inr hfinish
      · left
        rcases hends.complete s (hseg₀ ▸ hs) with ⟨r, hr, heq⟩ | htop
        · exact ⟨r, Or.inl hr, heq⟩
        · refine ⟨_, Or.inr rfl, by rw [hrecord]; exact htop, ?_⟩
          have hfirst := (h.top_in_segment hT (hseg₀ ▸ hs) htop).1
          have hlarge : 16 ≤ w.gm.topsize.toNat := (hT.shaped _ (hT.top_mem hinit)).large
          dsimp only at hfirst
          omega

/-- The heap that the allocator sets up between the linker symbols is tiled by top alone. -/
theorem Tiled.initialState (hT : Tiled m T) (base size : Word) (hfresh : isInitialized m = false)
    (hsegs : m.segs = [⟨0, 0, 0⟩]) (hend : 16 ∣ base.toNat + size.toNat)
    (hroom : base.toNat + size.toNat ≤ 4294967296) (hbig : 88 < size.toNat) :
    ∃ T', Evolves m (initialState base size m) T T' ∅ ∅ := by
  have hin : TopIn (Dlmalloc.initialState base size m) ⟨base, size, 0⟩ :=
    topIn_of_base rfl rfl hroom (by omega)
  have hfinish := hin.finish
  have haligned := hin.aligned
  have hfirst : (Dlmalloc.initialState base size m).top.toNat = firstChunk ⟨base, size, 0⟩ := by
    have hoffset := toNat_alignOffset (chunk2mem base)
    exact BitVec.toNat_add_of_lt (by omega)
  have hoffset := toNat_alignOffset (chunk2mem base)
  rw [hfirst, firstChunk] at hfinish haligned
  dsimp only at hfinish haligned
  refine ⟨_, hT.firstTop (s := ⟨base, size, 0⟩) hfresh rfl ?_ hin hfirst (by omega) (by omega)
    hroom (le_refl _)⟩
  change _ :: m.segs.tail = _
  rw [hsegs, List.tail_cons]

end WasmCxxShim.Dlmalloc
