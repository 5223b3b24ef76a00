import WasmCxxShim.DlmallocTiles

/-!
# Consolidation

`dlfree` and `dispose_chunk` join a chunk with the free chunks that border it. In a tiled heap no
check fails, and the chunk becomes part of one free tile or of top.
-/
namespace WasmCxxShim.Dlmalloc
open MachineWords AddressRegions AddressTilings LinearMemory

variable {m m' : MallocState} {T : Set Tile} {r l t u : Tile} {R : List Tile} {s : Word}

theorem Run.size (hrun : Run T r l R) (hT : Tags m.chunks T) (hs : r.addr + s = l.next) :
    s.toNat = l.next.toNat - r.addr.toNat ∧ s.toNat % 16 = 0 ∧ 16 ≤ s.toNat := by
  have hlt := hrun.lt hT
  have haddr := (hT.shaped r hrun.first_mem).addr
  have hroom := (hT.shaped l hrun.last_mem).toNat_next
  have hsize := (hT.shaped l hrun.last_mem).size
  have hbase := (hT.shaped l hrun.last_mem).addr
  have hs' : s = l.next - r.addr := by
    rw [← hs, BitVec.add_comm, BitVec.add_sub_cancel]
  have hsub : s.toNat = l.next.toNat - r.addr.toNat := by
    rw [hs']
    exact BitVec.toNat_sub_of_le (word_le.mpr hlt.le)
  omega

/-- A single tile covers the interval of the run. -/
theorem Run.covers (hrun : Run T r l R) (hT : Tags m.chunks T) (hs : r.addr + s = l.next)
    (kind : TileKind) (x : ℕ) (hlow : r.addr.toNat ≤ x) (hhigh : x < l.next.toNat) :
    x ∈ covered Tile.region {(⟨r.addr, s, kind⟩ : Tile)} := by
  have hsize := (hrun.size hT hs).1
  refine ⟨_, rfl, ?_⟩
  rw [Region.mem_bytes]
  simp only [Tile.region, Region.finish]
  omega

theorem Run.shaped (hrun : Run T r l R) (hT : Tags m.chunks T) (hs : r.addr + s = l.next)
    (kind : TileKind) : (⟨r.addr, s, kind⟩ : Tile).Shaped := by
  obtain ⟨hsize, hmod, hlarge⟩ := hrun.size hT hs
  have hlt := hrun.lt hT
  exact ⟨(hT.shaped r hrun.first_mem).addr, hmod, hlarge, by
    have := l.next.isLt
    dsimp only
    omega⟩

/-- No free chunk outside a run begins where the run begins. -/
theorem Run.first_not_other (hrun : Run T r l R) (hT : Tags m.chunks T) (hr : r ∈ R) :
    (r.addr, s) ∉ others T R := by
  rintro ⟨hmem, hout⟩
  have heq := hT.eq_of_addr (t := ⟨r.addr, s, .free⟩) hmem hrun.first_mem rfl
  exact hout (heq ▸ hr)

theorem Run.first_mem_run (hrun : Run T r l R) : r ∈ R := by
  cases hrun <;> simp

theorem Run.last_mem_run (hrun : Run T r l R) : l ∈ R := by
  induction hrun with
  | one => simp
  | cons _ _ _ ih => exact List.mem_cons_of_mem _ ih

section Insert

variable {c₁ c' : ChunkStore} {q : Word × Word} (hT : Tiled m T) (hrun : Run T r l R)
  (hlinks : Links c' (insert q (others T R))) (hlarge : 16 ≤ q.2.toNat)
  (hnext : q.1.toNat < (q.1 + q.2).toNat)

include hT hrun hlinks hlarge hnext

/-- When a chunk in the place of a run becomes free, links may lie there too. -/
theorem Tiled.firm_insert {x : Word}
    (hx : ¬ m.chunks.Loose x ∨ r.addr.toNat ≤ x.toNat ∧ x.toNat ≤ l.next.toNat + 4)
    (hq : x.toNat < q.1.toNat + 8 ∨ (q.1 + q.2).toNat ≤ x.toNat) : ¬ c'.Loose x := by
  rintro ⟨q', hfree, hrange⟩
  rcases (hlinks.free_iff q').mpr hfree with rfl | hother
  · have hin := links_within hlarge hnext hrange.1 hrange.2
    omega
  · rcases hx with hx | hx
    · exact hx ⟨q', (hT.links.free_iff q').mp hother.1, hrange⟩
    · have hu := hT.shaped _ hother.1
      have hout := hT.outside hother.1 ((hrun.outside_iff hT.toTags hother.1).mpr hother.2)
      have hin := links_within hu.large hout.1 hrange.1 hrange.2
      change q'.1.toNat + 8 ≤ x.toNat ∧ x.toNat < (q'.1 + q'.2).toNat at hin
      change _ ∧ ((q'.1 + q'.2).toNat ≤ _ ∨ _ ≤ q'.1.toNat) at hout
      omega

theorem Tiled.frame_insert (hframe : Frame r.addr.toNat l.next.toNat m.chunks c₁)
    (hword : ∀ x, ¬ c'.Loose x → c'.word x = c₁.word x) (hlow : r.addr.toNat ≤ q.1.toNat)
    (hhigh : (q.1 + q.2).toNat ≤ l.next.toNat) :
    Frame r.addr.toNat l.next.toNat m.chunks c' := by
  have hfirm : ∀ x : Word, ¬ m.chunks.Loose x → x.toNat ≤ r.addr.toNat ∨ l.next.toNat + 4 < x.toNat →
      ¬ c'.Loose x := fun x hx hout =>
    hT.firm_insert hrun hlinks hlarge hnext (Or.inl hx) (by omega)
  exact ⟨fun x hx hout => (hword x (hfirm x hx hout)).trans (hframe.word x hx hout), hfirm⟩

end Insert

/-- The run becomes one free tile, which is then linked. -/
theorem Changes.freed {c₁ c' : ChunkStore} (hT : Tiled m T) (hrun : Run T r l R)
    (hR : ∀ x ∈ R, x.kind ≠ .top) (hpin : m.chunks.pinuse r.addr = true)
    (hcinuse : m.chunks.cinuse l.next = true) (hs : r.addr + s = l.next)
    (hframe : Frame r.addr.toNat l.next.toNat m.chunks c₁)
    (hword : ∀ x, ¬ c'.Loose x → c'.word x = c₁.word x)
    (hhead : c₁.head r.addr = s ||| pinuseBit) (hfoot : c₁.prevFoot l.next = s)
    (hborder : c₁.pinuse l.next = false)
    (hend : c₁.chunksize l.next = m.chunks.chunksize l.next ∧
      c₁.cinuse l.next = m.chunks.cinuse l.next)
    (hlinks : Links c' (insert (r.addr, s) (others T R))) :
    ∃ T', Changes m (withChunks c' m) T T' {t | t ∈ R ∧ t.kind = .inuse} ∅ := by
  have hlast : l.kind ≠ .top := hR l hrun.last_mem_run
  obtain ⟨hsize, hmod, hlarge⟩ := hrun.size hT.toTags hs
  have hlt := hrun.lt hT.toTags
  have hend' := congrArg BitVec.toNat hs
  have hroom : r.addr.toNat < (r.addr + s).toNat := by omega
  have hfirm : ∀ x : Word, r.addr.toNat ≤ x.toNat ∧ x.toNat ≤ l.next.toNat + 4 →
      x.toNat < r.addr.toNat + 8 ∨ (r.addr + s).toNat ≤ x.toNat → ¬ c'.Loose x := fun x hx hout =>
    hT.firm_insert hrun hlinks hlarge hroom (Or.inr hx) hout
  have hfree : ∀ q, IsFree m.chunks q → (⟨q.1, q.2, .free⟩ : Tile) ∈ T := fun _ => hT.free
  have hfirst := toNat_head (hT.shaped r hrun.first_mem).room.1
  have hnext := toNat_head (hT.shaped l hrun.last_mem).room.2
  have hhead' : c'.head r.addr = c₁.head r.addr :=
    hword _ (hfirm _ (by omega) (by omega))
  have hborder' : c'.head l.next = c₁.head l.next :=
    hword _ (hfirm _ (by omega) (by omega))
  have hfoot' : c'.prevFoot l.next = c₁.prevFoot l.next :=
    hword _ (hfirm _ (by omega) (by omega))
  have hframe' := hT.frame_insert hrun hlinks hlarge hroom hframe hword (le_refl _) hend'.le
  rw [ChunkStore.pinuse, ← hborder'] at hborder
  rw [ChunkStore.chunksize, ChunkStore.cinuse, ← hborder'] at hend
  rw [← hhead'] at hhead
  rw [← hfoot'] at hfoot
  have htagged : Tagged c' ⟨r.addr, s, .free⟩ := by
    refine ⟨?_, ?_, ?_, fun _ => ?_⟩
    · rw [ChunkStore.chunksize_eq, hhead, headSize_free hmod]
    · rw [ChunkStore.cinuse_eq, hhead, headCinuse_free hmod]
      rfl
    · change c'.pinuse (r.addr + s) = _
      rw [hs, ChunkStore.pinuse, hborder]
      rfl
    · change c'.prevFoot (r.addr + s) = _
      rw [hs, hfoot]
  have hrep : Replaces m.chunks c' T r l.next.toNat {⟨r.addr, s, .free⟩} := by
    refine Replaces.one hT.toTags hrun.first_mem hrun.last_mem ?_ hend (hrun.clean hT.toTags) hframe'
      hfree (hrun.shaped hT.toTags hs .free) htagged rfl hs ?_ (Or.inr hpin) ?_
    · rw [hpin, ChunkStore.pinuse_eq, hhead, headPinuse_free]
    · simp [hlast]
    · intro _ u hu haddr
      have hkind := (hT.tagged u hu).cinuse
      rw [haddr, hcinuse] at hkind
      simpa using hkind.symm
  have hused : Dlmalloc.used {(⟨r.addr, s, .free⟩ : Tile)} = ∅ := by
    ext x
    simp only [Set.mem_empty_iff_false, iff_false]
    rintro ⟨rfl, hkind⟩
    cases hkind
  rw [← hused]
  refine Changes.below hT hrun hrep hR ?_ (hrun.covers hT.toTags hs .free) ?_
  · rintro n rfl hkind
    cases hkind
  · convert hlinks using 1
    ext x
    simp [freeChunks, Prod.ext_iff, or_comm]

/-- The run, which ends with top, becomes top. -/
theorem Changes.topped {c : ChunkStore} (hT : Tiled m T) (hrun : Run T r l R) (hl : l.kind = .top)
    (hpin : m.chunks.pinuse r.addr = true) (hs : r.addr + s = l.next) (hre : Relinks m.chunks c)
    (hchunks : m'.chunks = c.setHead r.addr (s ||| pinuseBit)) (hlinks : Links c (others T R))
    (hsegs : m'.segs = m.segs) (hleast : m'.leastAddr = m.leastAddr) (htop : m'.top = r.addr)
    (htopsize : m'.topsize = s) :
    ∃ T', Changes m m' T T' {t | t ∈ R ∧ t.kind = .inuse} ∅ := by
  have hmod := (hrun.size hT.toTags hs).2.1
  have hlt := hrun.lt hT.toTags
  have hfree : ∀ q, IsFree m.chunks q → (⟨q.1, q.2, .free⟩ : Tile) ∈ T := fun _ => hT.free
  have hself : m'.chunks.head r.addr = s ||| pinuseBit := by
    rw [hchunks]
    simp
  have hne : l.next ≠ r.addr := by
    intro heq
    rw [heq] at hlt
    omega
  have hother : m'.chunks.head l.next = m.chunks.head l.next := by
    rw [hchunks, ChunkStore.setHead_head, if_neg hne]
    exact hre.head (hT.firm_border hfree hrun.last_mem)
  have hborder := (hT.tagged l hrun.last_mem).border
  have htagged : Tagged m'.chunks ⟨r.addr, s, .top⟩ := by
    refine ⟨?_, ?_, ?_, fun hkind => nomatch hkind⟩
    · rw [ChunkStore.chunksize_eq, hself, headSize_free hmod]
    · rw [ChunkStore.cinuse_eq, hself, headCinuse_free hmod]
      rfl
    · change m'.chunks.pinuse (r.addr + s) = _
      rw [hs, ChunkStore.pinuse_eq, hother, ← ChunkStore.pinuse_eq, hborder, hl]
  have hframe : Frame r.addr.toNat l.next.toNat m.chunks m'.chunks := by
    rw [hchunks]
    exact (hre _ _).setHead _ (le_refl _) hlt.le (hT.shaped r hrun.first_mem).room.1
  have hrep : Replaces m.chunks m'.chunks T r l.next.toNat {⟨r.addr, s, .top⟩} := by
    refine Replaces.one hT.toTags hrun.first_mem hrun.last_mem ?_ ?_ (hrun.clean hT.toTags) hframe
      hfree (hrun.shaped hT.toTags hs .top) htagged rfl hs ?_ (Or.inr hpin) (fun hkind => nomatch hkind)
    · rw [hpin, ChunkStore.pinuse_eq, hself, headPinuse_free]
    · rw [ChunkStore.chunksize_eq, ChunkStore.cinuse_eq, hother]
      exact ⟨rfl, rfl⟩
    · simp [hl]
  have hinit : isInitialized m' = isInitialized m := by
    have hold : isInitialized m = true := by
      have haddr := (hT.shaped l hrun.last_mem).addr
      rw [isInitialized_iff, word_ne_zero, ← (hT.top_mem_iff hrun.last_mem).mp hl]
      omega
    have haddr := (hT.shaped r hrun.first_mem).addr
    rw [hold, isInitialized_iff, word_ne_zero, htop]
    omega
  refine ⟨_, Changes.of_replaces hT hrun hrep hsegs hleast (hrun.covers hT.toTags hs .top) ?_ hinit
    ?_ ?_ ?_ rfl ?_⟩
  · have hlinks' : Links m'.chunks (others T R) := hlinks.congr (by rw [hchunks]; rfl)
      (by rw [hchunks]; rfl) (by rw [hchunks]; rfl)
    convert hlinks' using 1
    ext x
    simp [freeChunks]
  · intro _
    rw [htop, htopsize]
    exact Or.inr rfl
  · rintro x (⟨hx, hout⟩ | hx) hkind
    · have heq := hT.top_only x hx hkind
      rw [hT.top_only l hrun.last_mem hl] at hrun
      exact absurd (heq ▸ hrun.last_mem_run) hout
    · rw [htop, htopsize]
      exact hx
  · rw [htop, htopsize, hs, hT.top_only l hrun.last_mem hl]
    rfl
  · ext x
    simp only [Set.mem_empty_iff_false, false_iff]
    rintro ⟨rfl, hkind⟩
    cases hkind

/-- `m'` is what the disposal makes of `m`. -/
def Disposes (d : Disposal) (m m' : MallocState) : Prop :=
  match d with
  | .binned chunks => m' = withChunks chunks m
  | .intoTop p psize chunks => BordersTop p psize m ∧ m' = { m with
      topsize := m.topsize + psize
      top := p
      chunks := chunks.setHead p ((m.topsize + psize) ||| pinuseBit) }

/-- What freeing the chunk `t` comes to: a disposal that takes it out of use. -/
structure Freed (m m' : MallocState) (T : Set Tile) (t : Tile) : Prop where
  disposed : ∃ d, Disposes d m m'
  changes : ∃ T', Changes m m' T T' {t} ∅

section Branches

variable {p next : Word}

theorem consolidateForward_inuse (h : m.chunks.cinuse next = true)
    (hok : okBins m m.chunks = true) :
    consolidateForward p s next m =
      .ok (withChunks ((m.chunks.setFreeWithPinuse p s next).insertChunk p s) m) := by
  have hinsert : insertChunk m p s (m.chunks.setFreeWithPinuse p s next) =
      .ok ((m.chunks.setFreeWithPinuse p s next).insertChunk p s) := insertChunk_ok hok
  rw [consolidateForward, h, if_neg (by decide), hinsert]
  rfl

variable (hno : m.chunks.cinuse next = false)

include hno

theorem consolidateForward_top (htop : next = m.top) : consolidateForward p s next m = .ok { m with
    topsize := m.topsize + s
    top := p
    chunks := (if p = m.chunks.dv then m.chunks.setDv 0 0 else m.chunks).setHead p
      ((m.topsize + s) ||| pinuseBit) } := by
  rw [consolidateForward, hno, htop]
  simp

theorem consolidateForward_dv (htop : next ≠ m.top) (hdv : next = m.chunks.dv) :
    consolidateForward p s next m = .ok (withChunks ((m.chunks.setDv p
      (m.chunks.dvsize + s)).setSizeAndPinuseOfFreeChunk p (m.chunks.dvsize + s)) m) := by
  rw [consolidateForward, hno, if_pos (by decide), if_neg htop, if_pos hdv]

theorem consolidateForward_free (htop : next ≠ m.top) (hdv : next ≠ m.chunks.dv)
    (hbinned : (next, m.chunks.chunksize next) ∈ m.chunks.binned)
    (hok : okBins m m.chunks = true) {size : Word} (hsize : size = s + m.chunks.chunksize next) :
    consolidateForward p s next m = .ok (withChunks (if p = m.chunks.dv then
      ((m.chunks.unlinkChunk next (m.chunks.chunksize next)).setSizeAndPinuseOfFreeChunk p
        size).setDv p size else
      ((m.chunks.unlinkChunk next (m.chunks.chunksize next)).setSizeAndPinuseOfFreeChunk p
        size).insertChunk p size) m) := by
  have hinsert : insertChunk m p size ((m.chunks.unlinkChunk next
      (m.chunks.chunksize next)).setSizeAndPinuseOfFreeChunk p size) = .ok (((m.chunks.unlinkChunk next
      (m.chunks.chunksize next)).setSizeAndPinuseOfFreeChunk p size).insertChunk p size) :=
    insertChunk_ok (okBins_unlink hok)
  rw [consolidateForward, hno, if_pos (by decide), if_neg htop, if_neg hdv]
  dsimp only
  rw [unlinkChunk_ok hok hbinned, ← hsize]
  change (if p = m.chunks.dv then _ else _) = _
  split_ifs with hp
  · rfl
  · rw [hinsert]
    rfl

end Branches

/-- The run `R` from `r` to the chunk `t` that is freed, with the tile before `t` in it if that is
free. The bins of `c` no longer link the free tile of the run. -/
structure Pending (m : MallocState) (T : Set Tile) (r t : Tile) (R : List Tile) (s : Word)
    (c : ChunkStore) : Prop where
  tiled : Tiled m T
  run : Run T r t R
  inuse : t.kind = .inuse
  kinds : ∀ x ∈ R, x = t ∨ x.kind = .free
  size : r.addr + s = t.next
  pinuse : m.chunks.pinuse r.addr = true
  relinks : Relinks m.chunks c
  links : Links c (others T R)

namespace Pending

variable {c : ChunkStore}

theorem gone (h : Pending m T r t R s c) : {x | x ∈ R ∧ x.kind = .inuse} = {t} := by
  ext x
  rw [Set.mem_ofPred_eq, Set.mem_singleton_iff]
  constructor
  · rintro ⟨hx, hkind⟩
    rcases h.kinds x hx with heq | hfree
    · exact heq
    · rw [hkind] at hfree
      cases hfree
  · rintro rfl
    exact ⟨h.run.last_mem_run, h.inuse⟩

theorem not_top (h : Pending m T r t R s c) : ∀ x ∈ R, x.kind ≠ .top := by
  intro x hx hkind
  rcases h.kinds x hx with rfl | hfree
  · rw [h.inuse] at hkind
    cases hkind
  · rw [hfree] at hkind
    cases hkind

theorem others_eq (h : Pending m T r t R s c) {x : Word × Word} (hx : x ∈ c.binned) :
    x ∈ others T R := h.links.mem_of_binned hx

theorem okBins (h : Pending m T r t R s c) : Dlmalloc.okBins m c = true :=
  h.tiled.okBins fun _ hx => (h.others_eq hx).1

theorem head_next (h : Pending m T r t R s c) : c.head t.next = m.chunks.head t.next :=
  h.relinks.head (h.tiled.firm_border (fun _ => h.tiled.free) h.run.last_mem)

/-- The chunk after the run, if it is not in use, is a free tile or top. -/
theorem next_tile (h : Pending m T r t R s c) (hno : c.cinuse t.next = false) :
    ∃ v ∈ T, v.addr = t.next ∧ v.kind ≠ .inuse ∧ v ∉ R := by
  have hkind : t.kind ≠ .top := h.not_top t h.run.last_mem_run
  rw [ChunkStore.cinuse, h.head_next] at hno
  rcases h.tiled.followed t h.run.last_mem hkind with ⟨v, hv, haddr⟩ | hfence
  · refine ⟨v, hv, haddr, fun hinuse => ?_, fun hR => ?_⟩
    · have htag := (h.tiled.tagged v hv).cinuse
      rw [haddr, ChunkStore.cinuse, hno, hinuse] at htag
      simp at htag
    · have hin := (h.run.inside h.tiled.toTags hR).2
      have hlarge := (h.tiled.shaped v hv).large
      have hroom := (h.tiled.shaped v hv).toNat_next
      rw [haddr] at hroom
      omega
  · rw [ChunkStore.cinuse, hno] at hfence
    cases hfence

theorem others_top {v : Tile} (hkind : v.kind = .top) : others T (R ++ [v]) = others T R := by
  ext x
  have hne : (⟨x.1, x.2, .free⟩ : Tile) ≠ v := by
    rintro rfl
    cases hkind
  simp only [mem_others, List.mem_append, List.mem_singleton, hne, or_false]

theorem others_free {v : Tile} (hkind : v.kind = .free) :
    others T (R ++ [v]) = others T R \ {(v.addr, v.size)} := by
  ext x
  have hiff : (⟨x.1, x.2, .free⟩ : Tile) = v ↔ x = (v.addr, v.size) := by
    rw [Tile.ext_iff, Prod.ext_iff]
    simp [hkind.symm]
  simp only [mem_others, List.mem_append, List.mem_singleton, hiff, not_or, Set.mem_sdiff,
    Set.mem_singleton_iff, and_assoc]

/-- The chunk is not joined with the next one, which is in use. -/
theorem before_inuse (h : Pending m T r t R s c) (c' : ChunkStore)
    (hcinuse : c.cinuse t.next = true)
    (hword : ∀ x, ¬ c'.Loose x → c'.word x = (c.setFreeWithPinuse r.addr s t.next).word x)
    (hlinks : Links c' (insert (r.addr, s) (others T R))) :
    ∃ T', Changes m (withChunks c' m) T T' {t} ∅ := by
  have hlt := h.run.lt h.tiled.toTags
  have hne : t.next ≠ r.addr := by
    intro heq
    rw [heq] at hlt
    omega
  have hnext : (r.addr + s).toNat = t.next.toNat := congrArg BitVec.toNat h.size
  have haddr := (h.tiled.shaped r h.run.first_mem).addr
  have hroom := (h.tiled.shaped r h.run.first_mem).room.1
  have hmod := (h.run.size h.tiled.toTags h.size).2.1
  have hlast := h.tiled.shaped t h.run.last_mem
  have hborder : (c.setFreeWithPinuse r.addr s t.next).head t.next =
      m.chunks.head t.next &&& ~~~pinuseBit := by
    rw [ChunkStore.setFreeWithPinuse_head c haddr hmod hlast.next_mod, if_neg hne, if_pos rfl,
      h.head_next]
  rw [← h.gone]
  refine Changes.freed h.tiled h.run h.not_top h.pinuse ?_ h.size ?_ hword ?_ ?_ ?_ ?_ hlinks
  · rw [← hcinuse, ChunkStore.cinuse, ChunkStore.cinuse, h.head_next]
  · exact ((h.relinks _ _).clearPinuse hlt.le (le_refl _) hlast.room.2).setFree (le_refl _)
      (hnext ▸ hlt) hnext.le hroom
  · rw [ChunkStore.setFreeWithPinuse_head c haddr hmod haddr, if_pos rfl]
  · rw [← h.size]
    exact ChunkStore.setFree_foot ..
  · rw [ChunkStore.pinuse_eq, hborder, headPinuse_clearPinuse]
  · rw [ChunkStore.chunksize_eq, ChunkStore.cinuse_eq, hborder, headSize_clearPinuse,
      headCinuse_clearPinuse]
    exact ⟨rfl, rfl⟩

/-- The chunk is joined with a free chunk after it. -/
theorem before_free (h : Pending m T r t R s c) {c₁ : ChunkStore} (c' : ChunkStore) {v : Tile}
    (hv : v ∈ T) (haddr : v.addr = t.next) (hkind : v.kind = .free) (hre : Relinks m.chunks c₁)
    (hword : ∀ x, ¬ c'.Loose x →
      c'.word x = (c₁.setSizeAndPinuseOfFreeChunk r.addr (s + v.size)).word x)
    (hlinks : Links c' (insert (r.addr, s + v.size) (others T R \ {(v.addr, v.size)}))) :
    ∃ T', Changes m (withChunks c' m) T T' {t} ∅ := by
  have hrun := h.run.snoc hv haddr
  have hlt := hrun.lt h.tiled.toTags
  have hne : v.next ≠ r.addr := by
    intro heq
    rw [heq] at hlt
    omega
  have hsize : r.addr + (s + v.size) = v.next := by
    rw [← BitVec.add_assoc, h.size, ← haddr]
    rfl
  have hnext : (r.addr + (s + v.size)).toNat = v.next.toNat := congrArg BitVec.toNat hsize
  have hbase := (h.tiled.shaped r h.run.first_mem).addr
  have hroom := (h.tiled.shaped r h.run.first_mem).room.1
  have hmod := (hrun.size h.tiled.toTags hsize).2.1
  have hborder : (c₁.setSizeAndPinuseOfFreeChunk r.addr (s + v.size)).head v.next =
      m.chunks.head v.next := by
    rw [ChunkStore.setFree_head c₁ hbase hmod (h.tiled.shaped v hv).next_mod, if_neg hne]
    exact hre.head (h.tiled.firm_border (fun _ => h.tiled.free) hv)
  have hgone : {x | x ∈ R ++ [v] ∧ x.kind = .inuse} = {t} := by
    rw [← h.gone]
    ext x
    simp only [List.mem_append, List.mem_singleton, Set.mem_ofPred_eq]
    constructor
    · rintro ⟨hx | rfl, hx'⟩
      · exact ⟨hx, hx'⟩
      · rw [hkind] at hx'
        cases hx'
    · rintro ⟨hx, hx'⟩
      exact ⟨Or.inl hx, hx'⟩
  -- What follows a free tile is in use.
  have hcinuse : m.chunks.cinuse v.next = true := by
    rcases h.tiled.followed v hv (by rw [hkind]; decide) with ⟨u, hu, hnextu⟩ | hfence
    · rcases h.tiled.coalesced v hv u hu hnextu with hbad | ⟨-, hu'⟩
      · rw [hkind] at hbad
        cases hbad
      · rw [← hnextu, (h.tiled.tagged u hu).cinuse, hu']
        rfl
    · exact hfence
  rw [← hgone]
  refine Changes.freed h.tiled hrun ?_ h.pinuse hcinuse hsize ?_ hword ?_ ?_ ?_ ?_ ?_
  · intro x hx
    rcases List.mem_append.mp hx with hx | hx
    · exact h.not_top x hx
    · rw [List.mem_singleton.mp hx, hkind]
      decide
  · exact (hre _ _).setFree (le_refl _) (hnext ▸ hlt) hnext.le hroom
  · rw [ChunkStore.setFree_head c₁ hbase hmod hbase, if_pos rfl]
  · rw [← hsize]
    exact ChunkStore.setFree_foot ..
  · rw [ChunkStore.pinuse_eq, hborder, ← ChunkStore.pinuse_eq, (h.tiled.tagged v hv).border, hkind]
    rfl
  · rw [ChunkStore.chunksize_eq, ChunkStore.cinuse_eq, hborder]
    exact ⟨rfl, rfl⟩
  · rw [others_free hkind]
    exact hlinks

/-- The chunk is joined with top. -/
theorem before_top (h : Pending m T r t R s c) {v : Tile} (hv : v ∈ T) (haddr : v.addr = t.next)
    (hkind : v.kind = .top) :
    ∃ T', Changes m { m with
      topsize := m.topsize + s
      top := r.addr
      chunks := c.setHead r.addr ((m.topsize + s) ||| pinuseBit) } T T' {t} ∅ := by
  have hrun := h.run.snoc hv haddr
  have hvtop := h.tiled.top_only v hv hkind
  have hgone : {x | x ∈ R ++ [v] ∧ x.kind = .inuse} = {t} := by
    rw [← h.gone]
    ext x
    simp only [List.mem_append, List.mem_singleton, Set.mem_ofPred_eq]
    constructor
    · rintro ⟨hx | rfl, hx'⟩
      · exact ⟨hx, hx'⟩
      · rw [hkind] at hx'
        cases hx'
    · rintro ⟨hx, hx'⟩
      exact ⟨Or.inl hx, hx'⟩
  have hsize : r.addr + (m.topsize + s) = v.next := by
    have hv' : v.size = m.topsize := by rw [hvtop]
    rw [BitVec.add_comm m.topsize, ← BitVec.add_assoc, h.size, ← haddr, ← hv']
    rfl
  rw [← hgone]
  refine Changes.topped h.tiled hrun hkind h.pinuse hsize h.relinks rfl ?_ rfl rfl rfl rfl
  rw [others_top hkind]
  exact h.links

/-- The run borders top. -/
theorem bordersTop (h : Pending m T r t R s c) {v : Tile} (hv : v ∈ T) (haddr : v.addr = t.next)
    (hkind : v.kind = .top) : BordersTop r.addr s m := by
  obtain ⟨hsize, -, -⟩ := h.run.size h.tiled.toTags h.size
  have hlt := h.run.lt h.tiled.toTags
  have htop : m.top = t.next := by
    rw [← haddr]
    exact ((h.tiled.top_mem_iff hv).mp hkind).symm
  obtain ⟨seg, hseg, hin⟩ := h.tiled.inside r h.run.first_mem
  have hlast := h.tiled.run_in (h.run.snoc hv haddr) hseg hin
  have hroom := (h.tiled.shaped v hv).toNat_next
  have hlow := hin.1
  have hhigh := hlast.2
  rw [haddr] at hroom
  unfold firstChunk at hlow
  have hsegs : segments m = m.segs := by
    refine segments_of_initialized ?_
    by_contra hno
    rw [segments, if_neg hno] at hseg
    cases hseg
  refine ⟨by rw [htop]; omega, (h.tiled.shaped r h.run.first_mem).addr, seg, hsegs ▸ hseg, by omega,
    ?_⟩
  rw [htop]
  omega

/-- A free tile after the run is dv or in a bin. -/
theorem linked_next {v : Tile} (hv : v ∈ T) (hR : v ∉ R)
    (hkind : v.kind = .free) : (v.addr, v.size) ∈ others T R := by
  refine ⟨?_, ?_⟩
  · change (⟨v.addr, v.size, .free⟩ : Tile) ∈ T
    rwa [← hkind]
  · change (⟨v.addr, v.size, .free⟩ : Tile) ∉ R
    rwa [← hkind]

/-- When a tile of the heap is dv, its size is the size of dv. -/
theorem dv_tile (h : Pending m T r t R s c) {v : Tile} (hv : v ∈ T) (hdv : v.addr = c.dv) :
    c.dvsize ≠ 0 ∧ v.size = c.dvsize := by
  have hsize : c.dvsize ≠ 0 := by
    intro hzero
    have haddr := (h.tiled.shaped v hv).addr
    rw [hdv, h.links.dv_null hzero] at haddr
    simp at haddr
  have hmem := (h.links.dv_mem hsize).1
  exact ⟨hsize, by rw [h.tiled.eq_of_addr hv hmem hdv]⟩

theorem first_unlinked (h : Pending m T r t R s c) (s' : Word) : (r.addr, s') ∉ others T R :=
  h.run.first_not_other h.tiled.toTags h.run.first_mem_run

theorem size_ne_zero (h : Pending m T r t R s c) {v : Tile} (hv : v ∈ T)
    (haddr : v.addr = t.next) : s + v.size ≠ 0 := by
  have hsize : r.addr + (s + v.size) = v.next := by
    rw [← BitVec.add_assoc, h.size, ← haddr]
    rfl
  have hlarge := ((h.run.snoc hv haddr).size h.tiled.toTags hsize).2.2
  rw [word_ne_zero]
  omega

theorem free_of_ne {v : Tile} (hused : v.kind ≠ .inuse) (htop : v.kind ≠ .top) :
    v.kind = .free := by
  cases hkind : v.kind
  · exact absurd hkind hused
  · rfl
  · exact absurd hkind htop

theorem size_next (h : Pending m T r t R s c) {v : Tile} (hv : v ∈ T) (haddr : v.addr = t.next) :
    c.chunksize t.next = v.size := by
  rw [ChunkStore.chunksize, h.head_next, ← haddr]
  exact (h.tiled.tagged v hv).size

/-- A chunk in use, top, dv or a chunk of a bin comes after the run. -/
theorem forward (h : Pending m T r t R s c) (hne : r.addr ≠ c.dv) :
    ∃ m', consolidateForward r.addr s t.next (withChunks c m) = .ok m' ∧ Freed m m' T t := by
  by_cases hcinuse : c.cinuse t.next = true
  · obtain ⟨T', hT'⟩ := h.before_inuse
      ((c.setFreeWithPinuse r.addr s t.next).insertChunk r.addr s)
      hcinuse (fun _ => insertChunk_word)
      (Links.insert (h.links.congr rfl rfl rfl) (h.first_unlinked s))
    exact ⟨_, consolidateForward_inuse (m := withChunks c m) hcinuse h.okBins, ⟨.binned _, rfl⟩,
      T', hT'⟩
  have hno : c.cinuse t.next = false := Bool.not_eq_true _ ▸ hcinuse
  obtain ⟨v, hv, haddr, hused, hR⟩ := h.next_tile hno
  by_cases htop : v.kind = .top
  · obtain ⟨T', hT'⟩ := h.before_top hv haddr htop
    refine ⟨_, consolidateForward_top hno (haddr ▸ (h.tiled.top_mem_iff hv).mp htop), ?_⟩
    rw [if_neg (show r.addr ≠ (withChunks c m).chunks.dv from hne)]
    exact ⟨⟨.intoTop r.addr s c, h.bordersTop hv haddr htop, rfl⟩, T', hT'⟩
  have hfree := free_of_ne hused htop
  have hnotop : t.next ≠ m.top := fun heq => htop ((h.tiled.top_mem_iff hv).mpr (haddr.trans heq))
  have hlinked := linked_next hv hR hfree
  by_cases hdv : t.next = c.dv
  · obtain ⟨hdvsize, hsize⟩ := h.dv_tile hv (haddr.trans hdv)
    have hpair : (v.addr, v.size) = (c.dv, c.dvsize) := by rw [haddr, hdv, hsize]
    obtain ⟨T', hT'⟩ := h.before_free
      ((c.setDv r.addr (c.dvsize + s)).setSizeAndPinuseOfFreeChunk r.addr (c.dvsize + s))
      hv haddr hfree h.relinks (fun _ _ => by rw [hsize, BitVec.add_comm s]; rfl) (by
        rw [hpair, hsize, BitVec.add_comm s]
        have hne_zero := h.size_ne_zero hv haddr
        rw [hsize, BitVec.add_comm s] at hne_zero
        exact (h.links.moveDv hdvsize hne_zero fun hx =>
          h.first_unlinked _ (h.others_eq hx)).congr rfl rfl rfl)
    exact ⟨_, consolidateForward_dv hno hnotop hdv, ⟨.binned _, rfl⟩, T', hT'⟩
  · have hbinned := h.links.binned_of_ne hlinked (haddr ▸ hdv)
    have hnsize := h.size_next hv haddr
    rw [haddr] at hbinned
    rw [← hnsize] at hbinned
    obtain ⟨T', hT'⟩ := h.before_free
      (((c.unlinkChunk t.next (c.chunksize t.next)).setSizeAndPinuseOfFreeChunk r.addr
        (s + v.size)).insertChunk r.addr (s + v.size))
      hv haddr hfree (h.relinks.unlinkChunk _ _) (fun _ => insertChunk_word) (by
        rw [haddr, ← hnsize]
        exact Links.insert ((h.links.unlink hbinned).congr rfl rfl rfl) fun hx =>
          h.first_unlinked _ hx.1)
    refine ⟨_, consolidateForward_free (m := withChunks c m) hno hnotop hdv hbinned h.okBins
      (congrArg (s + ·) hnsize.symm), ?_⟩
    rw [if_neg (show r.addr ≠ (withChunks c m).chunks.dv from hne)]
    exact ⟨⟨.binned _, rfl⟩, T', hT'⟩

/-- The run begins with dv, which it stays part of unless top comes after the run. -/
theorem forward_dv {c : ChunkStore} (h : Pending m T r t R s (c.setDv 0 0))
    (hre : Relinks m.chunks c) (heq : r.addr = c.dv) (hno : c.cinuse t.next = false) :
    ∃ m', consolidateForward r.addr s t.next (withChunks c m) = .ok m' ∧ Freed m m' T t := by
  obtain ⟨v, hv, haddr, hused, hR⟩ := h.next_tile hno
  have hlt := h.run.lt h.tiled.toTags
  by_cases htop : v.kind = .top
  · obtain ⟨T', hT'⟩ := h.before_top hv haddr htop
    refine ⟨_, consolidateForward_top hno (haddr ▸ (h.tiled.top_mem_iff hv).mp htop), ?_⟩
    rw [if_pos (show r.addr = (withChunks c m).chunks.dv from heq)]
    exact ⟨⟨.intoTop r.addr s (c.setDv 0 0), h.bordersTop hv haddr htop, rfl⟩, T', hT'⟩
  have hfree := free_of_ne hused htop
  have hnotdv : t.next ≠ c.dv := by
    intro hdv
    rw [hdv, ← heq] at hlt
    omega
  have hbinned : (v.addr, v.size) ∈ c.binned := by
    rcases (h.links.free_iff _).mp (linked_next hv hR hfree) with hx | ⟨-, hx⟩
    · exact hx
    · exact absurd rfl hx
  have hnsize : c.chunksize t.next = v.size := h.size_next hv haddr
  rw [haddr, ← hnsize] at hbinned
  obtain ⟨T', hT'⟩ := h.before_free
    (((c.unlinkChunk t.next (c.chunksize t.next)).setSizeAndPinuseOfFreeChunk r.addr
      (s + v.size)).setDv r.addr (s + v.size))
    hv haddr hfree (hre.unlinkChunk t.next (c.chunksize t.next)) (fun _ _ => rfl) (by
      rw [haddr, ← hnsize]
      have hne_zero := h.size_ne_zero hv haddr
      rw [← hnsize] at hne_zero
      exact (Links.newDv (h.links.unlink hbinned) rfl hne_zero fun hx =>
        h.first_unlinked _ (h.others_eq (List.mem_of_mem_erase hx))).congr rfl rfl rfl)
  refine ⟨_, consolidateForward_free (m := withChunks c m) hno
    (fun heq => htop ((h.tiled.top_mem_iff hv).mpr (haddr.trans heq))) hnotdv hbinned h.okBins
    (congrArg (s + ·) hnsize.symm), ?_⟩
  rw [if_pos (show r.addr = (withChunks c m).chunks.dv from heq)]
  exact ⟨⟨.binned _, rfl⟩, T', hT'⟩

end Pending

namespace Tiled

/-- A chunk in use is not dv. -/
theorem used_ne_dv (hT : Tiled m T) (ht : t ∈ T) (hkind : t.kind = .inuse) :
    t.addr ≠ m.chunks.dv := by
  intro heq
  by_cases hdv : m.chunks.dvsize = 0
  · have haddr := (hT.shaped t ht).addr
    rw [heq, hT.links.dv_null hdv] at haddr
    simp at haddr
  · have hmem : (⟨m.chunks.dv, m.chunks.dvsize, .free⟩ : Tile) ∈ T := hT.links.dv_mem hdv
    have htile := hT.eq_of_addr ht hmem heq
    rw [htile] at hkind
    cases hkind

theorem others_used (hkind : t.kind = .inuse) : others T [t] = freeChunks T := by
  ext x
  have hne : (⟨x.1, x.2, .free⟩ : Tile) ≠ t := by
    rintro rfl
    cases hkind
  simp only [mem_others, List.mem_singleton, hne, not_false_eq_true, and_true]

theorem others_pair (hkind : t.kind = .inuse) (hfree : u.kind = .free) :
    others T [u, t] = freeChunks T \ {(u.addr, u.size)} := by
  ext x
  have hne : (⟨x.1, x.2, .free⟩ : Tile) ≠ t := by
    rintro rfl
    cases hkind
  have hiff : (⟨x.1, x.2, .free⟩ : Tile) = u ↔ x = (u.addr, u.size) := by
    rw [Tile.ext_iff, Prod.ext_iff]
    simp [hfree.symm]
  simp only [mem_others, List.mem_cons, List.not_mem_nil, or_false, hne, hiff, Set.mem_sdiff,
    Set.mem_singleton_iff]

/-- A chunk that is freed alone. -/
theorem pending_alone (hT : Tiled m T) (ht : t ∈ T) (hkind : t.kind = .inuse)
    (hpin : m.chunks.pinuse t.addr = true) : Pending m T t t [t] t.size m.chunks where
  tiled := hT
  run := .one ht
  inuse := hkind
  kinds x hx := Or.inl (List.mem_singleton.mp hx)
  size := rfl
  pinuse := hpin
  relinks := Relinks.refl
  links := by
    rw [others_used hkind]
    exact hT.links

/-- A chunk that is freed after a free one. -/
theorem pending_after (hT : Tiled m T) (ht : t ∈ T) (hkind : t.kind = .inuse) (hu : u ∈ T)
    (hfree : u.kind = .free) (hnext : u.next = t.addr) {c : ChunkStore}
    (hre : Relinks m.chunks c) (hlinks : Links c (freeChunks T \ {(u.addr, u.size)})) :
    Pending m T u t [u, t] (t.size + u.size) c where
  tiled := hT
  run := .two hu ht hnext.symm
  inuse := hkind
  kinds x hx := by
    rcases List.mem_cons.mp hx with rfl | hx
    · exact Or.inr hfree
    · exact Or.inl (List.mem_singleton.mp hx)
  size := by
    rw [BitVec.add_comm t.size, ← BitVec.add_assoc]
    change u.next + t.size = _
    rw [hnext]
    rfl
  pinuse := hT.pinuse_of_unused hu (by rw [hfree]; decide)
  relinks := hre
  links := by
    rw [others_pair hkind hfree]
    exact hlinks

/-- Consolidating a chunk in use fails no check, and takes the chunk out of use. -/
theorem consolidate (hT : Tiled m T) (ht : t ∈ T) (hkind : t.kind = .inuse)
    {ok : Word → Word → MallocState → Bool}
    (hok : ∀ (p : Word) (c : ChunkStore), p.toNat < t.next.toNat →
      c.head t.next = m.chunks.head t.next → ok p t.next (withChunks c m) = true) :
    ∃ m', Dlmalloc.consolidate ok t.addr t.size m = .ok m' ∧ Freed m m' T t := by
  have hroom := (hT.shaped t ht).toNat_next
  have hlarge := (hT.shaped t ht).large
  have htag := hT.tagged t ht
  unfold Dlmalloc.consolidate
  by_cases hpin : m.chunks.pinuse t.addr = true
  · rw [if_neg (by rw [hpin]; decide)]
    obtain ⟨m', hrun, hfreed⟩ := (hT.pending_alone ht hkind hpin).forward
      (hT.used_ne_dv ht hkind)
    exact ⟨m', (if_pos (hok t.addr m.chunks (by omega) rfl)).trans hrun, hfreed⟩
  have hno : m.chunks.pinuse t.addr = false := Bool.not_eq_true _ ▸ hpin
  obtain ⟨u, hu, hfree, hnext⟩ := hT.free_before ht hno
  have hmmapped : m.chunks.isMmapped t.addr = false := by
    rw [ChunkStore.isMmapped_eq, htag.cinuse, hkind]
    rfl
  have hfoot : m.chunks.prevFoot t.addr = u.size := hnext ▸ (hT.tagged u hu).foot hfree
  have hprev : t.addr - u.size = u.addr := by
    rw [← hnext]
    exact BitVec.add_sub_cancel ..
  have hleast : okAddress m u.addr = true := by
    rw [okAddress, decide_eq_true_eq, word_le]
    exact hT.least_le hu
  have hbefore : u.addr.toNat < t.next.toNat := by
    have hbefore := (hT.shaped u hu).toNat_next
    rw [hnext] at hbefore
    omega
  have hmem : (u.addr, u.size) ∈ freeChunks T := by
    change (⟨u.addr, u.size, .free⟩ : Tile) ∈ T
    rwa [← hfree]
  rw [if_pos (by rw [hno]; decide), hfoot, hmmapped, if_neg Bool.false_ne_true, hprev,
    if_pos hleast]
  by_cases hdv : u.addr = m.chunks.dv
  · have hdvsize : m.chunks.dvsize ≠ 0 := by
      intro hzero
      have haddr := (hT.shaped u hu).addr
      rw [hdv, hT.links.dv_null hzero] at haddr
      simp at haddr
    have hpair : (u.addr, u.size) = (m.chunks.dv, m.chunks.dvsize) := by
      have heq := hT.eq_of_addr hu (hT.links.dv_mem hdvsize) hdv
      rw [heq]
    have hpending : Pending m T u t [u, t] (t.size + u.size) (m.chunks.setDv 0 0) :=
      hT.pending_after ht hkind hu hfree hnext Relinks.refl.clearDv
        (hpair ▸ hT.links.clearDv hdvsize)
    rw [if_neg (not_not.mpr hdv)]
    by_cases hcinuse : m.chunks.cinuse t.next = true
    · have hborder : m.chunks.pinuse t.next = true := by
        rw [htag.border, hkind]
        rfl
      rw [if_pos (show m.chunks.head (t.addr + t.size) &&& inuseBits = inuseBits from
        (m.chunks.inuseBits_iff t.next).mpr ⟨hcinuse, hborder⟩)]
      have hsize := (hpending.run.size hT.toTags hpending.size).2.2
      obtain ⟨T', hT'⟩ := hpending.before_inuse
        ((m.chunks.setDv u.addr (t.size + u.size)).setFreeWithPinuse u.addr
          (t.size + u.size) t.next)
        hcinuse (fun _ _ => rfl)
        ((hpending.links.newDv rfl (word_ne_zero.mpr (by omega)) fun hx =>
          hpending.first_unlinked _ (hpending.others_eq hx)).congr rfl rfl rfl)
      exact ⟨_, rfl, ⟨.binned _, rfl⟩, T', hT'⟩
    · rw [if_neg (show m.chunks.head (t.addr + t.size) &&& inuseBits ≠ inuseBits from fun hbits =>
        hcinuse ((m.chunks.inuseBits_iff t.next).mp hbits).1)]
      obtain ⟨m', hrun, hfreed⟩ := hpending.forward_dv Relinks.refl hdv
        (Bool.not_eq_true _ ▸ hcinuse)
      exact ⟨m', (if_pos (hok u.addr m.chunks hbefore rfl)).trans hrun, hfreed⟩
  · have hbinned := hT.links.binned_of_ne hmem hdv
    have hunlink : unlinkChunk m u.addr u.size m.chunks =
        .ok (m.chunks.unlinkChunk u.addr u.size) :=
      unlinkChunk_ok hT.okBinned hbinned
    have hpending : Pending m T u t [u, t] (t.size + u.size) (m.chunks.unlinkChunk u.addr u.size) :=
      hT.pending_after ht hkind hu hfree hnext (Relinks.refl.unlinkChunk _ _)
        (hT.links.unlink hbinned)
    obtain ⟨m', hrun, hfreed⟩ := hpending.forward hdv
    refine ⟨m', ?_, hfreed⟩
    rw [if_pos hdv, hunlink]
    exact (if_pos (hok u.addr (m.chunks.unlinkChunk u.addr u.size) hbefore
      hpending.head_next)).trans hrun

/-- `dispose_chunk` of a chunk in use. -/
theorem disposeChunk (hT : Tiled m T) (ht : t ∈ T) (hkind : t.kind = .inuse) :
    ∃ m', Dlmalloc.disposeChunk t.addr t.size m = .ok m' ∧ Freed m m' T t := by
  have hleast := hT.least_le ht
  have hroom := (hT.shaped t ht).toNat_next
  exact hT.consolidate ht hkind fun _ c _ _ =>
    decide_eq_true (show m.leastAddr.toNat ≤ t.next.toNat by omega)

/-- `dlfree` of the block of a chunk in use. -/
theorem dlfree (hT : Tiled m T) (ht : t ∈ T) (hkind : t.kind = .inuse) :
    ∃ m', Dlmalloc.dlfree (chunk2mem t.addr) m = .ok m' ∧ Freed m m' T t := by
  have htag := hT.tagged t ht
  have hmem : chunk2mem t.addr ≠ 0 := by
    rw [word_ne_zero, (hT.shaped t ht).toNat_mem]
    omega
  have hchunk : mem2chunk (chunk2mem t.addr) = t.addr := by
    rw [mem2chunk, chunk2mem, BitVec.add_sub_cancel]
  have hok : (okAddress m t.addr && m.chunks.isInuse t.addr) = true := by
    rw [okAddress, ChunkStore.isInuse_eq, htag.cinuse, hkind, Bool.and_eq_true, decide_eq_true_eq,
      word_le]
    exact ⟨hT.least_le ht, rfl⟩
  unfold Dlmalloc.dlfree
  rw [if_pos hmem, hchunk, if_pos hok, htag.size]
  refine hT.consolidate ht hkind fun p c hp hhead => ?_
  have hborder : c.pinuse t.next = true := by
    rw [ChunkStore.pinuse, hhead]
    exact htag.border.trans (by rw [hkind]; rfl)
  rw [Bool.and_eq_true, okNext, decide_eq_true_eq, word_lt]
  exact ⟨hp, hborder⟩

end Tiled

end WasmCxxShim.Dlmalloc
