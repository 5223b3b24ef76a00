import WasmCxxShim.DlmallocService
import WasmCxxShim.DlmallocSplits

/-!
# Regions become chunks

A region that `sys_alloc` acquires becomes a new top or extends the old one. Where top was, the
tiling ends with a free chunk, the chunk of a segment record and fenceposts. Nothing that is in use
moves or is written to.
-/
namespace WasmCxxShim.Dlmalloc
open MachineWords HaltingPrograms AddressRegions AddressTilings LinearMemory

variable {m m' : MallocState} {T N : Set Tile} {r t u : Tile} {c c' : ChunkStore} {p s : Word}

/-- A new top above all tiles. -/
theorem Tags.newTop (hT : Tags c T) (hshaped : (⟨p, s, .top⟩ : Tile).Shaped)
    (hbelow : ∀ t ∈ T, t.next.toNat < p.toNat) :
    Tags ((c.setHead p (s ||| pinuseBit)).setHead (p + s) topFootSize)
      (insert ⟨p, s, .top⟩ T) := by
  have hnext : (p + s).toNat = p.toNat + s.toNat := hshaped.toNat_next
  have hlarge : 16 ≤ s.toNat := hshaped.large
  generalize hc' : (c.setHead p (s ||| pinuseBit)).setHead (p + s) topFootSize = c'
  have hne : p ≠ p + s := by
    intro heq
    rw [← heq] at hnext
    omega
  have hself : c'.head p = s ||| pinuseBit := by
    rw [← hc']
    simp [hne]
  have hend : c'.head (p + s) = topFootSize := by
    rw [← hc']
    simp
  have hhead : ∀ q : Word, q.toNat < p.toNat → c'.head q = c.head q := by
    intro q hq
    have hqp : q ≠ p := by
      rintro rfl
      omega
    have hqs : q ≠ p + s := by
      rintro rfl
      omega
    rw [← hc']
    simp [hqp, hqs]
  have hroom := hshaped.room
  have hhead₁ := toNat_head hroom.1
  have hhead₂ := toNat_head hroom.2
  have hfoot : ∀ q : Word, q.toNat < p.toNat → c'.prevFoot q = c.prevFoot q := by
    intro q hq
    have hq₁ : q ≠ p + sizeTSize := by
      rintro rfl
      dsimp only at hhead₁
      omega
    have hq₂ : q ≠ p + s + sizeTSize := by
      rintro rfl
      change (p + s + sizeTSize).toNat = (p + s).toNat + 4 at hhead₂
      omega
    rw [← hc']
    exact ((ChunkStore.setWord_word ..).trans (if_neg hq₂)).trans
      ((ChunkStore.setWord_word ..).trans (if_neg hq₁))
  have haddr : ∀ t ∈ T, t.addr.toNat < p.toNat := by
    intro t ht
    have := (hT.shaped t ht).toNat_next
    have := hbelow t ht
    omega
  have htagged : Tagged c' ⟨p, s, .top⟩ :=
    Tagged.top hshaped.size hself (by rw [ChunkStore.pinuse, hend]; decide)
  refine ⟨?_, ?_, ?_, ?_, ?_, ?_⟩
  · rintro t (rfl | ht)
    · exact hshaped
    · exact hT.shaped t ht
  · have hcross : ∀ t ∈ T, Beside t.region (⟨p, s, .top⟩ : Tile).region := by
      intro t ht
      left
      rw [(hT.shaped t ht).finish_eq]
      exact (hbelow t ht).le
    rintro t (rfl | ht) u (rfl | hu) hdiff
    · exact absurd rfl hdiff
    · exact (hcross u hu).symm
    · exact hcross t ht
    · exact hT.separate t ht u hu hdiff
  · rintro t (rfl | ht)
    · exact htagged
    · obtain ⟨hsize, hcinuse, hborder, hfree⟩ := hT.tagged t ht
      refine ⟨?_, ?_, ?_, fun hkind => ?_⟩
      · rw [ChunkStore.chunksize, hhead _ (haddr t ht)]
        exact hsize
      · rw [ChunkStore.cinuse, hhead _ (haddr t ht)]
        exact hcinuse
      · rw [ChunkStore.pinuse, hhead _ (hbelow t ht)]
        exact hborder
      · rw [hfoot _ (hbelow t ht)]
        exact hfree hkind
  · rintro t (rfl | ht)
    · left
      rw [ChunkStore.pinuse_eq, hself, headPinuse_free]
    · rcases hT.preceded t ht with hyes | ⟨u, hu, hnextu⟩
      · left
        rw [ChunkStore.pinuse, hhead _ (haddr t ht)]
        exact hyes
      · exact Or.inr ⟨u, Or.inr hu, hnextu⟩
  · rintro t (rfl | ht) hkind
    · exact absurd rfl hkind
    · rcases hT.followed t ht hkind with ⟨u, hu, hnextu⟩ | hfence
      · exact Or.inl ⟨u, Or.inr hu, hnextu⟩
      · right
        rw [ChunkStore.cinuse, hhead _ (hbelow t ht)]
        exact hfence
  · rintro t (rfl | ht) u (rfl | hu) hnextu
    · exact absurd hnextu hne
    · have := haddr u hu
      rw [hnextu] at this
      change (p + s).toNat < _ at this
      omega
    · have := hbelow t ht
      rw [← hnextu] at this
      exact absurd this (lt_irrefl _)
    · exact hT.coalesced t ht u hu hnextu

/-- The last tile before `b` is replaced by tiles up to `b`. -/
theorem Replaces.last {b : ℕ} (hT : Tags c T)
    (hfree : ∀ q, IsFree c q → (⟨q.1, q.2, .free⟩ : Tile) ∈ T) (hr : r ∈ T) (hend : r.next.toNat ≤ b)
    (hclear : ∀ t ∈ T, t ≠ r → t.next.toNat ≤ r.addr.toNat ∨ b < t.addr.toNat)
    (hframe : Frame r.addr.toNat b c c') (hpin : c.pinuse r.addr = true)
    (hpin' : c'.pinuse r.addr = true) (hshaped : ∀ n ∈ N, n.Shaped)
    (hseparate : Separate Tile.region N)
    (hwithin : ∀ n ∈ N, r.addr.toNat ≤ n.addr.toNat ∧ n.next.toNat ≤ b)
    (htagged : ∀ n ∈ N, Tagged c' n) (hbegins : ∃ n ∈ N, n.addr = r.addr)
    (hpreceded : ∀ n ∈ N, n.addr = r.addr ∨ ∃ u ∈ N, u.next = n.addr)
    (hfollowed : ∀ n ∈ N, n.kind ≠ .top → (∃ u ∈ N, u.addr = n.next) ∨ c'.cinuse n.next = true)
    (hmiddle : ∀ n ∈ N, ∀ u ∈ N, u.addr = n.next →
      n.kind = .inuse ∨ n.kind = .free ∧ u.kind = .inuse) : Replaces c c' T r b N := by
  have hlarge := (hT.shaped r hr).large
  have hroom := (hT.shaped r hr).toNat_next
  have hnone : ∀ u ∈ T, u.addr.toNat ≠ b := by
    intro u hu heq
    by_cases hur : u = r
    · subst hur
      omega
    · have := hclear u hu hur
      have := (hT.shaped u hu).toNat_next
      have := (hT.shaped u hu).large
      omega
  refine ⟨hframe, hfree, fun t ht => ?_, hr, hpin'.trans hpin.symm, fun u hu hb => absurd hb (hnone u hu),
    hshaped, hseparate, hwithin, htagged, hbegins, fun u hu hb => absurd hb (hnone u hu), hpreceded,
    fun n hn hkind => ?_, fun _ _ _ => Or.inr hpin, hmiddle,
    fun n hn u hu _ hb => absurd hb (hnone u hu)⟩
  · by_cases htr : t = r
    · subst htr
      exact Or.inr ⟨le_refl _, (hT.shaped t ht).finish_eq ▸ hend⟩
    · left
      rcases hclear t ht htr with hbefore | hafter
      · exact Or.inl ((hT.shaped t ht).finish_eq ▸ hbefore)
      · exact Or.inr hafter.le
  · rcases hfollowed n hn hkind with hu | hfence
    · exact Or.inl hu
    · exact Or.inr (Or.inr hfence)

/-- Fenceposts touch nothing but heads. -/
theorem fenceposts_rest (oldEnd : Word) (fuel : ℕ) (p : Word) (c : ChunkStore) :
    (c.fenceposts oldEnd fuel p).dv = c.dv ∧ (c.fenceposts oldEnd fuel p).dvsize = c.dvsize ∧
      (c.fenceposts oldEnd fuel p).binned = c.binned := by
  induction fuel generalizing p c with
  | zero => exact ⟨rfl, rfl, rfl⟩
  | succ fuel ih =>
    rw [ChunkStore.fenceposts]
    split_ifs
    · exact ih _ _
    · exact ⟨rfl, rfl, rfl⟩

theorem fenceposts_frame {a : ℕ} {c₀ : ChunkStore} {oldEnd : Word} (hend : oldEnd.toNat < 4294967288)
    (fuel : ℕ) (hp : a ≤ p.toNat) (hp' : p.toNat < oldEnd.toNat)
    (h : Frame a oldEnd.toNat c₀ c) : Frame a oldEnd.toNat c₀ (c.fenceposts oldEnd fuel p) := by
  induction fuel generalizing p c with
  | zero => exact h
  | succ fuel ih =>
    have hnext : (p + sizeTSize).toNat = p.toNat + 4 := toNat_head (by omega)
    rw [ChunkStore.fenceposts]
    split_ifs with hmore
    · have hmore' : (p + sizeTSize + sizeTSize).toNat = p.toNat + 8 := by
        rw [toNat_head (by omega), hnext]
      rw [word_lt, hmore'] at hmore
      exact ih (by omega) (by omega) (h.setHead _ hp hp'.le (by omega))
    · exact h.setHead _ hp hp'.le (by omega)

/-- Fenceposts are written from the first one on. -/
theorem fenceposts_word {x oldEnd : Word} (hend : oldEnd.toNat < 4294967288) (fuel : ℕ)
    (hp : p.toNat < oldEnd.toNat) (hx : x.toNat < p.toNat + 4) :
    (c.fenceposts oldEnd fuel p).word x = c.word x := by
  induction fuel generalizing p c with
  | zero => rfl
  | succ fuel ih =>
    have hnext : (p + sizeTSize).toNat = p.toNat + 4 := toNat_head (by omega)
    have hne : x ≠ p + sizeTSize := by
      rintro rfl
      omega
    have hself : (c.setHead p fencepostHead).word x = c.word x :=
      (ChunkStore.setWord_word ..).trans (if_neg hne)
    rw [ChunkStore.fenceposts]
    split_ifs with hmore
    · have hmore' : (p + sizeTSize + sizeTSize).toNat = p.toNat + 8 := by
        rw [toNat_head (by omega), hnext]
      rw [word_lt, hmore'] at hmore
      exact (ih (by omega) (by omega)).trans hself
    · exact hself

/-- The first fencepost. -/
theorem fenceposts_self {oldEnd : Word} (hend : oldEnd.toNat < 4294967288) (fuel : ℕ)
    (hp : p.toNat < oldEnd.toNat) :
    (c.fenceposts oldEnd (fuel + 1) p).head p = fencepostHead := by
  have hnext : (p + sizeTSize).toNat = p.toNat + 4 := toNat_head (by omega)
  rw [ChunkStore.fenceposts]
  split_ifs with hmore
  · have hmore' : (p + sizeTSize + sizeTSize).toNat = p.toNat + 8 := by
      rw [toNat_head (by omega), hnext]
    rw [word_lt, hmore'] at hmore
    refine (fenceposts_word hend fuel (by omega) (by omega)).trans ?_
    exact (ChunkStore.setHead_head ..).trans (if_pos rfl)
  · exact (ChunkStore.setHead_head ..).trans (if_pos rfl)

section Record

variable {ss next : Word} {seg : Segment}

theorem record_words (hroom : ss.toNat + 12 < 4294967296) :
    (ss + sizeTSize).toNat = ss.toNat + 4 ∧ (ss + twoSizeTSizes).toNat = ss.toNat + 8 ∧
      (ss + twoSizeTSizes + sizeTSize).toNat = ss.toNat + 12 := by
  have hlink : (ss + twoSizeTSizes).toNat = ss.toNat + 8 := by
    rw [twoSizeTSizes_eq]
    exact BitVec.toNat_add_of_lt (show ss.toNat + 8 < 2 ^ 32 by omega)
  exact ⟨toNat_head (by omega), hlink, by rw [toNat_head (by omega), hlink]⟩

theorem Frame.writeRecord {a b : ℕ} {c₀ : ChunkStore} (h : Frame a b c₀ c)
    (hroom : ss.toNat + 12 < 4294967296) (ha : a < ss.toNat) (hb : ss.toNat + 8 ≤ b) :
    Frame a b c₀ (c.writeRecord ss seg next) := by
  obtain ⟨hsize, hlink, hflags⟩ := record_words hroom
  exact (((h.setWord _ ha (by omega)).setWord _ (by omega) (by omega)).setWord _ (by omega)
    (by omega)).setWord _ (by omega) (by omega)

/-- A record is written from its address on. -/
theorem writeRecord_word {x : Word} (hroom : ss.toNat + 12 < 4294967296)
    (hx : x.toNat < ss.toNat) : (c.writeRecord ss seg next).word x = c.word x := by
  obtain ⟨hsize, hlink, hflags⟩ := record_words hroom
  have hne : ∀ y : Word, ss.toNat ≤ y.toNat → x ≠ y := by
    rintro y hy rfl
    omega
  simp only [ChunkStore.writeRecord, ChunkStore.setWord_word]
  rw [if_neg (hne _ (by omega)), if_neg (hne _ (by omega)), if_neg (hne _ (by omega)),
    if_neg (hne _ (le_refl _))]

end Record

/-- What `add_segment` makes of the old top, the foot of which ends at `oldEnd`: a free chunk, and
the chunk of a segment record followed by fenceposts. -/
def closeTop (oldTop topsize oldEnd : Word) (seg : Segment) (next : Word) (c : ChunkStore) :
    ChunkStore :=
  let csp := oldTop + topsize
  ((((c.setSizeAndPinuseOfInuseChunk csp 32).writeRecord (chunk2mem csp) seg next).fenceposts oldEnd
    (oldEnd - (csp + 32)).toNat (csp + 32)).setFreeWithPinuse oldTop topsize csp).insertChunk oldTop
    topsize

/-- The record of a segment, where the foot of top was. -/
def recordTile (oldTop topsize : Word) : Tile := ⟨oldTop + topsize, 32, .inuse⟩

section CloseTop

variable {top topsize oldEnd k : Word} {g : Segment}
  (hmem : (⟨top, topsize, .top⟩ : Tile) ∈ T) (hT : Tags c T)
  (hend : oldEnd.toNat = (top + topsize).toNat + 56) (hroom : oldEnd.toNat < 4294967288)

include hmem hT hend hroom

theorem closeTop_words : (top + topsize).toNat = top.toNat + topsize.toNat ∧
    (top + topsize + 32).toNat = top.toNat + topsize.toNat + 32 ∧
    (oldEnd - (top + topsize + 32)).toNat = 24 ∧
    (chunk2mem (top + topsize)).toNat = top.toNat + topsize.toNat + 8 := by
  have hnext : (top + topsize).toNat = top.toNat + topsize.toNat := (hT.shaped _ hmem).toNat_next
  have hrecord : (top + topsize + 32).toNat = top.toNat + topsize.toNat + 32 := by
    rw [BitVec.toNat_add_of_lt (show (top + topsize).toNat + 32 < 2 ^ 32 by omega), hnext]
    rfl
  refine ⟨hnext, hrecord, ?_, ?_⟩
  · rw [BitVec.toNat_sub_of_le (by rw [word_le]; omega)]
    omega
  · rw [chunk2mem, twoSizeTSizes_eq,
      BitVec.toNat_add_of_lt (show (top + topsize).toNat + 8 < 2 ^ 32 by omega), hnext]
    rfl

theorem closeTop_frame : Frame top.toNat oldEnd.toNat c (closeTop top topsize oldEnd g k c) := by
  obtain ⟨hnext, hrecord, hgap, hmemNat⟩ := closeTop_words hmem hT hend hroom
  have hlarge : 16 ≤ topsize.toNat := (hT.shaped _ hmem).large
  have hframe : Frame top.toNat oldEnd.toNat c c := Frame.refl
  have hhead := hframe.setHead ((32 : Word) ||| pinuseBit ||| cinuseBit)
    (show top.toNat ≤ (top + topsize).toNat by omega) (by omega) (by omega)
  have hwritten : Frame top.toNat oldEnd.toNat c ((c.setSizeAndPinuseOfInuseChunk (top + topsize)
      32).writeRecord (chunk2mem (top + topsize)) g k) :=
    hhead.writeRecord (by omega) (by omega) (by omega)
  have hposts := fenceposts_frame hroom (oldEnd - (top + topsize + 32)).toNat
    (show top.toNat ≤ (top + topsize + 32).toNat by omega) (by omega) hwritten
  exact ((hposts.clearPinuse (by omega) (by omega) (by omega)).setFree (le_refl _) (by omega)
    (by omega) (by omega)).insertChunk (le_refl _) (by omega) (by omega) hlarge

variable (hfree : ∀ q, IsFree c q → (⟨q.1, q.2, .free⟩ : Tile) ∈ T)
  (hclear : ∀ t ∈ T, t ≠ ⟨top, topsize, .top⟩ → t.next.toNat ≤ top.toNat ∨
    oldEnd.toNat < t.addr.toNat)

include hfree hclear

/-- The only links from top on are those of the chunk that top becomes. -/
theorem closeTop_firm {x : Word} (hlow : top.toNat ≤ x.toNat) (hhigh : x.toNat ≤ oldEnd.toNat)
    (hout : x.toNat < top.toNat + 8 ∨ (top + topsize).toNat ≤ x.toNat) :
    ¬ (closeTop top topsize oldEnd g k c).Loose x := by
  obtain ⟨hnext, hrecord, hgap, hmemNat⟩ := closeTop_words hmem hT hend hroom
  have hlarge : 16 ≤ topsize.toNat := (hT.shaped _ hmem).large
  obtain ⟨hdv, hsize, hbinned⟩ := fenceposts_rest oldEnd (oldEnd - (top + topsize + 32)).toNat
    (top + topsize + 32) ((c.setSizeAndPinuseOfInuseChunk (top + topsize) 32).writeRecord
      (chunk2mem (top + topsize)) g k)
  rintro ⟨q, hq, hrange⟩
  have hold : q = (top, topsize) ∨ IsFree c q := by
    rcases hq with hq | hq
    · rcases List.mem_cons.mp hq with rfl | hq
      · exact Or.inl rfl
      · exact Or.inr (Or.inl (hbinned ▸ hq))
    · rw [show (closeTop top topsize oldEnd g k c).dv = c.dv from hdv,
        show (closeTop top topsize oldEnd g k c).dvsize = c.dvsize from hsize] at hq
      exact Or.inr (Or.inr hq)
  rcases hold with rfl | hq
  · have hin := links_within hlarge (show top.toNat < (top + topsize).toNat by omega) hrange.1
      hrange.2
    omega
  · obtain ⟨u, hu, hkind, hafter, hbefore⟩ := hT.tile_of_loose hfree ⟨q, hq, hrange⟩
    have hne : u ≠ ⟨top, topsize, .top⟩ := by
      rintro rfl
      cases hkind
    have hbeside := hclear u hu hne
    omega

/-- What is linked last leaves these words as they are. -/
theorem closeTop_word {x : Word} (hlow : top.toNat ≤ x.toNat) (hhigh : x.toNat ≤ oldEnd.toNat)
    (hout : x.toNat < top.toNat + 8 ∨ (top + topsize).toNat ≤ x.toNat) :
    (closeTop top topsize oldEnd g k c).word x =
      ((((c.setSizeAndPinuseOfInuseChunk (top + topsize) 32).writeRecord
        (chunk2mem (top + topsize)) g k).fenceposts oldEnd 24
          (top + topsize + 32)).setFreeWithPinuse top topsize (top + topsize)).word x := by
  obtain ⟨-, -, hgap, -⟩ := closeTop_words hmem hT hend hroom
  have hfirm := closeTop_firm (g := g) (k := k) hmem hT hend hroom hfree hclear hlow hhigh
    hout
  rw [← hgap]
  exact insertChunk_word hfirm

theorem closeTop_heads :
    (closeTop top topsize oldEnd g k c).head top = topsize ||| pinuseBit ∧
      (closeTop top topsize oldEnd g k c).head (top + topsize) =
        ((32 : Word) ||| pinuseBit ||| cinuseBit) &&& ~~~pinuseBit ∧
      (closeTop top topsize oldEnd g k c).head (top + topsize + 32) = fencepostHead ∧
      (closeTop top topsize oldEnd g k c).prevFoot (top + topsize) = topsize := by
  obtain ⟨hnext, hrecord, hgap, hmemNat⟩ := closeTop_words hmem hT hend hroom
  have hlarge : 16 ≤ topsize.toNat := (hT.shaped _ hmem).large
  have haddr : top.toNat % 16 = 8 := (hT.shaped _ hmem).addr
  have hmod : topsize.toNat % 16 = 0 := (hT.shaped _ hmem).size
  have hne : top ≠ top + topsize := fun heq => by
    rw [← heq] at hnext
    omega
  have hne' : top + topsize + 32 ≠ top := fun heq => by
    rw [heq] at hrecord
    omega
  have hne'' : top + topsize + 32 ≠ top + topsize := fun heq => by
    rw [heq] at hrecord
    omega
  have hword := @closeTop_word T c top topsize oldEnd k g hmem hT hend hroom hfree hclear
  have hfirst := toNat_head (p := top) (by omega)
  have hsecond := toNat_head (p := top + topsize) (by omega)
  have hthird := toNat_head (p := top + topsize + 32) (by omega)
  have hrecordHead : (((c.setSizeAndPinuseOfInuseChunk (top + topsize) 32).writeRecord
      (chunk2mem (top + topsize)) g k).fenceposts oldEnd 24 (top + topsize + 32)).head
        (top + topsize) = (32 : Word) ||| pinuseBit ||| cinuseBit := by
    refine (fenceposts_word hroom 24 (by omega) (by omega)).trans ?_
    refine (writeRecord_word (by omega) (by omega)).trans ?_
    exact (ChunkStore.setHead_head ..).trans (if_pos rfl)
  have hself := fenceposts_self (c := (c.setSizeAndPinuseOfInuseChunk (top + topsize) 32).writeRecord
    (chunk2mem (top + topsize)) g k) hroom 23 (show (top + topsize + 32).toNat < _ by omega)
  refine ⟨?_, ?_, ?_, ?_⟩
  · refine (hword (by omega) (by omega) (by omega)).trans ?_
    exact (ChunkStore.setFreeWithPinuse_head _ haddr hmod haddr).trans (if_pos rfl)
  · refine (hword (by omega) (by omega) (by omega)).trans ?_
    refine (ChunkStore.setFreeWithPinuse_head _ haddr hmod (by omega)).trans ?_
    rw [if_neg hne.symm, if_pos rfl, hrecordHead]
  · refine (hword (by omega) (by omega) (by omega)).trans ?_
    refine (ChunkStore.setFreeWithPinuse_head _ haddr hmod (by omega)).trans ?_
    rw [if_neg hne', if_neg hne'', hself]
  · exact (hword (by omega) (by omega) (by omega)).trans (ChunkStore.setFree_foot ..)

/-- The old top becomes two tiles. -/
theorem closeTop_replaces :
    Replaces c (closeTop top topsize oldEnd g k c) T ⟨top, topsize, .top⟩ oldEnd.toNat
      {⟨top, topsize, .free⟩, recordTile top topsize} := by
  obtain ⟨hnext, hrecord, hgap, -⟩ := closeTop_words hmem hT hend hroom
  obtain ⟨hhead, hhead', hfence, hfoot⟩ := closeTop_heads (g := g) (k := k) hmem hT hend
    hroom hfree hclear
  have hshaped := hT.shaped _ hmem
  have hlarge : 16 ≤ topsize.toNat := hshaped.large
  have haddr : top.toNat % 16 = 8 := hshaped.addr
  have hmod : topsize.toNat % 16 = 0 := hshaped.size
  have hshaped' : (recordTile top topsize).Shaped :=
    ⟨show (top + topsize).toNat % 16 = 8 by omega, show (32 : Word).toNat % 16 = 0 by decide,
      show 16 ≤ (32 : Word).toNat by decide, show (top + topsize).toNat + 32 < 4294967296 by omega⟩
  have hpair : ∀ n ∈ ({⟨top, topsize, .free⟩, recordTile top topsize} : Set Tile),
      n = ⟨top, topsize, .free⟩ ∨ n = recordTile top topsize := fun n hn => hn
  have hbeside : Beside (⟨top, topsize, .free⟩ : Tile).region (recordTile top topsize).region := by
    left
    change top.toNat + topsize.toNat ≤ (top + topsize).toNat
    omega
  refine Replaces.last hT hfree hmem ?_ hclear (closeTop_frame hmem hT hend hroom)
    (hT.pinuse_of_unused hmem (by simp)) ?_ ?_ ?_ ?_ ?_ ⟨_, Or.inl rfl, rfl⟩ ?_ ?_ ?_
  · change (top + topsize).toNat ≤ oldEnd.toNat
    omega
  · rw [ChunkStore.pinuse_eq, hhead, headPinuse_free]
  · rintro n (rfl | rfl)
    · exact ⟨haddr, hmod, hlarge, hshaped.below⟩
    · exact hshaped'
  · rintro n (rfl | rfl) u (rfl | rfl) hne
    · exact absurd rfl hne
    · exact hbeside
    · exact hbeside.symm
    · exact absurd rfl hne
  · rintro n (rfl | rfl)
    · exact ⟨le_refl _, show (top + topsize).toNat ≤ oldEnd.toNat by omega⟩
    · exact ⟨show top.toNat ≤ (top + topsize).toNat by omega,
        show (top + topsize + 32).toNat ≤ oldEnd.toNat by omega⟩
  · rintro n (rfl | rfl)
    · refine Tagged.free hmod hhead ?_ hfoot
      rw [ChunkStore.pinuse_eq, hhead', headPinuse_clearPinuse]
    · refine Tagged.inuse ?_ ?_ ?_
      · rw [ChunkStore.chunksize_eq, hhead']
        decide
      · rw [ChunkStore.cinuse_eq, hhead']
        decide
      · rw [ChunkStore.pinuse, hfence]
        decide
  · rintro n (rfl | rfl)
    · exact Or.inl rfl
    · exact Or.inr ⟨_, Or.inl rfl, rfl⟩
  · rintro n (rfl | rfl) hkind
    · exact Or.inl ⟨_, Or.inr rfl, rfl⟩
    · right
      change (closeTop top topsize oldEnd g k c).cinuse (top + topsize + 32) = true
      rw [ChunkStore.cinuse, hfence]
      decide
  · rintro n (rfl | rfl) u hu heq
    · rcases hpair u hu with rfl | rfl
      · have := congrArg BitVec.toNat (show top = top + topsize from heq)
        omega
      · exact Or.inr ⟨rfl, rfl⟩
    · exact Or.inl rfl

end CloseTop

end WasmCxxShim.Dlmalloc
