import WasmCxxShim.DlmallocBinMaps
import WasmCxxShim.DlmallocSplits

/-!
# Searching the bins

`dlmalloc` serves a request from the bins or from dv whenever a free chunk is large enough, and
the chunk it takes is cut down to the padded size, up to what is too small for a chunk. A large
request gets the smallest free chunk that fits it.
-/
namespace WasmCxxShim.Dlmalloc
open MachineWords AddressRegions AddressTilings BitScans LinearMemory

section Taking

variable {m m' : MallocState} {T : Set Tile} {v : Tile} {p s nb : Word}

/-- What a request gets: a chunk newly in use, of the padded size up to a rest that is too small
for a chunk. -/
structure Granted (m m' : MallocState) (T T' : Set Tile) (nb mem : Word) (t : Tile) : Prop where
  changes : Changes m m' T T' ∅ {t}
  inuse : t.kind = .inuse
  mem : mem = chunk2mem t.addr
  enough : nb.toNat ≤ t.size.toNat
  tight : t.size.toNat < nb.toNat + 16

/-- The front of the free chunk `v` serves the request. -/
structure Supplied (m : MallocState) (T : Set Tile) (nb : Word) (answer : BinAnswer) (v : Tile) :
    Prop where
  mem : v ∈ T
  free : v.kind = .free
  fits : nb.toNat ≤ v.size.toNat
  granted : ∃ T' t, t.addr = v.addr ∧
    Granted m (withChunks answer.chunks m) T T' nb answer.mem t

theorem used_free (p s : Word) :
    {t | t ∈ [(⟨p, s, .free⟩ : Tile)] ∧ t.kind = .inuse} = ∅ := by
  ext x
  simp only [Set.mem_empty_iff_false, iff_false, List.mem_singleton]
  rintro ⟨rfl, hkind⟩
  cases hkind

theorem others_one : others T [⟨p, s, .free⟩] = freeChunks T \ {(p, s)} := by
  ext x
  simp [mem_others, Tile.ext_iff, Prod.ext_iff]

/-- A free chunk is taken as it is. -/
theorem serve_whole (hT : Tiled m T) (hmem : (⟨p, s, .free⟩ : Tile) ∈ T)
    (hfits : nb.toNat ≤ s.toNat) (htight : s.toNat < nb.toNat + 16) {c : ChunkStore}
    (hre : Relinks m.chunks c) (hlinks : Links c (freeChunks T \ {(p, s)})) :
    Supplied m T nb ⟨chunk2mem p, c.setInuseAndPinuse p s⟩ ⟨p, s, .free⟩ := by
  have hshaped := hT.shaped _ hmem
  have hnext : (p + s).toNat = p.toNat + s.toNat := hshaped.toNat_next
  have hlarge : 16 ≤ s.toNat := hshaped.large
  have hmod : s.toNat % 16 = 0 := hshaped.size
  have hne : p ≠ p + s := by
    intro heq
    rw [← heq] at hnext
    omega
  have hself := c.setInuseAndPinuse_self hne
  have hend := c.setInuseAndPinuse_next hne
  have hfirm := hT.firm_border (fun _ => hT.free) hmem
  have hborder : c.head (p + s) = m.chunks.head (p + s) := hre.head hfirm
  have hroom := hshaped.room.2
  change (p + s).toNat + 4 < 4294967296 at hroom
  rw [hborder] at hend
  refine ⟨hmem, rfl, hfits, ?_⟩
  suffices hchanges : ∃ T', Changes m (withChunks (c.setInuseAndPinuse p s) m) T T' ∅
      {⟨p, s, .inuse⟩} by
    obtain ⟨T', hT'⟩ := hchanges
    exact ⟨T', ⟨p, s, .inuse⟩, rfl, hT', rfl, rfl, hfits, htight⟩
  have hframe : Frame p.toNat (p + s).toNat m.chunks (c.setInuseAndPinuse p s) :=
    (hre p.toNat (p + s).toNat).setInuseAndPinuse (le_refl _) (by omega) (le_refl _) hroom
  rw [← used_free p s]
  refine Changes.taken hT (.one hmem) hframe ?_ ?_ (by simp) rfl ?_ ?_ ?_ ?_
  · rw [hT.pinuse_of_unused hmem (by simp), ChunkStore.pinuse_eq, hself, headPinuse_inuse]
  · change (c.setInuseAndPinuse p s).chunksize (p + s) = _ ∧
      (c.setInuseAndPinuse p s).cinuse (p + s) = _
    rw [ChunkStore.chunksize_eq, ChunkStore.cinuse_eq, hend, headSize_setPinuse,
      headCinuse_setPinuse]
    exact ⟨rfl, rfl⟩
  · rw [ChunkStore.chunksize_eq, hself, headSize_inuse hmod]
  · rw [ChunkStore.cinuse_eq, hself, headCinuse_inuse]
  · change (c.setInuseAndPinuse p s).pinuse (p + s) = true
    rw [ChunkStore.pinuse_eq, hend, headPinuse_setPinuse]
  · rw [others_one]
    exact hlinks.congr rfl rfl rfl

/-- A free chunk is split, and the rest linked. -/
theorem serve_front (hT : Tiled m T) (hmem : (⟨p, s, .free⟩ : Tile) ∈ T) {c₀ c : ChunkStore}
    (hparts : Parts ⟨p, s, .free⟩ ⟨p, s, .free⟩ nb (s - nb)) (hre : Relinks m.chunks c₀)
    (hword : ∀ x, ¬ c.Loose x → c.word x = ((c₀.setSizeAndPinuseOfInuseChunk p
      nb).setSizeAndPinuseOfFreeChunk (p + nb) (s - nb)).word x)
    (hlinks : Links c (insert (p + nb, s - nb) (freeChunks T \ {(p, s)}))) :
    Supplied m T nb ⟨chunk2mem p, c⟩ ⟨p, s, .free⟩ := by
  have hnext : (p + s).toNat = p.toNat + s.toNat := (hT.shaped _ hmem).toNat_next
  have htotal : (p + s).toNat = p.toNat + nb.toNat + (s - nb).toNat := hparts.total
  have hstart : (p + nb).toNat = p.toNat + nb.toNat := hparts.start
  have hfinish : p + nb + (s - nb) = p + s := hparts.finish
  have hne : p ≠ p + nb := hparts.first_ne.symm
  have hlast : p + s ≠ p := hparts.last_ne
  have hlast' : p + s ≠ p + nb := hparts.last_ne_rest
  have hpos := hparts.back.large
  have hfront := hparts.front.large
  have haddr : p.toNat % 16 = 8 := (hT.shaped _ hmem).addr
  have hroom := (hT.shaped _ hmem).room.2
  change (p + s).toNat + 4 < 4294967296 at hroom
  have hnbmod := hparts.front.mod
  have hrestmod := hparts.back.mod
  have hmid : (p + nb).toNat % 16 = 8 := by omega
  have hlastmod : (p + s).toNat % 16 = 8 := (hT.shaped _ hmem).next_mod
  have hrestnext : (p + nb + (s - nb)).toNat = (p + s).toNat := congrArg BitVec.toNat hfinish
  have hroom' : (p + nb).toNat < (p + nb + (s - nb)).toNat := by omega
  have hlinks' : Links c (insert (p + nb, s - nb) (others T [⟨p, s, .free⟩])) := by
    rw [others_one]
    exact hlinks
  -- No link is written before the rest or after it.
  have hfirm : ∀ x : Word, p.toNat ≤ x.toNat ∧ x.toNat ≤ (p + s).toNat + 4 →
      x.toNat < (p + nb).toNat + 8 ∨ (p + nb + (s - nb)).toNat ≤ x.toNat → ¬ c.Loose x :=
    fun x hx hout => hT.firm_insert (.one hmem) hlinks' hpos hroom' (Or.inr hx) hout
  have hheads : ∀ q : Word, p.toNat ≤ q.toNat → q.toNat ≤ (p + s).toNat →
      q.toNat ≤ (p + nb).toNat ∨ (p + s).toNat ≤ q.toNat → q.toNat % 16 = 8 → c.head q =
        if q = p + nb then (s - nb) ||| pinuseBit
        else if q = p then nb ||| pinuseBit ||| cinuseBit else c₀.head q := by
    intro q hlow hhigh hout hmod
    have hq := toNat_head (p := q) (by omega)
    refine (hword _ (hfirm _ (by omega) (by omega))).trans ?_
    refine (ChunkStore.setFree_head _ hmid hrestmod hmod).trans ?_
    rw [ChunkStore.setSizeAndPinuseOfInuseChunk, ChunkStore.setHead_head]
  have hself : c.head p = nb ||| pinuseBit ||| cinuseBit := by
    rw [hheads p (le_refl _) (by omega) (by omega) haddr, if_neg hne, if_pos rfl]
  have hrest : c.head (p + nb) = (s - nb) ||| pinuseBit := by
    rw [hheads _ (by omega) (by omega) (by omega) hmid, if_pos rfl]
  have hend : c.head (p + s) = m.chunks.head (p + s) := by
    rw [hheads _ (by omega) (le_refl _) (by omega) hlastmod, if_neg hlast', if_neg hlast]
    have hborder := hT.firm_border (fun _ => hT.free) hmem
    exact hre.head hborder
  have hfoot : c.prevFoot (p + s) = s - nb := by
    refine (hword _ (hfirm _ (by omega) (by omega))).trans ?_
    rw [← hfinish]
    exact ChunkStore.setFree_foot ..
  refine ⟨hmem, rfl, show nb.toNat ≤ s.toNat by omega, ?_⟩
  suffices hchanges : ∃ T', Changes m (withChunks c m) T T' ∅ {⟨p, nb, .inuse⟩} by
    obtain ⟨T', hT'⟩ := hchanges
    exact ⟨T', ⟨p, nb, .inuse⟩, rfl, hT', rfl, rfl, le_refl _, Nat.lt_add_of_pos_right (by decide)⟩
  rw [← used_free p s]
  refine Changes.split hT (.one hmem) ?_ ?_ ?_ hparts (by simp) rfl ?_ ?_ hrest ?_ hfoot hlinks'
  · have hframe : Frame p.toNat (p + s).toNat m.chunks ((c₀.setSizeAndPinuseOfInuseChunk p
        nb).setSizeAndPinuseOfFreeChunk (p + nb) (s - nb)) :=
      ((hre p.toNat (p + s).toNat).setHead _ (le_refl _) (by omega) (by omega)).setFree (by omega)
        (by omega) (by omega) (by omega)
    exact hT.frame_insert (.one hmem) hlinks' hpos hroom' hframe hword (show p.toNat ≤ (p + nb).toNat
      by omega) hrestnext.le
  · rw [hT.pinuse_of_unused hmem (by simp), ChunkStore.pinuse_eq, hself, headPinuse_inuse]
  · change c.chunksize (p + s) = _ ∧ c.cinuse (p + s) = _
    rw [ChunkStore.chunksize_eq, ChunkStore.cinuse_eq, hend]
    exact ⟨rfl, rfl⟩
  · rw [ChunkStore.chunksize_eq, hself, headSize_inuse hparts.front.mod]
  · rw [ChunkStore.cinuse_eq, hself, headCinuse_inuse]
  · change c.pinuse (p + s) = false
    rw [ChunkStore.pinuse_eq, hend]
    exact (hT.tagged _ hmem).border

end Taking

/-- A way to link the remainder of a chunk, to a bin or as the new dv, with the checks that go with
it. -/
structure Linking (m : MallocState) (checked : Word → Word → ChunkStore → Except Halt ChunkStore)
    (link : Word → Word → ChunkStore → ChunkStore) : Prop where
  word : ∀ {p s c x}, ¬ (link p s c).Loose x → (link p s c).word x = c.word x
  links : ∀ {p s c F}, Links c F → s ≠ 0 → (p, s) ∉ F → Links (link p s c) (insert (p, s) F)
  ok : ∀ {p s c}, okBins m c = true → checked p s c = .ok (link p s c)

section Answers

variable {m : MallocState} {T : Set Tile} {p s nb : Word}

theorem linking_insertChunk : Linking m (insertChunk m) ChunkStore.insertChunk :=
  ⟨insertChunk_word, fun h _ hmem => h.insert hmem, insertChunk_ok⟩

theorem linking_replaceDv : Linking m (replaceDv m) ChunkStore.replaceDv :=
  ⟨replaceDv_word, fun h hs hmem => h.replaceDv hs hmem, replaceDv_ok⟩

theorem Linking.splitChunk {checked : Word → Word → ChunkStore → Except Halt ChunkStore}
    {link : Word → Word → ChunkStore → ChunkStore} (hlink : Linking m checked link)
    {rsize : Word} {c : ChunkStore} (hok : okBins m c = true) :
    splitChunk checked p nb rsize c = .ok (splitChunk link p nb rsize c) := by
  have hchecked : okBins m ((c.setSizeAndPinuseOfInuseChunk p nb).setSizeAndPinuseOfFreeChunk
      (p + nb) rsize) = true := hok
  exact hlink.ok hchecked

theorem serve_binned (hT : Tiled m T) (hbinned : (p, s) ∈ m.chunks.binned)
    (hfits : nb.toNat ≤ s.toNat) (htight : s.toNat < nb.toNat + 16) :
    Supplied m T nb ⟨chunk2mem p, (m.chunks.unlinkChunk p s).setInuseAndPinuse p s⟩
      ⟨p, s, .free⟩ :=
  serve_whole hT (hT.links.mem_of_binned hbinned) hfits htight
    (Relinks.refl.unlinkChunk p s) (hT.links.unlink hbinned)

theorem serve_split (hT : Tiled m T) (hbinned : (p, s) ∈ m.chunks.binned) (hnb : Sized nb)
    (hroom : nb.toNat + 16 ≤ s.toNat) {link : Word → Word → ChunkStore → ChunkStore}
    {checked : Word → Word → ChunkStore → Except Halt ChunkStore}
    (hlink : Linking m checked link) :
    Supplied m T nb ⟨chunk2mem p, splitChunk link p nb (s - nb) (m.chunks.unlinkChunk p s)⟩
      ⟨p, s, .free⟩ := by
  have hmem : (⟨p, s, .free⟩ : Tile) ∈ T := hT.links.mem_of_binned hbinned
  have hparts := (Run.one hmem).parts hT.toTags rfl hnb hroom
  have hrest : (p + nb, s - nb) ∉ freeChunks T \ {(p, s)} := by
    rw [← others_one]
    exact hparts.rest_unlinked (.one hmem) hT.toTags _
  exact serve_front hT hmem hparts (Relinks.refl.unlinkChunk p s) (fun _ hx => hlink.word hx)
    (hlink.links ((hT.links.unlink hbinned).congr rfl rfl rfl) hparts.rest_ne_zero hrest)

/-- The front and the rest of a chunk are written in either order. -/
theorem setHead_setFree_word {c : ChunkStore} {r v : Word} (hne : p ≠ r) (hp : p.toNat % 16 = 8)
    (hr : (r + s).toNat % 16 = 8) : ((c.setSizeAndPinuseOfFreeChunk r s).setHead p v).word =
      ((c.setHead p v).setSizeAndPinuseOfFreeChunk r s).word := by
  have hhead : p + sizeTSize ≠ r + sizeTSize := fun heq => hne (by simpa using heq)
  change Function.update (Function.update (Function.update c.word _ _) _ _) _ _ = _
  rw [Function.update_comm (head_ne_foot hp hr).symm, Function.update_comm hhead.symm]
  rfl

/-- dv serves what fits it. -/
theorem serve_takeDv (hT : Tiled m T) (hnb : Sized nb) (hfits : nb ≤ m.chunks.dvsize) :
    ∃ answer, takeDv nb m.chunks = some answer ∧
      Supplied m T nb answer ⟨m.chunks.dv, m.chunks.dvsize, .free⟩ := by
  have hpos := hnb.large
  have hle := word_le.mp hfits
  have hdvsize : m.chunks.dvsize ≠ 0 := by
    rw [word_ne_zero]
    omega
  have hmem : (⟨m.chunks.dv, m.chunks.dvsize, .free⟩ : Tile) ∈ T := hT.links.dv_mem hdvsize
  have hrsize : (m.chunks.dvsize - nb).toNat = m.chunks.dvsize.toNat - nb.toNat :=
    BitVec.toNat_sub_of_le hfits
  have hmin : minChunkSize.toNat = 16 := by decide
  unfold takeDv
  rw [if_pos hfits]
  dsimp only
  split_ifs with hsplit
  · rw [word_le, hrsize, hmin] at hsplit
    have hparts := (Run.one hmem).parts hT.toTags rfl hnb (by dsimp only; omega)
    have hunlinked : (m.chunks.dv + nb, m.chunks.dvsize - nb) ∉ m.chunks.binned := by
      intro hx
      exact hparts.rest_unlinked (.one hmem) hT.toTags _ ⟨hT.links.mem_of_binned hx, fun heq =>
        hparts.first_ne (congrArg Tile.addr (List.mem_singleton.mp heq))⟩
    refine ⟨_, rfl, serve_front hT hmem hparts Relinks.refl (fun x _ => ?_)
      ((hT.links.moveDv hdvsize hparts.rest_ne_zero hunlinked).congr rfl rfl rfl)⟩
    exact congrFun (setHead_setFree_word hparts.first_ne.symm (hT.shaped _ hmem).addr
      (by rw [hparts.finish]; exact (hT.shaped _ hmem).next_mod)) x
  · rw [word_le, hrsize, hmin] at hsplit
    exact ⟨_, rfl, serve_whole hT hmem hle (by omega) Relinks.refl.clearDv
      (hT.links.clearDv hdvsize)⟩

theorem Tiled.binned_size (hT : Tiled m T) {x : Word × Word} (hx : x ∈ m.chunks.binned) :
    x.2.toNat % 16 = 0 ∧ 16 ≤ x.2.toNat :=
  have hshaped := hT.shaped _ (hT.links.mem_of_binned hx)
  ⟨hshaped.size, hshaped.large⟩

/-- The end of the tree searches. -/
theorem serve_takeFit (hT : Tiled m T) (hbinned : (p, s) ∈ m.chunks.binned) (hnb : Sized nb)
    (hfits : nb.toNat ≤ s.toNat) {link : Word → Word → ChunkStore → ChunkStore}
    {checked : Word → Word → ChunkStore → Except Halt ChunkStore}
    (hlink : Linking m checked link) :
    ∃ answer, takeFit checked nb p s m = .ok (some answer) ∧ Supplied m T nb answer ⟨p, s, .free⟩ := by
  have hmem : (⟨p, s, .free⟩ : Tile) ∈ T := hT.links.mem_of_binned hbinned
  have hbelow : p.toNat + s.toNat < 4294967296 := (hT.shaped _ hmem).below
  have hpos := hnb.large
  have hstart : (p + nb).toNat = p.toNat + nb.toNat := BitVec.toNat_add_of_lt (by omega)
  have hrsize : (s - nb).toNat = s.toNat - nb.toNat := BitVec.toNat_sub_of_le (word_le.mpr hfits)
  have hmin : minChunkSize.toNat = 16 := by decide
  have hok : (okAddress m p && okNext p (p + nb)) = true := by
    rw [Bool.and_eq_true, okAddress, okNext, decide_eq_true_eq, decide_eq_true_eq, word_le, word_lt]
    exact ⟨hT.least_le hmem, by omega⟩
  unfold takeFit
  dsimp only
  rw [if_pos hok, unlinkChunk_ok hT.okBinned hbinned]
  dsimp only [bind, Except.bind]
  split_ifs with hsplit
  · rw [word_lt, hrsize, hmin] at hsplit
    rw [BitVec.sub_add_cancel]
    exact ⟨_, rfl, serve_binned hT hbinned hfits (by omega)⟩
  · rw [word_lt, hrsize, hmin] at hsplit
    rw [hlink.splitChunk (okBins_unlink hT.okBinned)]
    exact ⟨_, rfl, serve_split hT hbinned hnb (by omega) hlink⟩

/-- No smaller free chunk is large enough. -/
def Best (T : Set Tile) (nb : Word) (v : Tile) : Prop :=
  ∀ x ∈ freeChunks T, nb.toNat ≤ x.2.toNat → v.size.toNat ≤ x.2.toNat

/-- The bit of a small bin, where all sizes are multiples of 16. -/
theorem Tiled.smallmap_size (hT : Tiled m T) (j : ℕ) : m.chunks.smallmap.getLsbD j = true ↔
    ∃ x ∈ m.chunks.binned, x.2.toNat = 8 * j ∧ j < 32 := by
  rw [smallmap_bit]
  constructor
  · rintro ⟨x, hx, hsmall, hj⟩
    have hlt := (isSmall_iff _).mp hsmall
    have hmod := (hT.binned_size hx).1
    rw [toNat_smallIndex] at hj
    exact ⟨x, hx, by omega, by omega⟩
  · rintro ⟨x, hx, hsize, hj⟩
    refine ⟨x, hx, (isSmall_iff _).mpr (by omega), ?_⟩
    rw [toNat_smallIndex]
    omega

theorem getLsbD_shifted (map idx : Word) (j : ℕ) :
    (map >>> idx).getLsbD j = map.getLsbD (idx.toNat + j) := by
  rw [BitVec.ushiftRight_eq', BitVec.getLsbD_ushiftRight]

/-- No chunk of a small bin fits when the bits from an index on are clear. -/
theorem Tiled.small_lt (hT : Tiled m T) (hbits : m.chunks.smallmap >>> smallIndex nb = 0)
    (hmod : nb.toNat % 16 = 0) {x : Word × Word} (hx : x ∈ m.chunks.binned)
    (hsmall : isSmall x.2 = true) : x.2.toNat < nb.toNat := by
  by_contra hge
  have hlt := (isSmall_iff x.2).mp hsmall
  have hsize := (hT.binned_size hx).1
  have hbit := (hT.smallmap_size (x.2.toNat / 8)).mpr ⟨x, hx, by omega, by omega⟩
  have hzero := getLsbD_shifted m.chunks.smallmap (smallIndex nb) (x.2.toNat / 8 - nb.toNat / 8)
  have heq : nb.toNat / 8 + (x.2.toNat / 8 - nb.toNat / 8) = x.2.toNat / 8 := by omega
  rw [hbits, toNat_smallIndex, heq, hbit] at hzero
  simp at hzero

/-- A small request takes a chunk of its size if there is one, else dv if that fits, else the
smallest chunk that does. -/
theorem smallBins_spec (hT : Tiled m T) (hnb : Sized nb) (hsmall : nb.toNat ≤ 240) :
    (smallBins nb m = .ok none ∧ ∀ x ∈ freeChunks T, x.2.toNat < nb.toNat) ∨
      ∃ answer v, smallBins nb m = .ok (some answer) ∧ Supplied m T nb answer v ∧
        (Best T nb v ∨ v.addr = m.chunks.dv) := by
  have hmod := hnb.mod
  have hidx : (smallIndex nb).toNat = nb.toNat / 8 := toNat_smallIndex nb
  unfold smallBins
  dsimp only
  split_ifs with hthree hdv hbits htree
  · -- The bin of the size itself is not empty: the next bin holds no chunks of any size.
    have hbit : (m.chunks.smallmap >>> smallIndex nb).getLsbD 0 = true := by
      by_contra hzero
      refine hthree ((and_three_eq_zero _).mpr ⟨Bool.not_eq_true _ ▸ hzero, ?_⟩)
      rw [getLsbD_shifted]
      by_contra hone
      obtain ⟨x, hx, hsize, -⟩ := (hT.smallmap_size _).mp (Bool.not_eq_false _ ▸ hone)
      have := (hT.binned_size hx).1
      omega
    rw [adjust_eq hbit]
    rw [getLsbD_shifted, Nat.add_zero] at hbit
    obtain ⟨p, hfirst, hmem⟩ := firstSmall_of_bit (fun x hx => (hT.binned_size hx).1) hbit
    rw [smallIndex2size_smallIndex hmod] at hmem
    refine Or.inr ⟨_, _, ?_, serve_binned hT hmem (le_refl _) (by omega), Or.inl fun x _ hx => hx⟩
    rw [exactSmall, hfirst]
    dsimp only
    rw [smallIndex2size_smallIndex hmod, unlinkChunk_ok hT.okBinned hmem]
    rfl
  · have hzero := (and_three_eq_zero _).mp (not_not.mp hthree)
    rw [getLsbD_shifted, Nat.add_zero] at hzero
    generalize hleft : ((m.chunks.smallmap >>> smallIndex nb) <<< smallIndex nb) &&&
      leftBits (idx2bit (smallIndex nb)) = left
    have hbit : ∀ j, left.getLsbD j = true ↔
        m.chunks.smallmap.getLsbD j = true ∧ nb.toNat / 8 < j := by
      intro j
      rw [← hleft, getLsbD_leftbits (by omega), hidx]
    have hne : left ≠ 0 := by
      obtain ⟨k, hk⟩ := exists_getLsbD hbits
      rw [getLsbD_shifted, hidx] at hk
      intro hno
      have hpast : nb.toNat / 8 < nb.toNat / 8 + k := by
        rcases Nat.eq_zero_or_pos k with rfl | hk'
        · rw [← hidx, Nat.add_zero, hzero.1] at hk
          cases hk
        · omega
      have := (hbit _).mpr ⟨hk, hpast⟩
      rw [hno] at this
      simp at this
    have hlowest : IsLowest left (computeBit2idx (leastBit left)).toNat := isLowest_ctz hne
    generalize computeBit2idx (leastBit left) = i at hlowest
    obtain ⟨hmap, hpast⟩ := (hbit _).mp hlowest.1
    obtain ⟨p, hfirst, hmem⟩ := firstSmall_of_bit (fun x hx => (hT.binned_size hx).1) hmap
    have hsize : (smallIndex2size i).toNat = 8 * i.toNat := by
      have hlt := hlowest.lt
      rw [smallIndex2size, BitVec.shiftLeft_eq', BitVec.toNat_shiftLeft, Nat.shiftLeft_eq]
      change i.toNat * 2 ^ 3 % 2 ^ 32 = _
      omega
    have hmod' : (smallIndex2size i).toNat % 16 = 0 := (hT.binned_size hmem).1
    refine Or.inr ⟨_, _, ?_, serve_split hT hmem hnb (by omega) linking_replaceDv,
      Or.inl fun x hx hfits => ?_⟩
    · rw [splitSmall, hfirst]
      dsimp only
      rw [unlinkChunk_ok hT.okBinned hmem]
      dsimp only [bind, Except.bind]
      rw [linking_replaceDv.splitChunk (okBins_unlink hT.okBinned)]
      rfl
    · dsimp only
      rw [hsize]
      rcases (hT.links.free_iff x).mp hx with hx | ⟨rfl, -⟩
      · by_contra hless
        have hx' := (hT.smallmap_size (x.2.toNat / 8)).mpr
          ⟨x, hx, by have := (hT.binned_size hx).1; omega, by have := hlowest.lt; omega⟩
        have hge : nb.toNat / 8 < x.2.toNat / 8 := by
          by_contra hle
          have heq : x.2.toNat / 8 = (smallIndex nb).toNat := by omega
          rw [heq, hzero.1] at hx'
          cases hx'
        have := hlowest.le ((hbit _).mpr ⟨hx', hge⟩)
        omega
      · rw [word_lt] at hdv
        dsimp only at hfits
        omega
  · -- No chunk of a small bin fits, and every chunk of a tree bin does.
    have hlarge : ∃ x ∈ m.chunks.binned, isSmall x.2 = false := by
      by_contra hall
      refine htree (treemap_eq_zero.mpr fun x hx => ?_)
      by_contra hno
      exact hall ⟨x, hx, Bool.not_eq_true _ ▸ hno⟩
    have hnone : ∀ x ∈ m.chunks.binned, isSmall x.2 = true → x.2.toNat < nb.toNat :=
      fun x hx => hT.small_lt (not_not.mp hbits) hmod hx
    cases hbest : m.chunks.bestFit nb with
    | none =>
      obtain ⟨x, hx, hxlarge⟩ := hlarge
      have hx256 := mt (isSmall_iff x.2).mpr (Bool.not_eq_true _ ▸ hxlarge)
      rcases bestFit_none hbest x hx with h | h
      · rw [hxlarge] at h
        cases h
      · rw [word_lt] at h
        omega
    | some y =>
      obtain ⟨hmem, -, hfits, hleast⟩ := bestFit_some hbest
      obtain ⟨answer, hrun, hserved⟩ := serve_takeFit hT hmem hnb (word_le.mp hfits)
        linking_replaceDv
      refine Or.inr ⟨answer, _, ?_, hserved, Or.inl fun x hx hxfits => ?_⟩
      · rw [tmallocSmall, hbest]
        exact hrun
      · rcases (hT.links.free_iff x).mp hx with hx | ⟨rfl, -⟩
        · rcases hleast x hx with h | h | h
          · have := hnone x hx h
            omega
          · rw [word_lt] at h
            omega
          · exact h
        · rw [word_lt] at hdv
          dsimp only at hxfits
          omega
  · refine Or.inl ⟨rfl, fun x hx => ?_⟩
    rcases (hT.links.free_iff x).mp hx with hx | ⟨rfl, -⟩
    · exact hT.small_lt (not_not.mp hbits) hmod hx
        (treemap_eq_zero.mp (not_not.mp htree) x hx)
    · exact hdv
  · obtain ⟨answer, hrun, hserved⟩ := serve_takeDv hT hnb (BitVec.not_lt.mp hdv)
    exact Or.inr ⟨answer, _, congrArg Except.ok hrun, hserved, Or.inr rfl⟩

/-- A larger request takes the smallest chunk that fits, dv among them. -/
theorem largeBins_spec (hT : Tiled m T) (hnb : Sized nb) (hlarge : 256 ≤ nb.toNat) :
    (largeBins nb m = .ok none ∧ ∀ x ∈ freeChunks T, x.2.toNat < nb.toNat) ∨
      ∃ answer v, largeBins nb m = .ok (some answer) ∧ Supplied m T nb answer v ∧ Best T nb v := by
  have hdv : m.chunks.dvsize < nb → takeDv nb m.chunks = none := fun hless =>
    if_neg (BitVec.not_le.mpr hless)
  have hfitted : ∀ y, m.chunks.bestFit nb = some y → m.chunks.dvsize < nb ∨ y.2 < m.chunks.dvsize →
      ∃ answer v, largeBins nb m = .ok (some answer) ∧ Supplied m T nb answer v ∧ Best T nb v := by
    intro y hbest hbetter
    obtain ⟨hmem, hylarge, hfits, hleast⟩ := bestFit_some hbest
    have htree : m.chunks.treemap ≠ 0 := fun hzero => by
      rw [treemap_eq_zero.mp hzero y hmem] at hylarge
      cases hylarge
    obtain ⟨answer, hrun, hserved⟩ := serve_takeFit hT hmem hnb (word_le.mp hfits)
      linking_insertChunk
    refine ⟨answer, _, ?_, hserved, fun x hx hxfits => ?_⟩
    · have hless : y.2 - nb < m.chunks.dvsize - nb := by
        rw [word_le] at hfits
        simp only [word_lt] at hbetter ⊢
        bv_omega
      rw [largeBins, if_pos htree, tmallocLarge, hbest]
      dsimp only
      rw [if_pos hless, hrun]
      rfl
    · rcases (hT.links.free_iff x).mp hx with hx | ⟨rfl, -⟩
      · rcases hleast x hx with h | h | h
        · have := (isSmall_iff x.2).mp h
          omega
        · rw [word_lt] at h
          omega
        · exact h
      · rcases hbetter with h | h
        · rw [word_lt] at h
          dsimp only at hxfits
          omega
        · exact h.le
  have hunfitted : (∀ x ∈ m.chunks.binned, nb.toNat ≤ x.2.toNat →
      m.chunks.dvsize.toNat ≤ x.2.toNat) → nb ≤ m.chunks.dvsize →
      largeBins nb m = .ok (takeDv nb m.chunks) →
      ∃ answer v, largeBins nb m = .ok (some answer) ∧ Supplied m T nb answer v ∧ Best T nb v := by
    intro hleast hfits hrun
    obtain ⟨answer, htake, hserved⟩ := serve_takeDv hT hnb hfits
    refine ⟨answer, _, htake ▸ hrun, hserved, fun x hx hxfits => ?_⟩
    rcases (hT.links.free_iff x).mp hx with hx | ⟨rfl, -⟩
    · exact hleast x hx hxfits
    · exact le_refl _
  have hskip : (∀ y, m.chunks.bestFit nb = some y → m.chunks.dvsize ≤ y.2 ∧ nb ≤ m.chunks.dvsize) →
      largeBins nb m = .ok (takeDv nb m.chunks) := by
    intro hdvbest
    unfold largeBins tmallocLarge
    split_ifs with htree
    · cases hbest : m.chunks.bestFit nb with
      | none => rfl
      | some y =>
        obtain ⟨hle, hfits⟩ := hdvbest y hbest
        have hno : ¬ y.2 - nb < m.chunks.dvsize - nb := by
          rw [word_le] at hle hfits
          rw [word_lt]
          bv_omega
        dsimp only
        rw [if_neg hno]
        rfl
    · rfl
  cases hbest : m.chunks.bestFit nb with
  | none =>
    have hbinned : ∀ x ∈ m.chunks.binned, x.2.toNat < nb.toNat := by
      intro x hx
      rcases bestFit_none hbest x hx with h | h
      · have := (isSmall_iff x.2).mp h
        omega
      · exact h
    have hrun := hskip fun y hy => by
      rw [hbest] at hy
      cases hy
    by_cases hless : m.chunks.dvsize < nb
    · refine Or.inl ⟨hdv hless ▸ hrun, fun x hx => ?_⟩
      rcases (hT.links.free_iff x).mp hx with hx | ⟨rfl, -⟩
      · exact hbinned x hx
      · exact hless
    · refine Or.inr (hunfitted (fun x hx hfits => ?_) (BitVec.not_lt.mp hless) hrun)
      have := hbinned x hx
      omega
  | some y =>
    by_cases hbetter : m.chunks.dvsize < nb ∨ y.2 < m.chunks.dvsize
    · exact Or.inr (hfitted y hbest hbetter)
    · rw [not_or, BitVec.not_lt, BitVec.not_lt] at hbetter
      refine Or.inr (hunfitted (fun x hx hfits => ?_) hbetter.1 (hskip fun z hz => ?_))
      · rcases (bestFit_some hbest).2.2.2 x hx with h | h | h
        · have := (isSmall_iff x.2).mp h
          omega
        · rw [word_lt] at h
          omega
        · exact (word_le.mp hbetter.2).trans h
      · rw [hbest] at hz
        cases hz
        exact hbetter.symm

theorem sized_request2size {bytes : Word} (h : bytes.toNat < 4294967232) :
    Sized (request2size bytes) ∧ bytes.toNat + 4 ≤ (request2size bytes).toNat ∧
      (request2size bytes).toNat ≤ bytes.toNat + 19 := by
  have hmod := request2size_mod bytes
  have hmin : minRequest.toNat = 11 := by decide
  unfold request2size at hmod ⊢
  split_ifs with hless
  · rw [word_lt, hmin] at hless
    rw [minChunkSize_eq]
    exact ⟨⟨rfl, le_refl _⟩, show bytes.toNat + 4 ≤ 16 by omega, show 16 ≤ bytes.toNat + 19 by omega⟩
  · rw [word_lt, hmin] at hless
    have hpad := toNat_padRequest bytes
    exact ⟨⟨by omega, by omega⟩, by omega, by omega⟩

/-- The padded size of a request is a chunk size, or no chunk is that large. -/
theorem paddedSize_cases (bytes : Word) :
    bytes ≤ maxSmallRequest ∧ Sized (paddedSize bytes) ∧ (paddedSize bytes).toNat ≤ 240 ∨
      maxSmallRequest < bytes ∧ bytes < maxRequest ∧ Sized (paddedSize bytes) ∧
        256 ≤ (paddedSize bytes).toNat ∨
      maxSmallRequest < bytes ∧ maxRequest ≤ bytes ∧ (paddedSize bytes).toNat = 4294967295 := by
  have hsmall : maxSmallRequest.toNat = 236 := by decide
  have hhuge : maxRequest.toNat = 4294967232 := by decide
  unfold paddedSize
  split_ifs with hle hge
  · rw [word_le, hsmall] at hle
    obtain ⟨hsized, -, hpad⟩ := sized_request2size (show bytes.toNat < 4294967232 by omega)
    have := hsized.mod
    exact Or.inl ⟨word_le.mpr (hsmall ▸ hle), hsized, by omega⟩
  · exact Or.inr (Or.inr ⟨BitVec.not_le.mp hle, hge, by decide⟩)
  · rw [word_le, hsmall] at hle
    rw [word_le, hhuge] at hge
    have hpad := toNat_padRequest bytes
    exact Or.inr (Or.inl ⟨word_lt.mpr (by omega), word_lt.mpr (by omega), ⟨by omega, by omega⟩,
      by omega⟩)

/-- `dlmalloc` asks the system only when no free chunk is large enough. What it takes from the bins
and dv fits tightly, and only small requests that dv can serve may take a larger chunk than
necessary. -/
theorem searchBins_spec (hT : Tiled m T) (bytes : Word) :
    (searchBins bytes m = .ok none ∧ ∀ x ∈ freeChunks T, x.2.toNat < (paddedSize bytes).toNat) ∨
      ∃ answer v, searchBins bytes m = .ok (some answer) ∧ Supplied m T (paddedSize bytes) answer v ∧
        (Best T (paddedSize bytes) v ∨ bytes ≤ maxSmallRequest ∧ v.addr = m.chunks.dv) := by
  rcases paddedSize_cases bytes with ⟨hsmall, hnb, hle⟩ | ⟨hlarge, hlt, hnb, hge⟩ |
    ⟨hlarge, hhuge, hnb⟩
  · rw [searchBins, if_pos hsmall]
    rcases smallBins_spec hT hnb hle with hnone | ⟨answer, v, hrun, hserved, hbest | hdv⟩
    · exact Or.inl hnone
    · exact Or.inr ⟨answer, v, hrun, hserved, Or.inl hbest⟩
    · exact Or.inr ⟨answer, v, hrun, hserved, Or.inr ⟨hsmall, hdv⟩⟩
  · rw [searchBins, if_neg (BitVec.not_le.mpr hlarge), if_neg (BitVec.not_le.mpr hlt)]
    rcases largeBins_spec hT hnb hge with hnone | ⟨answer, v, hrun, hserved, hbest⟩
    · exact Or.inl hnone
    · exact Or.inr ⟨answer, v, hrun, hserved, Or.inl hbest⟩
  · -- Chunk sizes are multiples of 16, and the request is not.
    have hall : ∀ x ∈ freeChunks T, x.2.toNat < (paddedSize bytes).toNat := by
      intro x hx
      have hmod : x.2.toNat % 16 = 0 := (hT.shaped _ hx).size
      have := x.2.isLt
      omega
    refine Or.inl ⟨?_, hall⟩
    rw [searchBins, if_neg (BitVec.not_le.mpr hlarge), if_pos hhuge]
    have hdv : ¬ paddedSize bytes ≤ m.chunks.dvsize := by
      intro hle
      rw [word_le] at hle
      by_cases hzero : m.chunks.dvsize = 0
      · rw [hzero, hnb] at hle
        simp at hle
      · have := hall _ (hT.links.dv_mem hzero)
        dsimp only at this
        omega
    rw [takeDv, if_neg hdv]

end Answers

end WasmCxxShim.Dlmalloc
