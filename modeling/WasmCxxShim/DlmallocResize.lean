import WasmCxxShim.DlmallocSplits

/-!
# Resizing chunks in place

`try_realloc_chunk` shrinks a chunk, or extends it into the free space after it. In a tiled heap
no check fails, the chunk stays where it is, and what its user wrote to it stays as well.
-/
namespace WasmCxxShim.Dlmalloc
open MachineWords HaltingPrograms AddressRegions AddressTilings LinearMemory

variable {m m' : MallocState} {T : Set Tile} {l t u v : Tile} {R : List Tile} {s nb rest : Word}
  {c : ChunkStore}

/-- A request is split off top. -/
theorem Tiled.splitTop (hT : Tiled m T) (hinit : isInitialized m = true) (hnb : Sized nb)
    (hlt : nb < m.topsize) :
    ∃ T', Changes m (splitTop nb m) T T' ∅ {⟨m.top, nb, .inuse⟩} := by
  have hmem := hT.top_mem hinit
  have hshaped := hT.shaped _ hmem
  have hmod : m.topsize.toNat % 16 = 0 := hshaped.size
  have hnbmod := hnb.mod
  have hnext : (m.top + m.topsize).toNat = m.top.toNat + m.topsize.toNat := hshaped.toNat_next
  rw [word_lt] at hlt
  have hroom := hshaped.room.2
  change (m.top + m.topsize).toNat + 4 < 4294967296 at hroom
  have hparts := (Run.one hmem).parts hT.toTags rfl hnb (by dsimp only; omega)
  have hne : m.top ≠ m.top + nb := hparts.first_ne.symm
  have hlast : m.top + m.topsize ≠ m.top := hparts.last_ne
  have hlast' : m.top + m.topsize ≠ m.top + nb := hparts.last_ne_rest
  have hstart : (m.top + nb).toNat = m.top.toNat + nb.toNat := hparts.start
  generalize hc : (m.chunks.setHead (m.top + nb)
    ((m.topsize - nb) ||| pinuseBit)).setSizeAndPinuseOfInuseChunk m.top nb = c'
  have hself : c'.head m.top = nb ||| pinuseBit ||| cinuseBit := by
    rw [← hc]
    simp [ChunkStore.setSizeAndPinuseOfInuseChunk]
  have hend : c'.head (m.top + m.topsize) = m.chunks.head (m.top + m.topsize) := by
    rw [← hc]
    simp [ChunkStore.setSizeAndPinuseOfInuseChunk, hlast, hlast']
  have hgone : {t | t ∈ [(⟨m.top, m.topsize, .top⟩ : Tile)] ∧ t.kind = .inuse} = ∅ := by
    ext x
    simp only [Set.mem_empty_iff_false, iff_false, List.mem_singleton]
    rintro ⟨rfl, hkind⟩
    cases hkind
  have hothers : others T [⟨m.top, m.topsize, .top⟩] = freeChunks T := by
    ext x
    simp [mem_others, Tile.ext_iff]
  have hstate : Dlmalloc.splitTop nb m =
      { m with top := m.top + nb, topsize := m.topsize - nb, chunks := c' } := by
    rw [← hc]
    rfl
  rw [← hgone, hstate]
  refine Changes.cutTop hT (.one hmem) ?_ ?_ ?_ hparts rfl ?_ ?_ ?_ ?_ ?_
  · rw [← hc]
    have hframe : Frame m.top.toNat (m.top + m.topsize).toNat m.chunks m.chunks := Frame.refl
    exact (hframe.setHead _ (by omega) (by omega) (by omega)).setHead _ (le_refl _) (by omega)
      (by omega)
  · rw [hT.pinuse_of_unused hmem (nomatch ·), ChunkStore.pinuse_eq, hself, headPinuse_inuse]
  · change c'.chunksize (m.top + m.topsize) = _ ∧ c'.cinuse (m.top + m.topsize) = _
    rw [ChunkStore.chunksize_eq, ChunkStore.cinuse_eq, hend]
    exact ⟨rfl, rfl⟩
  · rw [ChunkStore.chunksize_eq, hself, headSize_inuse hnb.mod]
  · rw [ChunkStore.cinuse_eq, hself, headCinuse_inuse]
  · rw [← hc]
    simp [ChunkStore.setSizeAndPinuseOfInuseChunk, hne.symm]
  · change c'.pinuse (m.top + m.topsize) = false
    rw [ChunkStore.pinuse_eq, hend]
    exact (hT.tagged _ hmem).border
  · rw [hothers, ← hc]
    exact hT.links.congr rfl rfl rfl

/-- What the user of `t` wrote stays, as far as the chunk `u` reaches. -/
def Kept (c c' : ChunkStore) (t u : Tile) : Prop :=
  ∀ x : Word, t.addr.toNat + 8 ≤ x.toNat → x.toNat ≤ t.next.toNat → x.toNat ≤ u.next.toNat →
    c'.word x = c.word x

/-- The chunk `t` is now the chunk `u`, which has `nb` bytes up to what is too small for a chunk. -/
structure Resized (m m' : MallocState) (T T' : Set Tile) (t u : Tile) (nb : Word) : Prop where
  changes : Changes m m' T T' {t} {u}
  addr : u.addr = t.addr
  inuse : u.kind = .inuse
  enough : nb.toNat ≤ u.size.toNat
  tight : u.size.toNat < nb.toNat + 16
  kept : Kept m.chunks m'.chunks t u

/-- The run from the chunk `t` on, with the free tile after it in it if that is to be taken. The
bins of `c` no longer link that tile. -/
structure Room (m : MallocState) (T : Set Tile) (t l : Tile) (R : List Tile) (s : Word)
    (c : ChunkStore) : Prop where
  tiled : Tiled m T
  run : Run T t l R
  inuse : t.kind = .inuse
  kinds : ∀ x ∈ R, x = t ∨ x.kind = .free
  size : t.addr + s = l.next
  relinks : Relinks m.chunks c
  links : Links c (others T R)

namespace Room

theorem gone (h : Room m T t l R s c) : {x | x ∈ R ∧ x.kind = .inuse} = {t} := by
  ext x
  rw [Set.mem_ofPred_eq, Set.mem_singleton_iff]
  constructor
  · rintro ⟨hx, hkind⟩
    rcases h.kinds x hx with heq | hfree
    · exact heq
    · rw [hkind] at hfree
      cases hfree
  · rintro rfl
    exact ⟨h.run.first_mem_run, h.inuse⟩

theorem not_top (h : Room m T t l R s c) : ∀ x ∈ R, x.kind ≠ .top := by
  intro x hx hkind
  rcases h.kinds x hx with rfl | hfree
  · rw [h.inuse] at hkind
    cases hkind
  · rw [hfree] at hkind
    cases hkind

theorem next_le (h : Room m T t l R s c) : t.next.toNat ≤ l.next.toNat :=
  (h.run.inside h.tiled.toTags h.run.first_mem_run).2

theorem head_first (h : Room m T t l R s c) : c.head t.addr = m.chunks.head t.addr :=
  h.relinks.head (h.tiled.firm_head (fun _ => h.tiled.free) h.run.first_mem)

theorem head_next (h : Room m T t l R s c) : c.head l.next = m.chunks.head l.next :=
  h.relinks.head (h.tiled.firm_border (fun _ => h.tiled.free) h.run.last_mem)

/-- The bins do not write to the chunk. -/
theorem firm_block (h : Room m T t l R s c) {x : Word} (hlow : t.addr.toNat ≤ x.toNat)
    (hhigh : x.toNat ≤ t.next.toNat) : ¬ m.chunks.Loose x := by
  refine h.tiled.firm (fun _ => h.tiled.free) h.run.first_mem hlow (by omega) fun hkind => ?_
  rw [h.inuse] at hkind
  cases hkind

/-- The chunk alone. -/
theorem alone (hT : Tiled m T) (ht : t ∈ T) (hkind : t.kind = .inuse) :
    Room m T t t [t] t.size m.chunks where
  tiled := hT
  run := .one ht
  inuse := hkind
  kinds x hx := Or.inl (List.mem_singleton.mp hx)
  size := rfl
  relinks := Relinks.refl
  links := by
    rw [Tiled.others_used hkind]
    exact hT.links

/-- The chunk with the free tile after it. -/
theorem extended (hT : Tiled m T) (ht : t ∈ T) (hkind : t.kind = .inuse) (hv : v ∈ T)
    (hfree : v.kind = .free) (hnext : v.addr = t.next) (hre : Relinks m.chunks c)
    (hlinks : Links c (freeChunks T \ {(v.addr, v.size)})) :
    Room m T t v [t, v] (t.size + v.size) c where
  tiled := hT
  run := .two ht hv hnext
  inuse := hkind
  kinds x hx := by
    rcases List.mem_cons.mp hx with rfl | hx
    · exact Or.inl rfl
    · rw [List.mem_singleton.mp hx]
      exact Or.inr hfree
  size := by
    rw [← BitVec.add_assoc]
    change t.next + v.size = v.next
    rw [← hnext]
    rfl
  relinks := hre
  links := by
    have hothers : others T [t, v] = others T [v, t] := by
      ext x
      simp [mem_others, and_comm]
    rw [hothers, Tiled.others_pair hkind hfree]
    exact hlinks

theorem first_ne (h : Room m T t l R s c) : t.addr ≠ t.addr + s := by
  have hlt := h.run.lt h.tiled.toTags
  intro heq
  rw [← h.size, ← heq] at hlt
  exact lt_irrefl _ hlt

/-- The run becomes the chunk. -/
theorem resized (h : Room m T t l R s c) (henough : nb.toNat ≤ s.toNat)
    (htight : s.toNat < nb.toNat + 16) :
    ∃ T', Resized m (withChunks (c.setInuse t.addr s) m) T T' t ⟨t.addr, s, .inuse⟩ nb := by
  have hself := c.setInuse_self h.first_ne
  have hend := c.setInuse_next h.first_ne
  have hlt := h.run.lt h.tiled.toTags
  have hmod := (h.run.size h.tiled.toTags h.size).2.1
  have hle := h.next_le
  have hfirst := (h.tiled.shaped t h.run.first_mem).room.1
  have hroom := (h.tiled.shaped l h.run.last_mem).room.2
  rw [h.size] at hend
  suffices hchanges : ∃ T', Changes m (withChunks (c.setInuse t.addr s) m) T T' {t}
      {⟨t.addr, s, .inuse⟩} by
    obtain ⟨T', hT'⟩ := hchanges
    refine ⟨T', hT', rfl, rfl, henough, htight, fun x hlow hhigh _ => ?_⟩
    exact (setInuse_word c hfirst (h.size ▸ hroom) (by omega) (by rw [h.size]; omega)).trans
      (h.relinks.word (h.firm_block (by omega) hhigh))
  have hfinish := congrArg BitVec.toNat h.size
  rw [← h.gone]
  refine Changes.taken h.tiled h.run ((h.relinks _ _).setInuse (le_refl _) (by omega) hfinish.le
    (by omega)) ?_ ?_ h.not_top h.size ?_ ?_ ?_ (h.links.congr rfl rfl rfl)
  · rw [ChunkStore.pinuse_eq, hself, headPinuse_setInuse hmod, h.head_first]
    rfl
  · rw [ChunkStore.chunksize_eq, ChunkStore.cinuse_eq, hend, headSize_setPinuse,
      headCinuse_setPinuse, h.head_next]
    exact ⟨rfl, rfl⟩
  · rw [ChunkStore.chunksize_eq, hself, headSize_setInuse hmod]
  · rw [ChunkStore.cinuse_eq, hself, headCinuse_setInuse]
  · rw [ChunkStore.pinuse_eq, hend, headPinuse_setPinuse]

/-- The run is cut into two chunks in use, in the terms of their heads. -/
theorem cut (h : Room m T t l R s c) (hparts : Parts t l nb rest) {c' : ChunkStore}
    (hframe : Frame t.addr.toNat l.next.toNat m.chunks c')
    (hself : c'.head t.addr = (m.chunks.head t.addr &&& pinuseBit) ||| nb ||| cinuseBit)
    (hsize : c'.chunksize (t.addr + nb) = rest) (hcinuse : c'.cinuse (t.addr + nb) = true)
    (hpinuse : c'.pinuse (t.addr + nb) = true)
    (hend : c'.head l.next = m.chunks.head l.next ||| pinuseBit) (hlinks : Links c' (others T R)) :
    ∃ T', Changes m (withChunks c' m) T T' {t}
      {⟨t.addr, nb, .inuse⟩, ⟨t.addr + nb, rest, .inuse⟩} := by
  have hmod := hparts.front.mod
  rw [← h.gone]
  refine Changes.cut h.tiled h.run hframe ?_ ?_ hparts h.not_top ?_ ?_ hsize hcinuse hpinuse ?_
    hlinks
  · rw [ChunkStore.pinuse_eq, hself, headPinuse_setInuse hmod]
    rfl
  · rw [ChunkStore.chunksize_eq, ChunkStore.cinuse_eq, hend, headSize_setPinuse,
      headCinuse_setPinuse]
    exact ⟨rfl, rfl⟩
  · rw [ChunkStore.chunksize_eq, hself, headSize_setInuse hmod]
  · rw [ChunkStore.cinuse_eq, hself, headCinuse_setInuse]
  · rw [ChunkStore.pinuse_eq, hend, headPinuse_setPinuse]

theorem frame_cut (h : Room m T t l R s c) (hparts : Parts t l nb rest) {c' : ChunkStore}
    (hc' : c' = (c.setInuse t.addr nb).setInuse (t.addr + nb) rest ∨
      c' = (c.setInuse (t.addr + nb) rest).setInuse t.addr nb) :
    Frame t.addr.toNat l.next.toNat m.chunks c' := by
  have hframe := h.relinks t.addr.toNat l.next.toNat
  have hroom := (h.tiled.shaped l h.run.last_mem).room.2
  have hstart := hparts.start
  have htotal := hparts.total
  have hfront := hparts.front.large
  have hback := hparts.back.large
  have hfinish := congrArg BitVec.toNat hparts.finish
  rcases hc' with rfl | rfl
  · exact (hframe.setInuse (le_refl _) (by omega) (by omega) (by omega)).setInuse (by omega)
      (by omega) (by omega) (by omega)
  · exact (hframe.setInuse (by omega) (by omega) (by omega) (by omega)).setInuse (le_refl _)
      (by omega) (by omega) (by omega)

/-- The front is written first, as `try_realloc_chunk` does. -/
theorem cutFront (h : Room m T t l R s c) (hparts : Parts t l nb rest) :
    ∃ T', Changes m (withChunks ((c.setInuse t.addr nb).setInuse (t.addr + nb) rest) m) T T' {t}
      {⟨t.addr, nb, .inuse⟩, ⟨t.addr + nb, rest, .inuse⟩} := by
  have hne := hparts.first_ne
  have hlast := hparts.last_ne
  have hlast' := hparts.last_ne_rest
  have hfinish := hparts.finish
  have hrest : t.addr + nb ≠ t.addr + nb + rest := by
    rw [hfinish]
    exact hlast'.symm
  have hmid := (c.setInuse t.addr nb).setInuse_self hrest
  rw [c.setInuse_next hne.symm] at hmid
  refine h.cut hparts (h.frame_cut hparts (Or.inl rfl)) ?_ ?_ ?_ ?_ ?_ (h.links.congr rfl rfl rfl)
  · rw [ChunkStore.setInuse_other _ hne.symm (by rw [hfinish]; exact hlast.symm),
      c.setInuse_self hne.symm, h.head_first]
  · rw [ChunkStore.chunksize_eq, hmid, headSize_setInuse hparts.back.mod]
  · rw [ChunkStore.cinuse_eq, hmid, headCinuse_setInuse]
  · rw [ChunkStore.pinuse_eq, hmid, headPinuse_setInuse hparts.back.mod, headPinuse_setPinuse]
  · have hend := (c.setInuse t.addr nb).setInuse_next hrest
    rw [hfinish] at hend
    rw [hend, c.setInuse_other hlast hlast', h.head_next]

/-- The rest is written first, as `internal_memalign` does for the leader. -/
theorem cutBack (h : Room m T t l R s c) (hparts : Parts t l nb rest) :
    ∃ T', Changes m (withChunks ((c.setInuse (t.addr + nb) rest).setInuse t.addr nb) m) T T' {t}
      {⟨t.addr, nb, .inuse⟩, ⟨t.addr + nb, rest, .inuse⟩} := by
  have hne := hparts.first_ne
  have hlast := hparts.last_ne
  have hlast' := hparts.last_ne_rest
  have hfinish := hparts.finish
  have hrest : t.addr + nb ≠ t.addr + nb + rest := by
    rw [hfinish]
    exact hlast'.symm
  have hmid := (c.setInuse (t.addr + nb) rest).setInuse_next hne.symm
  rw [c.setInuse_self hrest] at hmid
  refine h.cut hparts (h.frame_cut hparts (Or.inr rfl)) ?_ ?_ ?_ ?_ ?_ (h.links.congr rfl rfl rfl)
  · rw [ChunkStore.setInuse_self _ hne.symm,
      c.setInuse_other hne.symm (by rw [hfinish]; exact hlast.symm), h.head_first]
  · rw [ChunkStore.chunksize_eq, hmid, headSize_setPinuse, headSize_setInuse hparts.back.mod]
  · rw [ChunkStore.cinuse_eq, hmid, headCinuse_setPinuse, headCinuse_setInuse]
  · rw [ChunkStore.pinuse_eq, hmid, headPinuse_setPinuse]
  · have hend := c.setInuse_next hrest
    rw [hfinish] at hend
    rw [ChunkStore.setInuse_other _ hlast hlast', hend, h.head_next]

/-- The front of the run becomes the chunk, and the rest is disposed of. -/
theorem splitOff (h : Room m T t l R s c) (hparts : Parts t l nb rest) :
    ∃ m' T', Dlmalloc.splitOff t.addr nb rest (withChunks c m) = .ok m' ∧
      Resized m m' T T' t ⟨t.addr, nb, .inuse⟩ nb ∧
      ∃ d, Disposes d (withChunks ((c.setInuse t.addr nb).setInuse (t.addr + nb) rest) m) m' := by
  obtain ⟨T₁, hcut⟩ := h.cutFront hparts
  generalize hc₁ : (c.setInuse t.addr nb).setInuse (t.addr + nb) rest = c₁ at hcut ⊢
  have hfront : (⟨t.addr, nb, .inuse⟩ : Tile) ∈ used T₁ := by
    rw [hcut.used]
    exact Or.inr (Or.inl rfl)
  have hback : (⟨t.addr + nb, rest, .inuse⟩ : Tile) ∈ used T₁ := by
    rw [hcut.used]
    exact Or.inr (Or.inr rfl)
  have hne : (⟨t.addr, nb, .inuse⟩ : Tile) ≠ ⟨t.addr + nb, rest, .inuse⟩ := fun heq =>
    hparts.first_ne (congrArg Tile.addr heq).symm
  obtain ⟨m', hrun, hdisposed, T', hfreed⟩ := hcut.tiled.disposeChunk hback.1 rfl
  refine ⟨m', T', ?_, ?_, hdisposed⟩
  · rw [← hrun, ← hc₁]
    rfl
  · refine ⟨?_, rfl, rfl, le_refl _, Nat.lt_add_of_pos_right (by decide), fun x hlow hhigh hx => ?_⟩
    · have hboth := hcut.trans hfreed fun x hx hgone heq => ?_
      · convert hboth using 1
        rw [Set.union_empty]
        ext x
        simp only [Set.mem_singleton_iff, Set.mem_sdiff, Set.mem_insert_iff]
        constructor
        · rintro rfl
          exact ⟨Or.inl rfl, hne⟩
        · rintro ⟨rfl | rfl, hx⟩
          · rfl
          · exact absurd rfl hx
      · -- The rest is a new chunk: where it begins there was a free one at most.
        have haddr := congrArg Tile.addr (Set.mem_singleton_iff.mp heq)
        rcases h.kinds x (hparts.mem_run h.run h.tiled.toTags hx.1 haddr) with hxt | hfree
        · exact hgone hxt
        · rw [hx.2] at hfree
          cases hfree
    · have hnext : (t.addr + nb).toNat = t.addr.toNat + nb.toNat := hparts.start
      have hfinish := congrArg BitVec.toNat hparts.finish
      have htotal := hparts.total
      have hroom := (h.tiled.shaped l h.run.last_mem).room.2
      have hbound : x.toNat ≤ (t.addr + nb).toNat := hx
      have hkept := hfreed.untouched _ hfront (fun heq => hne (Set.mem_singleton_iff.mp heq)) x hlow hx
      refine hkept.trans ?_
      rw [← hc₁]
      refine (setInuse_word _ (by omega) (by omega) (by omega) (by omega)).trans ?_
      exact (setInuse_word c (by omega) (by omega) (by omega) (by omega)).trans
        (h.relinks.word (h.firm_block (by omega) hhigh))

/-- The front of the run is disposed of, and the rest stays in use. -/
theorem giveLeader (h : Room m T t t [t] s m.chunks) (hparts : Parts t t nb rest) :
    ∃ m' T', Dlmalloc.giveLeader t.addr (t.addr + nb) rest m = .ok m' ∧
      Changes m m' T T' {t} {⟨t.addr + nb, rest, .inuse⟩} ∧
      ∃ d, Disposes d
        (withChunks ((m.chunks.setInuse (t.addr + nb) rest).setInuse t.addr nb) m) m' := by
  obtain ⟨T₁, hcut⟩ := h.cutBack hparts
  have hlead : t.addr + nb - t.addr = nb := by
    rw [BitVec.add_comm, BitVec.add_sub_cancel]
  have hfront : (⟨t.addr, nb, .inuse⟩ : Tile) ∈ used T₁ := by
    rw [hcut.used]
    exact Or.inr (Or.inl rfl)
  have hne : (⟨t.addr + nb, rest, .inuse⟩ : Tile) ≠ ⟨t.addr, nb, .inuse⟩ := fun heq =>
    hparts.first_ne (congrArg Tile.addr heq)
  obtain ⟨m', hrun, hdisposed, T', hfreed⟩ := hcut.tiled.disposeChunk hfront.1 rfl
  refine ⟨m', T', ?_, ?_, hdisposed⟩
  · unfold Dlmalloc.giveLeader
    rw [hlead]
    exact hrun
  · have hboth := hcut.trans hfreed fun x hx hgone heq => ?_
    · convert hboth using 1
      rw [Set.union_empty]
      ext x
      simp only [Set.mem_singleton_iff, Set.mem_sdiff, Set.mem_insert_iff]
      constructor
      · rintro rfl
        exact ⟨Or.inr rfl, hne⟩
      · rintro ⟨rfl | rfl, hx⟩
        · exact absurd rfl hx
        · rfl
    · have haddr := congrArg Tile.addr (Set.mem_singleton_iff.mp heq)
      exact hgone (h.tiled.eq_of_addr hx.1 h.run.first_mem haddr)

/-- The run becomes the chunk and a new dv. -/
theorem splitDv (h : Room m T t v [t, v] s (m.chunks.setDv 0 0)) (hv : v.kind = .free)
    (hparts : Parts t v nb rest) :
    ∃ T', Resized m (withChunks ((((m.chunks.setInuse t.addr nb).setSizeAndPinuseOfFreeChunk
      (t.addr + nb) rest).clearPinuse (t.addr + nb + rest)).setDv (t.addr + nb) rest) m) T T' t
      ⟨t.addr, nb, .inuse⟩ nb := by
  have hne := hparts.first_ne
  have hlast := hparts.last_ne
  have hlast' := hparts.last_ne_rest
  have hfinish := hparts.finish
  have hstart := hparts.start
  have htotal := hparts.total
  have hfront := hparts.front.large
  have hback := hparts.back.large
  have htnext := (h.tiled.shaped t h.run.first_mem).toNat_next
  generalize hc' : (((m.chunks.setInuse t.addr nb).setSizeAndPinuseOfFreeChunk (t.addr + nb)
    rest).clearPinuse (t.addr + nb + rest)).setDv (t.addr + nb) rest = c'
  have haddr := (h.tiled.shaped t h.run.first_mem).addr
  have hvmod := (h.tiled.shaped v h.run.last_mem).next_mod
  have hroom := (h.tiled.shaped v h.run.last_mem).room.2
  have hnbmod := hparts.front.mod
  have hrestmod := hparts.back.mod
  have hfinish' := congrArg BitVec.toNat hfinish
  have hmid : (t.addr + nb).toNat % 16 = 8 := by omega
  have hhead : ∀ q : Word, q.toNat % 16 = 8 → c'.head q =
      if q = v.next then m.chunks.head v.next &&& ~~~pinuseBit
      else if q = t.addr + nb then rest ||| pinuseBit
      else (m.chunks.setInuse t.addr nb).head q := by
    intro q hq
    rw [← hc', ChunkStore.setDv_head, ChunkStore.clearPinuse_head, hfinish,
      ChunkStore.setFree_head _ hmid hrestmod hvmod, ChunkStore.setFree_head _ hmid hrestmod hq,
      if_neg hlast', m.chunks.setInuse_other hlast hlast']
  have hself : c'.head t.addr = (m.chunks.head t.addr &&& pinuseBit) ||| nb ||| cinuseBit := by
    rw [hhead _ haddr, if_neg hlast.symm, if_neg hne.symm, m.chunks.setInuse_self hne.symm]
  have hrest : c'.head (t.addr + nb) = rest ||| pinuseBit := by
    rw [hhead _ hmid, if_neg hlast'.symm, if_pos rfl]
  have hend : c'.head v.next = m.chunks.head v.next &&& ~~~pinuseBit := by
    rw [hhead _ hvmod, if_pos rfl]
  have hfoot : c'.prevFoot v.next = rest := by
    rw [← hc', ← hfinish]
    refine (ChunkStore.setWord_word ..).trans ((if_neg ?_).trans (ChunkStore.setFree_foot ..))
    exact (head_ne_foot (hfinish ▸ hvmod) (hfinish ▸ hvmod)).symm
  have hback' : ∀ {a : ℕ} {c : ChunkStore}, a ≤ (t.addr + nb).toNat →
      Frame a v.next.toNat c (m.chunks.setInuse t.addr nb) → Frame a v.next.toNat c c' := by
    intro a c ha hframe
    rw [← hc']
    exact ((hframe.setFree ha (by omega) (by omega) (by omega)).clearPinuse (by omega) (by omega)
      (by omega)).setDv ha (by omega) (by omega) hback
  suffices hchanges : ∃ T', Changes m (withChunks c' m) T T' {t} {⟨t.addr, nb, .inuse⟩} by
    obtain ⟨T', hT'⟩ := hchanges
    refine ⟨T', hT', rfl, rfl, le_refl _, Nat.lt_add_of_pos_right (by decide),
      fun x hlow hhigh hx => ?_⟩
    change x.toNat ≤ (t.addr + nb).toNat at hx
    exact ((hback' (le_refl _) Frame.refl).word x (h.firm_block (by omega) hhigh) (Or.inl hx)).trans
      (setInuse_word m.chunks (by omega) (by omega) (by omega) (by omega))
  rw [← h.gone]
  refine Changes.split h.tiled h.run (hback' (by omega) (Frame.refl.setInuse (le_refl _) (by omega)
    (by omega) (by omega))) ?_ ?_ hparts h.not_top hv ?_ ?_ hrest ?_ hfoot ?_
  · rw [ChunkStore.pinuse_eq, hself, headPinuse_setInuse hparts.front.mod]
    rfl
  · rw [ChunkStore.chunksize_eq, ChunkStore.cinuse_eq, hend, headSize_clearPinuse,
      headCinuse_clearPinuse]
    exact ⟨rfl, rfl⟩
  · rw [ChunkStore.chunksize_eq, hself, headSize_setInuse hparts.front.mod]
  · rw [ChunkStore.cinuse_eq, hself, headCinuse_setInuse]
  · rw [ChunkStore.pinuse_eq, hend, headPinuse_clearPinuse]
  · rw [← hc']
    refine (Links.newDv h.links rfl hparts.rest_ne_zero fun hx => ?_).congr rfl rfl rfl
    exact hparts.rest_unlinked h.run h.tiled.toTags _ (h.links.mem_of_binned hx)

end Room

/-- The chunk grows into top. -/
theorem Tiled.extendIntoTop (hT : Tiled m T) (ht : t ∈ T) (hkind : t.kind = .inuse)
    (htop : t.next = m.top) (hnb : Sized nb) (hpast : t.size.toNat < nb.toNat)
    (hroom : nb.toNat < t.size.toNat + m.topsize.toNat) :
    BordersTop t.addr t.size m ∧ ∃ T', Resized m (Dlmalloc.extendIntoTop t.addr nb t.size m) T T' t
      ⟨t.addr, nb, .inuse⟩ nb := by
  have htnext := (hT.shaped t ht).toNat_next
  have hinit : isInitialized m = true := by
    rw [isInitialized_iff, word_ne_zero, ← htop]
    have := (hT.shaped t ht).large
    omega
  have hmem := hT.top_mem hinit
  generalize hv : (⟨m.top, m.topsize, .top⟩ : Tile) = v at hmem
  have hvaddr : v.addr = m.top := by rw [← hv]
  have hvsize : v.size = m.topsize := by rw [← hv]
  have hvkind : v.kind = .top := by rw [← hv]
  have hnext : v.addr = t.next := by rw [hvaddr, htop]
  have hvnext := (hT.shaped v hmem).toNat_next
  have hvmod := (hT.shaped v hmem).size
  have hvroom := (hT.shaped v hmem).room.2
  have htmod := (hT.shaped t ht).size
  have hnbmod := hnb.mod
  have hrun : Run T t v [t, v] := .two ht hmem hnext
  refine ⟨?_, ?_⟩
  · obtain ⟨seg, hseg, hin⟩ := hT.inside t ht
    have hlast := hT.run_in hrun hseg hin
    have hlow := hin.1
    have hhigh := hlast.2
    unfold firstChunk at hlow
    rw [segments_of_initialized hinit] at hseg
    refine ⟨by rw [← htop]; omega, (hT.shaped t ht).addr, seg, hseg, by omega, ?_⟩
    rw [← hvaddr]
    omega
  have hs : t.addr + (t.size + m.topsize) = v.next := by
    rw [← BitVec.add_assoc, ← hvsize]
    change t.next + v.size = v.next
    rw [← hnext]
    rfl
  have hsum := (hrun.size hT.toTags hs).1
  rw [hnext] at hvnext
  rw [hvsize] at hvnext hvmod
  have hparts := hrun.parts hT.toTags hs hnb (by omega)
  have hne := hparts.first_ne
  have hlast := hparts.last_ne
  have hlast' := hparts.last_ne_rest
  have hstart := hparts.start
  have htotal := hparts.total
  have hfront := hparts.front.large
  have hback := hparts.back.large
  have hfinish := congrArg BitVec.toNat hparts.finish
  generalize hrest : t.size + m.topsize - nb = rest at hparts htotal hback hfinish
  generalize hc' : (m.chunks.setInuse t.addr nb).setHead (t.addr + nb) (rest ||| pinuseBit) = c'
  have hhead : ∀ q, q ≠ t.addr → q ≠ t.addr + nb → c'.head q = m.chunks.head q := by
    intro q hq hq'
    rw [← hc']
    simp [hq', m.chunks.setInuse_other hq hq']
  have hself : c'.head t.addr = (m.chunks.head t.addr &&& pinuseBit) ||| nb ||| cinuseBit := by
    rw [← hc']
    simp [hne.symm, m.chunks.setInuse_self hne.symm]
  have hstate : Dlmalloc.extendIntoTop t.addr nb t.size m =
      { m with top := t.addr + nb, topsize := rest, chunks := c' } := by
    rw [← hc', ← hrest]
    rfl
  rw [hstate]
  have hgone : {x | x ∈ [t, v] ∧ x.kind = .inuse} = {t} := by
    ext x
    simp only [Set.mem_ofPred_eq, List.mem_cons, List.not_mem_nil, or_false, Set.mem_singleton_iff]
    constructor
    · rintro ⟨rfl | rfl, hx⟩
      · rfl
      · rw [hvkind] at hx
        cases hx
    · rintro rfl
      exact ⟨Or.inl rfl, hkind⟩
  have hothers : others T [t, v] = freeChunks T := by
    ext x
    have hnt : (⟨x.1, x.2, .free⟩ : Tile) ≠ t := by
      rintro rfl
      cases hkind
    have hnv : (⟨x.1, x.2, .free⟩ : Tile) ≠ v := by
      rintro rfl
      cases hvkind
    simp [mem_others, hnt, hnv]
  suffices hchanges : ∃ T', Changes m { m with top := t.addr + nb, topsize := rest, chunks := c' }
      T T' {t} {⟨t.addr, nb, .inuse⟩} by
    obtain ⟨T', hT'⟩ := hchanges
    refine ⟨T', hT', rfl, rfl, le_refl _, Nat.lt_add_of_pos_right (by decide),
      fun x hlow hhigh hx => ?_⟩
    have hne' : x ≠ t.addr + nb + sizeTSize := by
      rintro rfl
      rw [toNat_head (by omega)] at hx
      change _ ≤ (t.addr + nb).toNat at hx
      omega
    change x.toNat ≤ (t.addr + nb).toNat at hx
    rw [← hc']
    exact ((ChunkStore.setWord_word ..).trans (if_neg hne')).trans
      (setInuse_word m.chunks (by omega) (by omega) (by omega) (by omega))
  rw [← hgone]
  refine Changes.cutTop hT hrun ?_ ?_ ?_ hparts hvkind ?_ ?_ ?_ ?_ ?_
  · rw [← hc']
    have hframe : Frame t.addr.toNat v.next.toNat m.chunks m.chunks := Frame.refl
    exact (hframe.setInuse (le_refl _) (by omega) (by omega) (by omega)).setHead _ (by omega)
      (by omega) (by omega)
  · rw [ChunkStore.pinuse_eq, hself, headPinuse_setInuse hnb.mod]
    rfl
  · rw [ChunkStore.chunksize_eq, ChunkStore.cinuse_eq, hhead _ hlast hlast']
    exact ⟨rfl, rfl⟩
  · rw [ChunkStore.chunksize_eq, hself, headSize_setInuse hnb.mod]
  · rw [ChunkStore.cinuse_eq, hself, headCinuse_setInuse]
  · rw [← hc']
    simp
  · rw [ChunkStore.pinuse_eq, hhead _ hlast hlast', ← ChunkStore.pinuse_eq,
      (hT.tagged v hmem).border, hvkind]
    rfl
  · rw [hothers, ← hc']
    exact hT.links.congr rfl rfl rfl

/-- The resize makes `m'` of `m`. -/
def Resizes (r : Resize) (nb : Word) (m m' : MallocState) : Prop :=
  match r with
  | .refused => False
  | .inPlace chunks none => m' = withChunks chunks m
  | .inPlace chunks (some d) => Disposes d (withChunks chunks m) m'
  | .intoTop p oldsize chunks =>
    BordersTop p oldsize m ∧ oldsize < nb ∧ nb < oldsize + m.topsize ∧ m' = { m with
      topsize := oldsize + m.topsize - nb
      top := p + nb
      chunks := chunks.setHead (p + nb) ((oldsize + m.topsize - nb) ||| pinuseBit) }

theorem extendIntoNext_eq {p oldsize next nextsize : Word}
    (hsize : m.chunks.chunksize next = nextsize) (hbinned : (next, nextsize) ∈ m.chunks.binned)
    (hok : okBins m m.chunks = true) :
    extendIntoNext p nb oldsize next m =
      if oldsize + nextsize - nb < minChunkSize then
        .ok (withChunks ((m.chunks.unlinkChunk next nextsize).setInuse p (oldsize + nextsize)) m)
      else splitOff p nb (oldsize + nextsize - nb)
        (withChunks (m.chunks.unlinkChunk next nextsize) m) := by
  unfold extendIntoNext
  rw [hsize]
  dsimp only
  rw [unlinkChunk_ok hok hbinned]
  change (if _ then _ else _) = _
  split_ifs <;> rfl

theorem minChunkSize_toNat : minChunkSize.toNat = 16 := by decide

namespace Tiled

/-- What a chunk and the free chunk after it have together. -/
theorem extended_size (hT : Tiled m T) (ht : t ∈ T) (hv : v ∈ T) (hnext : v.addr = t.next) :
    (t.size + v.size).toNat = t.size.toNat + v.size.toNat := by
  have hroom := (hT.shaped t ht).toNat_next
  have hroom' := (hT.shaped v hv).toNat_next
  have hbound := v.next.isLt
  rw [hnext] at hroom'
  exact BitVec.toNat_add_of_lt (by omega)

/-- The chunk grows into dv. -/
theorem extendIntoDv (hT : Tiled m T) (ht : t ∈ T) (hkind : t.kind = .inuse) (hv : v ∈ T)
    (hfree : v.kind = .free) (hnext : v.addr = t.next) (hdv : m.chunks.dvsize ≠ 0)
    (hpair : (v.addr, v.size) = (m.chunks.dv, m.chunks.dvsize)) (hnb : Sized nb)
    (hroom : nb.toNat ≤ t.size.toNat + v.size.toNat) :
    ∃ T' u, Resized m (withChunks (Dlmalloc.extendIntoDv t.addr nb t.size m.chunks) m) T T' t u
      nb := by
  have hsize : m.chunks.dvsize = v.size := (congrArg Prod.snd hpair).symm
  have hsum := hT.extended_size ht hv hnext
  have hroom' := Room.extended hT ht hkind hv hfree hnext (Relinks.refl.clearDv)
    (hpair ▸ hT.links.clearDv hdv)
  have hrest : (t.size + v.size - nb).toNat = t.size.toNat + v.size.toNat - nb.toNat := by
    rw [BitVec.toNat_sub_of_le (word_le.mpr (by omega)), hsum]
  unfold Dlmalloc.extendIntoDv
  rw [hsize]
  dsimp only
  split_ifs with hsplit
  · rw [word_le, hrest, minChunkSize_toNat] at hsplit
    have hparts := hroom'.run.parts hT.toTags hroom'.size hnb (by omega)
    obtain ⟨T', hT'⟩ := hroom'.splitDv hfree hparts
    exact ⟨T', _, hT'⟩
  · rw [word_le, hrest, minChunkSize_toNat] at hsplit
    obtain ⟨T', hT'⟩ := hroom'.resized (show nb.toNat ≤ _ by omega) (by omega)
    exact ⟨T', _, hT'⟩

/-- The chunk grows into the free chunk after it, which a bin links. -/
theorem extendIntoNext (hT : Tiled m T) (ht : t ∈ T) (hkind : t.kind = .inuse) (hv : v ∈ T)
    (hfree : v.kind = .free) (hnext : v.addr = t.next)
    (hbinned : (v.addr, v.size) ∈ m.chunks.binned) (hnb : Sized nb)
    (hroom : nb.toNat ≤ t.size.toNat + v.size.toNat) :
    ∃ m' T' u, Dlmalloc.extendIntoNext t.addr nb t.size v.addr m = .ok m' ∧
      Resized m m' T T' t u nb ∧ ∃ r, Resizes r nb m m' := by
  have hsum := hT.extended_size ht hv hnext
  have hroom' := Room.extended hT ht hkind hv hfree hnext
    (Relinks.refl.unlinkChunk v.addr v.size) (hT.links.unlink hbinned)
  have hrest : (t.size + v.size - nb).toNat = t.size.toNat + v.size.toNat - nb.toNat := by
    rw [BitVec.toNat_sub_of_le (word_le.mpr (by omega)), hsum]
  rw [extendIntoNext_eq (hT.tagged v hv).size hbinned hT.okBinned]
  split_ifs with hwhole
  · rw [word_lt, hrest, minChunkSize_toNat] at hwhole
    obtain ⟨T', hT'⟩ := hroom'.resized (show nb.toNat ≤ _ by omega) (by omega)
    exact ⟨_, T', _, rfl, hT', .inPlace _ none, rfl⟩
  · rw [word_lt, hrest, minChunkSize_toNat] at hwhole
    have hparts := hroom'.run.parts hT.toTags hroom'.size hnb (by omega)
    obtain ⟨m', T', hrun, hT', d, hd⟩ := hroom'.splitOff hparts
    exact ⟨m', T', _, hrun, hT', .inPlace _ (some d), hd⟩

theorem not_mmapped (hT : Tags m.chunks T) (ht : t ∈ T) (hkind : t.kind = .inuse) :
    m.chunks.isMmapped t.addr = false := by
  rw [ChunkStore.isMmapped_eq, (hT.tagged t ht).cinuse, hkind]
  rfl

/-- When dv follows a chunk, it is a free tile. -/
theorem dv_next (hT : Tiled m T) (ht : t ∈ T) (hdv : t.next = m.chunks.dv) :
    m.chunks.dvsize ≠ 0 ∧ (⟨m.chunks.dv, m.chunks.dvsize, .free⟩ : Tile) ∈ T := by
  have hlarge := (hT.shaped t ht).large
  have htnext := (hT.shaped t ht).toNat_next
  have hdvsize : m.chunks.dvsize ≠ 0 := by
    intro hzero
    rw [hdv, hT.links.dv_null hzero] at htnext
    simp at htnext
    omega
  exact ⟨hdvsize, hT.links.dv_mem hdvsize⟩

/-- What follows a chunk and is neither in use nor top nor dv is a chunk of a bin. -/
theorem binned_next (hT : Tiled m T) (ht : t ∈ T) (hkind : t.kind = .inuse)
    (hno : m.chunks.cinuse t.next = false) (htop : t.next ≠ m.top) (hdv : t.next ≠ m.chunks.dv) :
    ∃ v ∈ T, v.kind = .free ∧ v.addr = t.next ∧ (v.addr, v.size) ∈ m.chunks.binned := by
  rcases hT.followed t ht (by rw [hkind]; decide) with ⟨v, hv, hnext⟩ | hfence
  · have hfree : v.kind = .free := by
      refine Pending.free_of_ne (fun hinuse => ?_) (fun hvtop => ?_)
      · have hcinuse := (hT.tagged v hv).cinuse
        rw [hnext, hno, hinuse] at hcinuse
        cases hcinuse
      · exact htop (hnext.symm.trans ((hT.top_mem_iff hv).mp hvtop))
    refine ⟨v, hv, hfree, hnext, hT.links.binned_of_ne ?_ (hnext ▸ hdv)⟩
    change (⟨v.addr, v.size, .free⟩ : Tile) ∈ T
    rwa [← hfree]
  · rw [hno] at hfence
    cases hfence

/-- The checks that `try_realloc_chunk` makes hold. -/
theorem resizeChunk_eq (hT : Tiled m T) (ht : t ∈ T) (hkind : t.kind = .inuse) :
    Dlmalloc.resizeChunk t.addr nb m =
      if nb ≤ t.size then
        if minChunkSize ≤ t.size - nb then some <$> splitOff t.addr nb (t.size - nb) m
        else .ok (some m)
      else if t.next = m.top then
        .ok (if nb < t.size + m.topsize then some (Dlmalloc.extendIntoTop t.addr nb t.size m)
          else none)
      else if t.next = m.chunks.dv then
        .ok (if nb ≤ t.size + m.chunks.dvsize then
          some (withChunks (Dlmalloc.extendIntoDv t.addr nb t.size m.chunks) m) else none)
      else if !m.chunks.cinuse t.next then
        if nb ≤ t.size + m.chunks.chunksize t.next then
          some <$> Dlmalloc.extendIntoNext t.addr nb t.size t.next m
        else .ok none
      else .ok none := by
  have htag := hT.tagged t ht
  have hlarge := (hT.shaped t ht).large
  have htnext := (hT.shaped t ht).toNat_next
  have hborder : m.chunks.pinuse t.next = true := by
    rw [htag.border, hkind]
    rfl
  have hok : (okAddress m t.addr && m.chunks.isInuse t.addr && okNext t.addr t.next &&
      m.chunks.pinuse t.next) = true := by
    simp only [Bool.and_eq_true, okAddress, okNext, ChunkStore.isInuse_eq, htag.cinuse, hkind,
      hborder, decide_true, decide_eq_true_eq, word_le, word_lt, Bool.true_or, and_true]
    exact ⟨hT.least_le ht, by omega⟩
  unfold Dlmalloc.resizeChunk
  dsimp only
  rw [htag.size, show t.addr + t.size = t.next from rfl, if_pos hok,
    if_neg (by rw [not_mmapped hT.toTags ht hkind]; exact Bool.false_ne_true)]

/-- `try_realloc_chunk` of a chunk in use fails no check. It gives up only when the chunk is too
small and what follows it is in use or does not make it large enough. -/
theorem resizeChunk (hT : Tiled m T) (ht : t ∈ T) (hkind : t.kind = .inuse) (hnb : Sized nb) :
    (Dlmalloc.resizeChunk t.addr nb m = .ok none ∧ t.size.toNat < nb.toNat ∧
      ∀ v ∈ T, v.addr = t.next → v.kind = .inuse ∨ t.size.toNat + v.size.toNat ≤ nb.toNat) ∨
    ∃ m' T' u, Dlmalloc.resizeChunk t.addr nb m = .ok (some m') ∧ Resized m m' T T' t u nb ∧
      ∃ r, Resizes r nb m m' := by
  rw [hT.resizeChunk_eq ht hkind]
  have hlarge := (hT.shaped t ht).large
  have htnext := (hT.shaped t ht).toNat_next
  split_ifs with hfits hsplit htop hless hdv hless hno hless
  · -- The chunk is cut down.
    rw [word_le] at hfits
    rw [word_le, BitVec.toNat_sub_of_le (word_le.mpr hfits), minChunkSize_toNat] at hsplit
    have hroom := Room.alone hT ht hkind
    have hparts := hroom.run.parts hT.toTags hroom.size hnb (by omega)
    obtain ⟨m', T', hrun, hT', d, hd⟩ := hroom.splitOff hparts
    refine Or.inr ⟨m', T', _, ?_, hT', .inPlace _ (some d), hd⟩
    rw [show withChunks m.chunks m = m from rfl] at hrun
    rw [hrun]
    rfl
  · rw [word_le] at hfits
    rw [word_le, BitVec.toNat_sub_of_le (word_le.mpr hfits), minChunkSize_toNat] at hsplit
    exact Or.inr ⟨m, T, t, rfl, ⟨.same hT ⟨ht, hkind⟩, rfl, hkind, hfits, by omega, fun _ _ _ _ => rfl⟩,
      .inPlace m.chunks none, rfl⟩
  · have hmem : (⟨m.top, m.topsize, .top⟩ : Tile) ∈ T := hT.top_mem (by
      rw [isInitialized_iff, word_ne_zero, ← htop]
      omega)
    have hsum := hT.extended_size ht hmem htop.symm
    have hless' := word_lt.mp hless
    dsimp only at hsum
    rw [hsum] at hless'
    rw [word_le] at hfits
    obtain ⟨hborders, T', hT'⟩ := hT.extendIntoTop ht hkind htop hnb (by omega) hless'
    exact Or.inr ⟨_, T', _, rfl, hT', .intoTop t.addr t.size (m.chunks.setInuse t.addr nb), hborders,
      word_lt.mpr (by omega), hless, rfl⟩
  · have hmem : (⟨m.top, m.topsize, .top⟩ : Tile) ∈ T := hT.top_mem (by
      rw [isInitialized_iff, word_ne_zero, ← htop]
      omega)
    have hsum := hT.extended_size ht hmem htop.symm
    dsimp only at hsum
    rw [word_lt, hsum] at hless
    rw [word_le] at hfits
    refine Or.inl ⟨rfl, by omega, fun v hv hnext => Or.inr ?_⟩
    rw [hT.eq_of_addr hv hmem (hnext.trans htop)]
    dsimp only
    omega
  · obtain ⟨hdvsize, hmem⟩ := hT.dv_next ht hdv
    have hsum := hT.extended_size ht hmem hdv.symm
    dsimp only at hsum
    rw [word_le, hsum] at hless
    rw [word_le] at hfits
    obtain ⟨T', u, hT'⟩ := hT.extendIntoDv ht hkind hmem rfl hdv.symm hdvsize rfl hnb hless
    exact Or.inr ⟨_, T', u, rfl, hT', .inPlace _ none, rfl⟩
  · obtain ⟨hdvsize, hmem⟩ := hT.dv_next ht hdv
    have hsum := hT.extended_size ht hmem hdv.symm
    dsimp only at hsum
    rw [word_le, hsum] at hless
    rw [word_le] at hfits
    refine Or.inl ⟨rfl, by omega, fun v hv hnext => Or.inr ?_⟩
    rw [hT.eq_of_addr hv hmem (hnext.trans hdv)]
    dsimp only
    omega
  · rw [Bool.not_eq_true'] at hno
    obtain ⟨v, hv, hfree, hnext, hbinned⟩ := hT.binned_next ht hkind hno htop hdv
    rw [← hnext, (hT.tagged v hv).size, word_le, hT.extended_size ht hv hnext] at hless
    obtain ⟨m', T', u, hrun, hT', hr⟩ := hT.extendIntoNext ht hkind hv hfree hnext hbinned hnb hless
    rw [← hnext, hrun]
    exact Or.inr ⟨m', T', u, rfl, hT', hr⟩
  · rw [Bool.not_eq_true'] at hno
    obtain ⟨v, hv, hfree, hnext, hbinned⟩ := hT.binned_next ht hkind hno htop hdv
    rw [← hnext, (hT.tagged v hv).size, word_le, hT.extended_size ht hv hnext] at hless
    rw [word_le] at hfits
    refine Or.inl ⟨rfl, by omega, fun w hw hnextw => Or.inr ?_⟩
    rw [hT.eq_of_addr hw hv (hnextw.trans hnext.symm)]
    omega
  · rw [word_le] at hfits
    refine Or.inl ⟨rfl, by omega, fun w hw hnextw => Or.inl ?_⟩
    have hcinuse := (hT.tagged w hw).cinuse
    rw [hnextw] at hcinuse
    simpa [hcinuse] using hno

end Tiled

end WasmCxxShim.Dlmalloc
