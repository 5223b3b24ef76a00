import WasmCxxShim.DlmallocMemalignSound
import WasmCxxShim.DlmallocResize

/-!
# Cutting aligned chunks out of the heap

`internal_memalign` gives the space before an aligned spot and the spare room behind it back to the
heap. In a tiled heap it fails no check, and what is left of the chunk is aligned and fits tightly.
-/
namespace WasmCxxShim.Dlmalloc
open MachineWords AddressRegions AddressTilings LinearMemory

variable {m m' : MallocState} {T : Set Tile} {t : Tile} {nb alignment : Word}

/-- The disposal gives the piece back, if there is one. -/
def Gives (piece : Option Chunk) (d : Disposal) (m m' : MallocState) : Prop :=
  match piece with
  | none => m' = m
  | some _ => Disposes d m m'

/-- Only the chunk records of the state that a disposal finds are lost. -/
theorem Disposes.of_withChunks {d : Disposal} {c : ChunkStore}
    (h : Disposes d (withChunks c m) m') : Disposes d m m' := by
  cases d with
  | binned chunks => exact h
  | intoTop p psize chunks => exact h

theorem alignChunk_cases (alignment : Word) (p : Chunk) :
    alignChunk alignment p = (p, none) ∨
      ∃ lead, alignChunk alignment p = (⟨p.addr + lead, p.size - lead⟩, some ⟨p.addr, lead⟩) ∧
        chunk2mem p.addr &&& (alignment - 1) ≠ 0 := by
  by_cases hmis : chunk2mem p.addr &&& (alignment - 1) = 0
  · exact Or.inl (if_neg (not_not.mpr hmis))
  · generalize hpos : (if minChunkSize ≤ mem2chunk ((chunk2mem p.addr + alignment - 1) &&&
      -alignment) - p.addr then mem2chunk ((chunk2mem p.addr + alignment - 1) &&& -alignment) else
      mem2chunk ((chunk2mem p.addr + alignment - 1) &&& -alignment) + alignment) = pos
    refine Or.inr ⟨pos - p.addr, ?_, hmis⟩
    rw [BitVec.add_comm p.addr, BitVec.sub_add_cancel, ← hpos]
    exact if_pos hmis

/-- The first half: the leader of a misaligned chunk goes back. -/
theorem Tiled.alignLeader (hT : Tiled m T) (ht : t ∈ T) (hkind : t.kind = .inuse) {k : ℕ}
    (hk4 : 4 ≤ k) (hk31 : k ≤ 31) (hroom : nb.toNat + 2 ^ k + 16 ≤ t.size.toNat) {aligned}
    (haligned : aligned = alignChunk (BitVec.ofNat 32 (2 ^ k)) ⟨t.addr, t.size⟩) :
    ∃ m' T' u leader,
      (if aligned.2.isSome then Dlmalloc.giveLeader t.addr aligned.1.addr aligned.1.size m
        else .ok m) = .ok m' ∧
      Changes m m' T T' {t} {u} ∧ u.kind = .inuse ∧ u.addr = aligned.1.addr ∧
      u.size = aligned.1.size ∧ nb.toNat + 16 ≤ u.size.toNat ∧ 2 ^ k ∣ (chunk2mem u.addr).toNat ∧
      u.addr.toNat ∈ t.region.bytes ∧ Gives aligned.2 leader m m' := by
  have hshaped := hT.shaped t ht
  have hmem := hshaped.toNat_mem
  have haddr := hshaped.addr
  have hlarge := hshaped.large
  have hbelow := hshaped.below
  have hsize := hshaped.size
  obtain ⟨lead, hlead, hspot, hrest, hdvd⟩ := alignChunk_spec (p := ⟨t.addr, t.size⟩) hk4 hk31 nb
    (word_ne_zero.mpr (by dsimp only; omega)) (Nat.dvd_of_mod_eq_zero (by dsimp only; omega))
    (by dsimp only [usableSize]; omega) hroom
  rw [← haligned] at hspot hrest
  dsimp only at hspot hrest hdvd
  rcases alignChunk_cases (BitVec.ofNat 32 (2 ^ k)) ⟨t.addr, t.size⟩ with hcase | ⟨w, hcase, hmis⟩
  · rw [← haligned] at hcase
    rw [hcase] at hspot hrest ⊢
    have hzero : lead = 0 := by
      dsimp only at hspot
      omega
    refine ⟨m, T, t, .binned m.chunks, rfl, .same hT ⟨ht, hkind⟩, hkind, rfl, rfl, ?_, ?_,
      hshaped.addr_mem, rfl⟩
    · omega
    · rw [hzero, Nat.add_zero] at hdvd
      exact hdvd
  · rw [← haligned] at hcase
    rw [hcase] at hspot hrest ⊢
    dsimp only at hspot hrest hmis ⊢
    have hstart : (t.addr + w).toNat = t.addr.toNat + lead := by
      have hchunk : t.addr + w = chunk2mem (t.addr + w) - 8 := by
        rw [chunk2mem, twoSizeTSizes_eq, BitVec.add_sub_cancel]
      rw [hchunk, BitVec.toNat_sub_of_le (show 8 ≤ (chunk2mem (t.addr + w)).toNat by omega), hspot]
      change _ - 8 = _
      omega
    have hw : w.toNat = lead := by
      have hcancel : w = t.addr + w - t.addr := by rw [BitVec.add_comm, BitVec.add_sub_cancel]
      rw [hcancel, BitVec.toNat_sub_of_le (word_le.mpr (by omega)), hstart]
      omega
    have hlead16 : lead % 16 = 0 := by
      have h16 := (pow_dvd_pow 2 hk4).trans hdvd
      omega
    have hne : lead ≠ 0 := by
      rintro rfl
      have hmask := toNat_and_mask (k := k) (by omega) (chunk2mem t.addr)
      rw [Nat.add_zero] at hdvd
      rw [Nat.mod_eq_zero_of_dvd hdvd] at hmask
      exact hmis (BitVec.eq_of_toNat_eq hmask)
    have hroom' := Room.alone hT ht hkind
    have hparts := hroom'.run.parts hT.toTags hroom'.size
      (show Sized w from ⟨by omega, by omega⟩) (by omega)
    obtain ⟨m', T', hrun, hchanges, d, hd⟩ := hroom'.giveLeader hparts
    refine ⟨m', T', ⟨t.addr + w, t.size - w, .inuse⟩, d, hrun, hchanges, rfl, rfl, rfl, ?_, ?_, ?_,
      hd.of_withChunks⟩
    · dsimp only
      omega
    · dsimp only
      rw [hspot]
      exact hdvd
    · rw [Region.mem_bytes, hshaped.finish_eq, hshaped.toNat_next]
      change t.addr.toNat ≤ (t.addr + w).toNat ∧ (t.addr + w).toNat < _
      omega

theorem carveAligned_eq {p : Word} {m₁ : MallocState} {aligned}
    (haligned : aligned = alignChunk alignment ⟨p, m.chunks.chunksize p⟩)
    (h : (if aligned.2.isSome then giveLeader p aligned.1.addr aligned.1.size m else .ok m) =
      .ok m₁) :
    carveAligned alignment nb p m =
      (if nb + minChunkSize < m₁.chunks.chunksize aligned.1.addr then
        splitOff aligned.1.addr nb (m₁.chunks.chunksize aligned.1.addr - nb) m₁ else .ok m₁).map
        (chunk2mem aligned.1.addr, ·) := by
  subst haligned
  unfold carveAligned
  dsimp only
  have hrest : ∀ size q, (if nb + minChunkSize < size then
        (splitOff q nb (size - nb) m₁ >>= fun m => pure (chunk2mem q, m))
      else (Except.ok m₁ >>= fun m => pure (chunk2mem q, m)) : Except Halt _) =
      (if nb + minChunkSize < size then splitOff q nb (size - nb) m₁ else .ok m₁).map
        (chunk2mem q, ·) := by
    intro size q
    split_ifs
    · cases splitOff q nb (size - nb) m₁ <;> rfl
    · rfl
  by_cases hsome : (alignChunk alignment ⟨p, m.chunks.chunksize p⟩).2.isSome = true
  · rw [if_pos hsome] at h ⊢
    rw [h]
    exact hrest _ _
  · rw [if_neg hsome] at h ⊢
    cases h
    exact hrest _ _

/-- The chunk `u` is what is left of `t`: it is aligned and has the padded size, up to what is too
small to give back. -/
structure Carved (k : ℕ) (nb : Word) (aligned : Chunk × Option Chunk) (m m' : MallocState)
    (T T' : Set Tile) (t u : Tile) : Prop where
  changes : Changes m m' T T' {t} {u}
  inuse : u.kind = .inuse
  enough : nb.toNat ≤ u.size.toNat
  tight : u.size.toNat ≤ nb.toNat + 16
  spot : 2 ^ k ∣ (chunk2mem u.addr).toNat
  inside : u.addr.toNat ∈ t.region.bytes
  addr : u.addr = (trimChunk nb aligned.1).1.addr
  gives : ∃ m₁ leader remainder, Gives aligned.2 leader m m₁ ∧
    Gives (trimChunk nb aligned.1).2 remainder m₁ m'

/-- The end of `internal_memalign`, for a chunk that is large enough. -/
theorem Tiled.carveAligned (hT : Tiled m T) (ht : t ∈ T) (hkind : t.kind = .inuse) {k : ℕ}
    (hk4 : 4 ≤ k) (hk31 : k ≤ 31) (hnb : Sized nb)
    (hroom : nb.toNat + 2 ^ k + 16 ≤ t.size.toNat) {aligned}
    (haligned : aligned = alignChunk (BitVec.ofNat 32 (2 ^ k)) ⟨t.addr, m.chunks.chunksize t.addr⟩) :
    ∃ m' T' u,
      Dlmalloc.carveAligned (BitVec.ofNat 32 (2 ^ k)) nb t.addr m = .ok (chunk2mem u.addr, m') ∧
        Carved k nb aligned m m' T T' t u := by
  have hsize := (hT.tagged t ht).size
  obtain ⟨m₁, T₁, u, leader, hlead, hfirst, hused, haddr, husize, henough, hdvd, hin, hgives⟩ :=
    hT.alignLeader ht hkind hk4 hk31 hroom (haligned.trans (by rw [hsize]))
  have hu : u ∈ used T₁ := by
    rw [hfirst.used]
    exact Or.inr rfl
  have hnew : ∀ x ∈ used T, x ∉ ({t} : Set Tile) → x ∉ ({u} : Set Tile) := by
    rintro x hx hxt rfl
    exact hxt (hT.separate.eq hx.1 ht (hT.shaped x hx.1).addr_mem hin)
  have hnbmod := hnb.mod
  have hsum : (nb + minChunkSize).toNat = nb.toNat + 16 := by
    rw [minChunkSize_eq]
    have := u.size.isLt
    exact BitVec.toNat_add_of_lt (show nb.toNat + 16 < 2 ^ 32 by omega)
  rw [carveAligned_eq haligned hlead, ← haddr, (hfirst.tiled.tagged u hu.1).size]
  by_cases htrim : nb + minChunkSize < u.size
  · rw [if_pos htrim]
    have htrim' := word_lt.mp htrim
    rw [hsum] at htrim'
    have hroom' := Room.alone hfirst.tiled hu.1 hused
    have hparts := hroom'.run.parts hfirst.tiled.toTags hroom'.size hnb (by omega)
    obtain ⟨m', T', hrun, hresized, d, hd⟩ := hroom'.splitOff hparts
    rw [show withChunks m₁.chunks m₁ = m₁ from rfl] at hrun
    have hboth := hfirst.trans hresized.changes hnew
    rw [Set.sdiff_self, Set.empty_union] at hboth
    refine ⟨m', T', ⟨u.addr, nb, .inuse⟩, ?_, hboth, rfl, le_refl _, by dsimp only; omega, hdvd, hin,
      ?_, m₁, leader, d, hgives, ?_⟩
    · rw [hrun]
      rfl
    · rw [trimChunk, ← husize, if_pos htrim]
      exact haddr
    · rw [trimChunk, ← husize, if_pos htrim]
      exact hd.of_withChunks
  · rw [if_neg htrim]
    have htrim' := htrim
    rw [word_lt, hsum] at htrim'
    refine ⟨m₁, T₁, u, rfl, hfirst, hused, by omega, by omega, hdvd, hin, ?_, m₁, leader,
      .binned m₁.chunks, hgives, ?_⟩
    · rw [trimChunk, ← husize, if_neg htrim]
      exact haddr
    · rw [trimChunk, ← husize, if_neg htrim]
      rfl

end WasmCxxShim.Dlmalloc
