import WasmCxxShim.DlmallocContents
import WasmCxxShim.DlmallocTiledHeap

/-!
# Blocks and their contents

What the public functions of the allocator do, in terms of the blocks that the program has: `realloc`
keeps the common prefix of the contents, `calloc` clears the block, `aligned_alloc` keeps to the
alignment, and no function changes the contents of a block that it does not take back.
-/
namespace WasmCxxShim.Dlmalloc
open MachineWords WordBytes HaltingPrograms AddressRegions AddressTilings LinearMemory

variable {layout : HeapLayout} {w w' w'' : World} {m m' : MallocState} {c c' : ChunkStore}
  {T T' R R' gone gone' fresh : Set Tile} {t u : Tile} {nb bytes p : Word}

/-- What counts of the chunks that are gone is which of the program's they are. -/
theorem Moves.congr_gone (h : Moves layout w w' T R T' R' gone fresh)
    (hgone : ∀ x ∈ Dlmalloc.given T R, x ∈ gone ↔ x ∈ gone') : Moves layout w w' T R T' R' gone' fresh := by
  refine ⟨h.heap, ?_, fun x hx hnot => h.untouched x hx (mt (hgone x hx).mp hnot)⟩
  rw [h.given]
  congr 1
  ext x
  exact and_congr_right fun hx => not_congr (hgone x hx)

namespace TiledHeap

/-- The program's chunk `t` is written to. -/
theorem rewrite (h : TiledHeap layout w T R) (ht : t ∈ given T R)
    (hc : Rewrites t w.gm.chunks c') :
    Moves layout w { w with gm := withChunks c' w.gm } T R T R {t} {t} :=
  h.changes (h.inv.bins c') (h.tiled.rewrite ht.1 hc) (fun _ hx => hx ▸ ht.2)
    fun _ hx => hx ▸ ht.2

/-- `dlfree` takes the chunk back. -/
theorem dlfree (h : TiledHeap layout w T R) (ht : t ∈ given T R) :
    wp (Engine.dlfree (chunk2mem t.addr)) (fun _ w' => ∃ T', Moves layout w w' T R T' R {t} ∅)
      (fun _ _ => False) w := by
  obtain ⟨m', hrun, ⟨d, hd⟩, T', hchanges⟩ := h.tiled.dlfree ht.1.1 ht.1.2
  refine onState_wp (by rw [hrun]; rfl) ⟨T', h.changes (h.inv.of_disposes hd) hchanges ?_ ?_⟩
  · exact fun _ hx => hx ▸ ht.2
  · exact fun _ hx => hx.elim

/-- `try_realloc_chunk` leaves all as it is, or resizes the chunk where it is. -/
theorem tryReallocChunk (h : TiledHeap layout w T R) (ht : t ∈ given T R)
    (hsize : bytes.toNat < 4294967232) :
    wp (Engine.tryReallocChunk t.addr (request2size bytes))
      (fun resized w' => resized = false ∧ w' = w ∨ resized = true ∧
        ∃ T' u, Moves layout w w' T R T' R {t} {u} ∧ u.addr = t.addr ∧
          bytes.toNat + 4 ≤ u.size.toNat ∧ Kept w.gm.chunks w'.gm.chunks t u)
      (fun _ _ => False) w := by
  obtain ⟨hnb, hroom, -⟩ := sized_request2size hsize
  rcases h.tiled.resizeChunk ht.1.1 ht.1.2 hnb with ⟨hnone, -⟩ | ⟨m', T', u, hrun, hresized, r, hr⟩
  · exact onState_wp (m := w.gm) (a := false) (by rw [hnone]; rfl) (Or.inl ⟨rfl, rfl⟩)
  · refine onState_wp (m := m') (a := true) (by rw [hrun]; rfl) (Or.inr ⟨rfl, T', u, ?_, hresized.addr,
      hroom.trans hresized.enough, hresized.kept⟩)
    refine h.changes (h.inv.of_resizes hr) hresized.changes (fun _ hx => hx ▸ ht.2) ?_
    rintro x rfl
    exact h.not_record ht (hresized.addr ▸ (h.tiled.shaped t ht.1.1).addr_mem)

end TiledHeap

theorem padded_room (hnb : (paddedSize bytes).toNat ≤ t.size.toNat) (ht : t.Shaped) :
    bytes.toNat + 4 ≤ t.size.toNat := by
  have hmod := ht.size
  have hlt := t.size.isLt
  have hsmall : maxSmallRequest.toNat = 236 := by decide
  have hhuge : maxRequest.toNat = 4294967232 := by decide
  unfold paddedSize at hnb
  split_ifs at hnb with hle hge
  · rw [word_le] at hle
    exact (sized_request2size (by omega)).2.1.trans hnb
  · have hmax : maxSizeT.toNat = 4294967295 := by decide
    omega
  · rw [BitVec.not_le, word_lt, hhuge] at hge
    rw [toNat_padRequest] at hnb
    omega

/-- The program gets a block of `n` bytes at a multiple of `d`. -/
structure Lends (layout : HeapLayout) (d n : ℕ) (p : Word) (w w' : World) (T R T' R' : Set Tile)
    (t : Tile) : Prop where
  moves : Moves layout w w' T R T' R' ∅ {t}
  mem : p = chunk2mem t.addr
  room : n + 4 ≤ t.size.toNat
  spot : d ∣ p.toNat
  new : t ∉ given T R

theorem Lends.mem_given (h : Lends layout d n p w w' T R T' R' t) : t ∈ given T' R' := by
  rw [h.moves.given]
  exact Or.inr rfl

theorem Lends.shaped (h : Lends layout d n p w w' T R T' R' t) : t.Shaped :=
  h.moves.heap.tiled.shaped t h.mem_given.1.1

/-- A request returns NULL, or the program gets a block for which `filled` holds. -/
def Gets (layout : HeapLayout) (d n : ℕ) (filled : Word → World → Prop) (w : World) (T R : Set Tile)
    (p : Word) (w' : World) : Prop :=
  p = 0 ∧ (∃ T' R', Moves layout w w' T R T' R' ∅ ∅) ∨
    ∃ T' R' t, Lends layout d n p w w' T R T' R' t ∧ filled p w'

namespace TiledHeap

theorem malloc (h : TiledHeap layout w T R) (hend : 16 ∣ layout.heapEnd.toNat) (bytes : Word) :
    wp (Engine.dlmalloc layout bytes) (Gets layout 16 bytes.toNat (fun _ _ => True) w T R)
      (fun r _ => r = .sbrkTrap) w := by
  refine wp_mono (h.dlmalloc hend bytes) ?_ fun _ _ hr => hr
  rintro p w' (hnull | ⟨T', R', t, hmoves, rfl, henough, -, hnew⟩)
  · exact Or.inl hnull
  · have ht : t ∈ given T' R' := by
      rw [hmoves.given]
      exact Or.inr rfl
    have hshaped := hmoves.heap.tiled.shaped t ht.1.1
    have haddr := hshaped.addr
    refine Or.inr ⟨T', R', t, ⟨hmoves, rfl, padded_room henough hshaped, ?_, hnew⟩, trivial⟩
    rw [hshaped.toNat_mem]
    omega

end TiledHeap

/-- `dlcalloc` notices when the product overflows. -/
theorem callocRequest_cases (n size : Word) : callocRequest n size = maxSizeT ∨
    (callocRequest n size).toNat = n.toNat * size.toNat := by
  unfold callocRequest
  dsimp only
  split_ifs with hzero hover
  · exact Or.inl rfl
  · right
    rw [BitVec.toNat_mul]
    refine Nat.mod_eq_of_lt ?_
    rw [not_and_or, not_not, not_not] at hover
    rcases hover with hsmall | hquot
    · have hmask := toNat_and_not_mask (k := 16) (by omega) (n ||| size)
      have hlow : (BitVec.ofNat 32 (2 ^ 16) - 1 : Word) = 0xffff := by decide
      rw [hlow, hsmall, BitVec.toNat_or] at hmask
      have hn := Nat.left_le_or (n := n.toNat) (m := size.toNat)
      have hs := Nat.right_le_or (n := n.toNat) (m := size.toNat)
      have hzero : (0 : Word).toNat = 0 := rfl
      calc n.toNat * size.toNat ≤ 65535 * 65535 := Nat.mul_le_mul (by omega) (by omega)
        _ < 2 ^ 32 := by norm_num
    · have hquot' := congrArg BitVec.toNat hquot
      rw [BitVec.toNat_udiv, BitVec.toNat_mul] at hquot'
      have hle := Nat.div_mul_le_self (n.toNat * size.toNat % 2 ^ 32) n.toNat
      rw [hquot', Nat.mul_comm] at hle
      exact hle.trans_lt (Nat.mod_lt _ (by norm_num))
  · have hn : n = 0 := not_not.mp hzero
    simp [hn]

theorem Tile.Shaped.block_room (ht : t.Shaped) {n : ℕ} (hn : n + 4 ≤ t.size.toNat) :
    (chunk2mem t.addr).toNat + n < 4294967296 ∧
      (chunk2mem t.addr).toNat + n ≤ t.next.toNat + 4 := by
  have haddr := ht.addr
  have hsize := ht.size
  have hnext := ht.toNat_next
  have hmem := ht.toNat_mem
  have hbelow := ht.below
  omega

theorem toNat_place {i n : ℕ} (hi : i < n) (hroom : p.toNat + n < 4294967296) :
    (p + BitVec.ofNat 32 i).toNat = p.toNat + i := by
  have hoff : (BitVec.ofNat 32 i).toNat = i := by
    rw [BitVec.toNat_ofNat]
    exact Nat.mod_eq_of_lt (by omega)
  rw [BitVec.toNat_add_of_lt (by omega), hoff]

theorem Tile.Shaped.holds (ht : t.Shaped) {i : ℕ} (hi : i + 4 < t.size.toNat) :
    t.Holds (chunk2mem t.addr + BitVec.ofNat 32 i).toNat := by
  obtain ⟨hroom, hin⟩ := ht.block_room (n := i + 1) (by omega)
  have hplace := toNat_place (p := chunk2mem t.addr) (show i < i + 1 by omega) hroom
  have hmem := ht.toNat_mem
  exact ⟨by omega, by omega⟩

namespace TiledHeap

theorem calloc (h : TiledHeap layout w T R) (hend : 16 ∣ layout.heapEnd.toNat) (n size : Word) :
    wp (Engine.dlcalloc layout n size) (Gets layout 16 (n.toNat * size.toNat)
      (fun p w' => ∀ i < n.toNat * size.toNat,
        w'.gm.chunks.loadByte (p + BitVec.ofNat 32 i) = 0) w T R)
      (fun r _ => r = .sbrkTrap) w := by
  rw [Engine.dlcalloc, wp_bind]
  refine wp_mono (h.malloc hend _) ?_ fun _ _ hr => hr
  rintro p w' (⟨rfl, hmoves⟩ | ⟨T', R', t, ⟨hmoves, rfl, hroom, hspot, hnew⟩, -⟩)
  · exact Or.inl ⟨rfl, hmoves⟩
  have ht : t ∈ given T' R' := by
    rw [hmoves.given]
    exact Or.inr rfl
  have hshaped := hmoves.heap.tiled.shaped t ht.1.1
  have hmem := hshaped.toNat_mem
  have hsize : (callocRequest n size).toNat = n.toNat * size.toNat := by
    refine (callocRequest_cases n size).resolve_left fun hmax => ?_
    have hword : maxSizeT.toNat = 4294967295 := by decide
    have := t.size.isLt
    rw [hmax] at hroom
    omega
  have hclear : w'.gm.chunks.callocMustClear (mem2chunk (chunk2mem t.addr)) = true := by
    rw [mem2chunk_chunk2mem, ChunkStore.callocMustClear,
      Tiled.not_mmapped hmoves.heap.tiled.toTags ht.1.1 ht.1.2]
    rfl
  obtain ⟨hbelow, hin⟩ := hshaped.block_room hroom
  have hfill := Rewrites.fillBytes (c := w'.gm.chunks) hshaped 0 (callocRequest n size).toNat
    hmem.ge hin hbelow
  have hboth := hmoves.trans (hmoves.heap.rewrite ht hfill)
  rw [if_neg (word_ne_zero.mpr (by omega)), wp_bind, wp_read, if_pos hclear]
  refine Or.inr ⟨T', R', t, ⟨?_, rfl, hsize ▸ hroom, hspot, hnew⟩, fun i hi => ?_⟩
  · rw [Set.empty_union, Set.sdiff_self, Set.empty_union] at hboth
    refine hboth.congr_gone fun x hx => iff_of_false ?_ id
    rintro rfl
    exact hnew hx
  · rw [← hsize] at hi
    have hplace := toNat_place hi hbelow
    have hread := loadByte_fillBytes 0 (callocRequest n size).toNat (chunk2mem t.addr)
      w'.gm.chunks hbelow (chunk2mem t.addr + BitVec.ofNat 32 i)
    rw [if_pos (by omega)] at hread
    exact hread

end TiledHeap

/-- The alignment that a request can rely on: at least that of `malloc`, and the next power of two
if it is not one. -/
def alignmentOf (a : Word) : ℕ := 2 ^ max 4 (Nat.clog 2 a.toNat)

namespace TiledHeap

theorem memalignServe (h : TiledHeap layout w T R) (hend : 16 ∣ layout.heapEnd.toNat) {k : ℕ}
    (hk4 : 4 ≤ k) (hk31 : k ≤ 31) {alignment : Word} (halign : alignment = BitVec.ofNat 32 (2 ^ k))
    (bytes : Word) {request : Option Word} (hreq : memalignRequest alignment bytes = request) :
    wp (Engine.memalignServe layout alignment bytes request)
      (Gets layout (2 ^ k) bytes.toNat (fun _ _ => True) w T R) (fun r _ => r = .sbrkTrap) w := by
  cases request with
  | none => exact Or.inl ⟨rfl, T, R, .still h rfl⟩
  | some req =>
    subst halign
    obtain ⟨hcovers, hreqsize⟩ := memalignRequest_eq hk31 hreq
    have hsmall : bytes.toNat < 4294967232 := by
      have hpow := toNat_pow (k := k) (by omega)
      have hle : 2 ^ k ≤ 2147483648 := Nat.pow_le_pow_right (n := 2) (by omega) hk31
      unfold memalignRequest at hreq
      split_ifs at hreq with hbig
      rw [maxRequest_eq, BitVec.not_le, word_lt, BitVec.toNat_sub_of_le (by
        rw [word_le, hpow]
        exact hle.trans (by decide))] at hbig
      exact hbig.trans_le (Nat.sub_le _ _)
    rw [Engine.memalignServe, wp_bind]
    refine wp_mono (h.malloc hend req) ?_ fun _ _ hr => hr
    rintro p w' (⟨rfl, hmoves⟩ | ⟨T', R', t, ⟨hmoves, rfl, hroom, -, hnew⟩, -⟩)
    · exact Or.inl ⟨rfl, hmoves⟩
    have ht : t ∈ given T' R' := by
      rw [hmoves.given]
      exact Or.inr rfl
    have hheap := hmoves.heap
    have hmem := (hheap.tiled.shaped t ht.1.1).toNat_mem
    obtain ⟨m', T'', u, hrun, hcarved⟩ := hheap.tiled.carveAligned ht.1.1 ht.1.2 hk4 hk31
      (sized_request2size hsmall).1 (by omega) rfl
    have hu := hheap.not_record ht hcarved.inside
    obtain ⟨m₁, leader, remainder, hlead, htrim⟩ := hcarved.gives
    have hinv := (hheap.inv.of_gives hlead).of_gives (w := { w' with gm := m₁ }) htrim
    have hboth := hmoves.trans (hheap.changes hinv hcarved.changes (fun _ hx => hx ▸ ht.2)
      fun _ hx => hx ▸ hu)
    rw [Set.empty_union, Set.sdiff_self, Set.empty_union] at hboth
    rw [if_neg (word_ne_zero.mpr (by omega)), mem2chunk_chunk2mem]
    refine onState_wp hrun (Or.inr ⟨T'', R', u, ⟨hboth.congr_gone fun x hx => iff_of_false ?_ id, rfl,
      hcovers.trans hcarved.enough, hcarved.spot, fun hbad => ?_⟩, trivial⟩)
    · rintro rfl
      exact hnew hx
    · -- A block of the program there would overlap the chunk that was just obtained.
      have hold : u ∈ given T' R' := by
        rw [hmoves.given]
        exact Or.inl ⟨hbad, id⟩
      have heq := hheap.tiled.separate.eq hold.1.1 ht.1.1
        (hheap.tiled.shaped u hold.1.1).addr_mem hcarved.inside
      exact hnew (heq ▸ hbad)

theorem memalign (h : TiledHeap layout w T R) (hend : 16 ∣ layout.heapEnd.toNat) (a bytes : Word) :
    wp (Engine.dlmemalign layout a bytes)
      (Gets layout (alignmentOf a) bytes.toNat (fun _ _ => True) w T R)
      (fun r _ => r = .sbrkTrap ∨ r = .hang ∧ 2147483648 < a.toNat) w := by
  rw [Engine.dlmemalign]
  split_ifs with hsmall
  · refine wp_mono (h.malloc hend bytes) ?_ fun _ _ hr => Or.inl hr
    rintro p w' (hnull | ⟨T', R', t, hlends, -⟩)
    · exact Or.inl hnull
    refine Or.inr ⟨T', R', t, ⟨hlends.moves, hlends.mem, hlends.room, ?_, hlends.new⟩, trivial⟩
    rw [word_le, toNat_mallocAlignment] at hsmall
    rw [alignmentOf, max_eq_left (Nat.clog_le_of_le_pow hsmall)]
    exact hlends.spot
  rw [word_le, toNat_mallocAlignment] at hsmall
  by_cases hbig : a.toNat ≤ 2147483648
  · obtain ⟨k, hk4, hk31, hpow, hround⟩ := roundAlignment_returns hbig
    have hrun := hround 32 (le_refl _)
    generalize halign : BitVec.ofNat 32 (2 ^ k) = alignment at hrun
    generalize hreq : memalignRequest alignment bytes = request
    have hserve : Engine.internalMemalign layout a bytes =
        Engine.memalignServe layout alignment bytes request := by
      rw [Engine.internalMemalign, hrun, ← hreq]
    rw [hserve]
    refine wp_mono (h.memalignServe hend hk4 hk31 halign.symm bytes hreq) ?_
      fun _ _ hr => Or.inl hr
    rintro p w' (hnull | ⟨T', R', t, hlends, -⟩)
    · exact Or.inl hnull
    refine Or.inr ⟨T', R', t, ⟨hlends.moves, hlends.mem, hlends.room, ?_, hlends.new⟩, trivial⟩
    rw [alignmentOf, ← hpow (by omega), max_eq_right hk4]
    exact hlends.spot
  · rw [Engine.internalMemalign, roundAlignment_hangs (Nat.lt_of_not_le hbig) 32]
    exact Or.inr ⟨rfl, Nat.lt_of_not_le hbig⟩

end TiledHeap

/-- The program's chunk `t` is now the chunk `u` with the same contents, as far as both reach. -/
structure Relends (layout : HeapLayout) (bytes p : Word) (w w' : World) (T R T' R' : Set Tile)
    (t u : Tile) : Prop where
  moves : Moves layout w w' T R T' R' {t} {u}
  mem : p = chunk2mem u.addr
  room : bytes.toNat + 4 ≤ u.size.toNat
  spot : 16 ∣ p.toNat
  new : u ∈ given T R → u = t
  kept : ∀ i < bytes.toNat, i + 4 < t.size.toNat → w'.gm.chunks.loadByte (p + BitVec.ofNat 32 i) =
    w.gm.chunks.loadByte (chunk2mem t.addr + BitVec.ofNat 32 i)

/-- `realloc` returns NULL and leaves the chunk as it is, or resizes or moves it. -/
def Reallocates (layout : HeapLayout) (bytes : Word) (w : World) (T R : Set Tile) (t : Tile)
    (p : Word) (w' : World) : Prop :=
  p = 0 ∧ (∃ T' R', Moves layout w w' T R T' R' ∅ ∅) ∨
    ∃ T' R' u, Relends layout bytes p w w' T R T' R' t u

namespace TiledHeap

/-- Different chunks of the program. -/
theorem apart (h : TiledHeap layout w T R) (ht : t ∈ given T R) (hu : u ∈ given T R) (hne : t ≠ u) :
    t.next.toNat ≤ u.addr.toNat ∨ u.next.toNat ≤ t.addr.toNat := by
  have hbeside := h.tiled.separate t ht.1.1 u hu.1.1 hne
  rw [Beside, (h.tiled.shaped t ht.1.1).finish_eq, (h.tiled.shaped u hu.1.1).finish_eq] at hbeside
  exact hbeside

/-- The end of `dlrealloc`: the contents go to a new chunk. -/
theorem reallocMove (h : TiledHeap layout w T R) (hend : 16 ∣ layout.heapEnd.toNat)
    (ht : t ∈ given T R) (bytes : Word) :
    wp (Engine.reallocMove layout (chunk2mem t.addr) bytes) (Reallocates layout bytes w T R t)
      (fun r _ => r = .sbrkTrap) w := by
  rw [Engine.reallocMove, wp_bind]
  refine wp_mono (h.malloc hend bytes) ?_ fun _ _ hr => hr
  rintro p w₁ (⟨rfl, hmoves⟩ | ⟨T₁, R₁, u, hlends, -⟩)
  · exact Or.inl ⟨rfl, hmoves⟩
  have hu := hlends.mem_given
  obtain ⟨hmoves, rfl, hroom, hspot, hnew⟩ := hlends
  have ht₁ : t ∈ given T₁ R₁ := by
    rw [hmoves.given]
    exact Or.inl ⟨ht, id⟩
  have hne : t ≠ u := by
    rintro rfl
    exact hnew ht
  have hheap := hmoves.heap
  have hshaped := hheap.tiled.shaped t ht₁.1.1
  have hshaped' := hheap.tiled.shaped u hu.1.1
  have hmem := hshaped.toNat_mem
  have hmem' := hshaped'.toNat_mem
  have hapart := hheap.apart ht₁ hu hne
  -- How much is copied.
  have hoverhead : w₁.gm.chunks.overheadFor t.addr = 4 := by
    rw [ChunkStore.overheadFor, Tiled.not_mmapped hheap.tiled.toTags ht₁.1.1 ht₁.1.2]
    rfl
  have hlarge := hshaped.large
  have hoc : (t.size - 4).toNat = t.size.toNat - 4 :=
    BitVec.toNat_sub_of_le (show 4 ≤ t.size.toNat by omega)
  generalize hn : (if t.size - 4 < bytes then t.size - 4 else bytes).toNat = n
  have hcount : n = min (t.size.toNat - 4) bytes.toNat := by
    rw [← hn]
    split_ifs with hless
    · rw [word_lt, hoc] at hless
      omega
    · rw [word_lt, hoc] at hless
      omega
  obtain ⟨hbelow, hin⟩ := hshaped.block_room (n := n) (by omega)
  obtain ⟨hbelow', hin'⟩ := hshaped'.block_room (n := n) (by omega)
  have hnext := hshaped.toNat_next
  have hnext' := hshaped'.toNat_next
  have hcopied := hheap.rewrite hu (Rewrites.copyBytes hshaped' n (chunk2mem t.addr) hmem'.ge hin'
    hbelow')
  rw [if_neg (word_ne_zero.mpr (by omega)), wp_bind, wp_read]
  dsimp only
  rw [mem2chunk_chunk2mem, hoverhead, (hheap.tiled.tagged t ht₁.1.1).size, hn, wp_bind]
  change wp (Engine.dlfree (chunk2mem t.addr) >>= fun _ => pure (chunk2mem u.addr)) _ _ _
  rw [wp_bind]
  refine wp_mono (hcopied.heap.dlfree ht₁) ?_ fun _ _ hno => hno.elim
  rintro _ w₃ ⟨T₃, hfree⟩
  have hall := (hmoves.trans hcopied).trans hfree
  refine Or.inr ⟨T₃, R₁, u, ⟨?_, rfl, hroom, hspot, fun hbad => absurd hbad hnew,
    fun i hi hsize => ?_⟩⟩
  · have hfresh : (({u} \ {u} ∪ {u}) \ {t} ∪ ∅ : Set Tile) = {u} := by
      ext x
      simp only [Set.sdiff_self, Set.empty_union, Set.union_empty, Set.mem_sdiff,
        Set.mem_singleton_iff]
      exact ⟨fun hx => hx.1, fun hx => ⟨hx, fun heq => hne (heq.symm.trans hx)⟩⟩
    rw [hfresh] at hall
    refine hall.congr_gone fun x hx => ?_
    simp only [Set.empty_union, Set.mem_union, Set.mem_singleton_iff]
    refine or_iff_right ?_
    rintro rfl
    exact hnew hx
  · -- The byte was copied from `t`, which `malloc` left alone, and the free left `u` alone.
    have hi' : i < n := by omega
    have hplace := toNat_place hi' hbelow
    have hplace' := toNat_place hi' hbelow'
    have hsource := (hmoves.untouched t ht id).loadByte hshaped (hshaped.holds hsize)
    have hread := loadByte_copyBytes n (chunk2mem u.addr) (chunk2mem t.addr) w₁.gm.chunks hbelow'
      hbelow (by omega) (chunk2mem u.addr + BitVec.ofNat 32 i)
    have hoffset : chunk2mem u.addr + BitVec.ofNat 32 i - chunk2mem u.addr + chunk2mem t.addr =
        chunk2mem t.addr + BitVec.ofNat 32 i := by
      rw [BitVec.add_comm (chunk2mem u.addr), BitVec.add_sub_cancel, BitVec.add_comm]
    rw [if_pos (by omega), hoffset, hsource] at hread
    have hlast := (hfree.untouched u hu fun heq => hne heq.symm).loadByte hshaped'
      (hshaped'.holds (i := i) (by omega))
    exact hlast.trans hread

theorem realloc (h : TiledHeap layout w T R) (hend : 16 ∣ layout.heapEnd.toNat)
    (ht : t ∈ given T R) (bytes : Word) :
    wp (Engine.dlrealloc layout (chunk2mem t.addr) bytes) (Reallocates layout bytes w T R t)
      (fun r _ => r = .sbrkTrap) w := by
  have hshaped := h.tiled.shaped t ht.1.1
  have hmem := hshaped.toNat_mem
  rw [Engine.dlrealloc, if_neg (word_ne_zero.mpr (by omega))]
  split_ifs with hhuge
  · exact Or.inl ⟨rfl, T, R, .still h rfl⟩
  have hmax : maxRequest.toNat = 4294967232 := by decide
  rw [BitVec.not_le, word_lt, hmax] at hhuge
  rw [wp_bind, mem2chunk_chunk2mem]
  refine wp_mono (h.tryReallocChunk ht hhuge) ?_ fun _ _ hno => hno.elim
  rintro resized w' (⟨rfl, rfl⟩ | ⟨rfl, T', u, hmoves, haddr, hroom, hkept⟩)
  · exact h.reallocMove hend ht bytes
  · have hu : u ∈ given T' R := by
      rw [hmoves.given]
      exact Or.inr rfl
    have hshaped' := hmoves.heap.tiled.shaped u hu.1.1
    refine Or.inr ⟨T', R, u, ⟨hmoves, by rw [haddr], hroom, ?_, fun hold =>
      h.tiled.eq_of_addr hold.1.1 ht.1.1 haddr, fun i hi hsize => ?_⟩⟩
    · have haddr' := hshaped.addr
      rw [hmem]
      omega
    have hin := hshaped'.holds (i := i) (by omega)
    rw [haddr] at hin
    exact hkept.loadByte hshaped hshaped' (hshaped.holds hsize) hin

end TiledHeap

end WasmCxxShim.Dlmalloc
