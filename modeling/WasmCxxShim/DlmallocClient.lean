import WasmCxxShim.BlockStores
import WasmCxxShim.DlmallocBlocks

/-!
# The allocator implements a store of blocks

A program calls the allocator, reads and writes its blocks and shares the module with others that
grow memory. The world is followed by a store of blocks, which says what the program has and what it
has written there. As long as the program uses only blocks that it has, every answer is one that the
store allows.
-/
namespace WasmCxxShim.Dlmalloc
open MachineWords WordBytes HaltingPrograms AddressTilings BlockStores LinearMemory

inductive Call
  | malloc (size : Word)
  | newNothrow (size : Word)
  | calloc (n size : Word)
  | realloc (ptr size : Word)
  | alignedAlloc (a size : Word)
  | free (ptr : Word)
  | store (ptr : Word) (i : ℕ) (b : Byte)
  | load (ptr : Word) (i : ℕ)
  | grow (delta : Word)
  deriving DecidableEq, Repr

/-- What a pointer says: NULL is no block. -/
def pointer (p : Word) : Answer Byte := .block (if p = 0 then none else some p.toNat)

/-- A call of the program, or a `memory.grow` by another party. -/
def Engine.serve (layout : HeapLayout) : Call → Alloc (Answer Byte)
  | .malloc size => do return pointer (← Engine.dlmalloc layout size)
  | .newNothrow size => do return pointer (← Engine.dlmalloc layout size)
  | .calloc n size => do return pointer (← Engine.dlcalloc layout n size)
  | .realloc ptr size => do return pointer (← Engine.dlrealloc layout ptr size)
  | .alignedAlloc a size => do return pointer (← Engine.dlmemalign layout a size)
  | .free ptr => do
    Engine.dlfree ptr
    return .done
  | .store ptr i b => do
    modifyChunks (ChunkStore.storeByte (ptr + BitVec.ofNat 32 i) b)
    return .done
  | .load ptr i => do return .value ((← read).gm.chunks.loadByte (ptr + BitVec.ofNat 32 i))
  | .grow delta => do
    modify fun w => { w with env := foreignGrow delta w.env }
    return .done

/-- What a call means to the store; nothing, if it frees NULL or comes from another party. -/
def Call.op : Call → Option (Op Byte)
  | .malloc size => some (.alloc 16 size.toNat)
  | .newNothrow size => some (.alloc 16 size.toNat)
  | .calloc n size => some (.allocFilled 16 (n.toNat * size.toNat) 0)
  | .realloc ptr size =>
    some (if ptr = 0 then .alloc 16 size.toNat else .resize 16 ptr.toNat size.toNat)
  | .alignedAlloc a size => some (.alloc (alignmentOf a) size.toNat)
  | .free ptr => if ptr = 0 then none else some (.release ptr.toNat)
  | .store ptr i b => some (.write ptr.toNat i b)
  | .load ptr i => some (.load ptr.toNat i)
  | .grow _ => none

/-- The world, followed by the store. -/
structure Client where
  world : World
  store : Store Byte

def Client.initial (memory : Memory) : Client := ⟨World.initial memory, Store.empty⟩

def advance (s : Store Byte) (answer : Answer Byte) : Option (Op Byte) → Store Byte
  | none => s
  | some op => next s op answer

def perform (layout : HeapLayout) (call : Call) : Program Halt Client (Answer Byte) := do
  let answer ← within Client.world (fun w c => { c with world := w }) (Engine.serve layout call)
  modify fun c => { c with store := advance c.store answer call.op }
  return answer

def clientStep (layout : HeapLayout) (call : Call) : Program Halt Client Unit := do
  let _ ← perform layout call

/-- The program uses only blocks that it has. -/
def LegalCall (call : Call) (c : Client) : Prop := ∀ op ∈ call.op, Legal c.store op

instance (call : Call) (c : Client) : Decidable (LegalCall call c) :=
  match h : call.op with
  | none => .isTrue fun _ hop => by rw [h] at hop; cases hop
  | some op => decidable_of_iff (Legal c.store op) (by simp [LegalCall, h])

/-- The answer is one that the store allows. -/
def AllowedAnswer (s : Store Byte) (call : Call) (answer : Answer Byte) : Prop :=
  ∀ op ∈ call.op, Allowed s op answer

variable {layout : HeapLayout} {c : Client} {w w' : World} {s s' : Store Byte}
  {T T' R R' gone fresh : Set Tile} {t u : Tile} {b : Block Byte}

/-- The address of the block in a chunk. -/
def Tile.mem (t : Tile) : ℕ := (chunk2mem t.addr).toNat

/-- The block fits into the chunk, and what is known of its contents is there. -/
structure Fills (chunks : ChunkStore) (t : Tile) (b : Block Byte) : Prop where
  room : b.size + 4 ≤ t.size.toNat
  contents : ∀ i < b.size, ∀ v ∈ b.contents i,
    chunks.loadByte (chunk2mem t.addr + BitVec.ofNat 32 i) = v

/-- The chunks of the program are the blocks of the store. -/
structure Backs (layout : HeapLayout) (w : World) (s : Store Byte) (T R : Set Tile) : Prop where
  heap : TiledHeap layout w T R
  block : ∀ t ∈ given T R, ∃ b, s t.mem = some b ∧ Fills w.gm.chunks t b
  chunk : ∀ a b, s a = some b → ∃ t ∈ given T R, t.mem = a

namespace Backs

theorem shaped (h : Backs layout w s T R) (ht : t ∈ given T R) : t.Shaped :=
  h.heap.tiled.shaped t ht.1.1

theorem eq_of_mem (h : Backs layout w s T R) (ht : t ∈ given T R) (hu : u ∈ given T R)
    (heq : t.mem = u.mem) : t = u := by
  have hmem := (h.shaped ht).toNat_mem
  have hmem' := (h.shaped hu).toNat_mem
  unfold Tile.mem at heq
  exact h.heap.tiled.eq_of_addr ht.1.1 hu.1.1 (BitVec.eq_of_toNat_eq (by omega))

/-- The chunk of a block that the program has. -/
theorem chunk_of_pointer (h : Backs layout w s T R) {ptr : Word} (hsome : s ptr.toNat = some b) :
    ∃ t ∈ given T R, ptr = chunk2mem t.addr ∧ Fills w.gm.chunks t b := by
  obtain ⟨t, ht, hmem⟩ := h.chunk _ _ hsome
  obtain ⟨b', hb', hfills⟩ := h.block t ht
  rw [hmem, hsome] at hb'
  cases hb'
  exact ⟨t, ht, BitVec.eq_of_toNat_eq hmem.symm, hfills⟩

/-- What is known of a block stays known where its chunk is not touched. -/
theorem fills_of_untouched (ht : t.Shaped) (hb : Fills w.gm.chunks t b)
    (h : Untouched w.gm.chunks w'.gm.chunks t) : Fills w'.gm.chunks t b := by
  refine ⟨hb.room, fun i hi v hv => ?_⟩
  have hroom := hb.room
  rw [h.loadByte ht (ht.holds (by omega))]
  exact hb.contents i hi v hv

/-- The store follows the moves of the chunks. -/
theorem follow (h : Backs layout w s T R) (hmoves : Moves layout w w' T R T' R' gone fresh)
    (hkept : ∀ t ∈ given T R, t ∉ gone → s' t.mem = s t.mem)
    (hfresh : ∀ t ∈ fresh, ∃ b, s' t.mem = some b ∧ Fills w'.gm.chunks t b)
    (hchunk : ∀ a b, s' a = some b → ∃ t ∈ given T' R', t.mem = a) : Backs layout w' s' T' R' := by
  refine ⟨hmoves.heap, fun t ht => ?_, hchunk⟩
  rw [hmoves.given] at ht
  rcases ht with ⟨ht, hnot⟩ | ht
  · obtain ⟨b, hb, hfills⟩ := h.block t ht
    exact ⟨b, (hkept t ht hnot).trans hb,
      fills_of_untouched (h.shaped ht) hfills (hmoves.untouched t ht hnot)⟩
  · exact hfresh t ht

theorem still (h : Backs layout w s T R) (hmoves : Moves layout w w' T R T' R' ∅ ∅) :
    Backs layout w' s T' R' := by
  refine h.follow hmoves (fun _ _ _ => rfl) (fun _ hx => hx.elim) fun a b hb => ?_
  rw [hmoves.given, Set.sdiff_empty, Set.union_empty]
  exact h.chunk a b hb

/-- There is room where a chunk is newly given to the program. -/
theorem free_of_fresh (hmoves : Moves layout w w' T R T' R' gone {t})
    (hnew : t ∈ given T R → t ∈ gone) {n : ℕ} (hroom : n + 4 ≤ t.size.toNat)
    (hold : ∀ a b, s a = some b → ∃ x ∈ given T R, x ∉ gone ∧ x.mem = a ∧ b.size + 4 ≤ x.size.toNat) :
    Free s t.mem n := by
  have ht : t ∈ given T' R' := by
    rw [hmoves.given]
    exact Or.inr rfl
  have hshaped := hmoves.heap.tiled.shaped t ht.1.1
  have hmem := hshaped.toNat_mem
  have hnext := hshaped.toNat_next
  have hother : ∀ a b, s a = some b → ∃ x ∈ given T' R', x ≠ t ∧ x.mem = a ∧
      b.size + 4 ≤ x.size.toNat := by
    intro a b hb
    obtain ⟨x, hx, hnot, hxa, hsize⟩ := hold a b hb
    refine ⟨x, ?_, ?_, hxa, hsize⟩
    · rw [hmoves.given]
      exact Or.inl ⟨hx, hnot⟩
    · rintro rfl
      exact hnot (hnew hx)
  have hbeside : ∀ x ∈ given T' R', x ≠ t → t.next.toNat ≤ x.addr.toNat ∨ x.next.toNat ≤ t.addr.toNat :=
    fun x hx hne => hmoves.heap.apart ht hx hne.symm
  refine ⟨?_, fun a b hb => ?_⟩
  · cases hs : s t.mem with
    | none => rfl
    | some b =>
      obtain ⟨x, hx, hne, hxt, -⟩ := hother _ b hs
      have hxmem := (hmoves.heap.tiled.shaped x hx.1.1).toNat_mem
      have hxnext := (hmoves.heap.tiled.shaped x hx.1.1).toNat_next
      have hxlarge := (hmoves.heap.tiled.shaped x hx.1.1).large
      have hlarge := hshaped.large
      have := hbeside x hx hne
      unfold Tile.mem at hxt
      omega
  · obtain ⟨x, hx, hne, hxa, hsize⟩ := hother a b hb
    have hxmem := (hmoves.heap.tiled.shaped x hx.1.1).toNat_mem
    have hxnext := (hmoves.heap.tiled.shaped x hx.1.1).toNat_next
    have := hbeside x hx hne
    unfold Tile.mem at hxa ⊢
    omega

/-- The program gets a block. -/
theorem lend (h : Backs layout w s T R) {d n : ℕ} {p : Word}
    (hlends : Lends layout d n p w w' T R T' R' t) (hsize : b.size = n)
    (hcontents : ∀ i < n, ∀ v ∈ b.contents i, w'.gm.chunks.loadByte (p + BitVec.ofNat 32 i) = v) :
    Free s p.toNat n ∧ Backs layout w' (s.put p.toNat (some b)) T' R' := by
  have ht := hlends.mem_given
  obtain ⟨hmoves, rfl, hroom, -, hnew⟩ := hlends
  have hfree : Free s t.mem n := free_of_fresh hmoves (fun hbad => absurd hbad hnew) hroom
    fun a b' hb => by
      obtain ⟨x, hx, hxa⟩ := h.chunk a b' hb
      obtain ⟨b'', hb'', hfills⟩ := h.block x hx
      rw [hxa, hb] at hb''
      cases hb''
      exact ⟨x, hx, id, hxa, hfills.room⟩
  refine ⟨hfree, h.follow hmoves (fun x hx _ => ?_) ?_ fun a b' hb => ?_⟩
  · refine Store.put_of_ne (fun heq => ?_) _ _
    obtain ⟨b', hb', -⟩ := h.block x hx
    change x.mem = t.mem at heq
    rw [heq, hfree.unused] at hb'
    cases hb'
  · rintro x rfl
    exact ⟨b, Store.put_self .., hsize ▸ hroom, hsize ▸ hcontents⟩
  · by_cases heq : a = t.mem
    · exact ⟨t, ht, heq.symm⟩
    · rw [Store.put_of_ne (show a ≠ (chunk2mem t.addr).toNat from heq)] at hb
      obtain ⟨x, hx, hxa⟩ := h.chunk a b' hb
      refine ⟨x, ?_, hxa⟩
      rw [hmoves.given]
      exact Or.inl ⟨hx, id⟩

/-- The blocks of the store without one of them. -/
theorem others_back (h : Backs layout w s T R) (ht : t ∈ given T R) {a : ℕ} {b' : Block Byte}
    (hb : s.put t.mem none a = some b') :
    ∃ x ∈ given T R, x ∉ ({t} : Set Tile) ∧ x.mem = a ∧ b'.size + 4 ≤ x.size.toNat := by
  by_cases heq : a = t.mem
  · rw [heq, Store.put_self] at hb
    cases hb
  rw [Store.put_of_ne heq] at hb
  obtain ⟨x, hx, hxa⟩ := h.chunk a b' hb
  obtain ⟨b'', hb'', hfills⟩ := h.block x hx
  rw [hxa, hb] at hb''
  cases hb''
  refine ⟨x, hx, ?_, hxa, hfills.room⟩
  rintro rfl
  exact heq hxa.symm

/-- The program gives a block back. -/
theorem release (h : Backs layout w s T R) (ht : t ∈ given T R)
    (hmoves : Moves layout w w' T R T' R' {t} ∅) : Backs layout w' (s.put t.mem none) T' R' := by
  refine h.follow hmoves (fun x hx hne => ?_) (fun _ hx => hx.elim) fun a b' hb => ?_
  · exact Store.put_of_ne (fun heq => hne (h.eq_of_mem hx ht heq)) _ _
  · obtain ⟨x, hx, hne, hxa, -⟩ := h.others_back ht hb
    refine ⟨x, ?_, hxa⟩
    rw [hmoves.given]
    exact Or.inl ⟨hx, hne⟩

/-- A block of the program is resized, and may move. -/
theorem relend (h : Backs layout w s T R) (ht : t ∈ given T R)
    (hfills : Fills w.gm.chunks t b) {bytes p : Word}
    (hrelends : Relends layout bytes p w w' T R T' R' t u) :
    (16 ∣ p.toNat ∧ Free (s.put t.mem none) p.toNat bytes.toNat) ∧
      Backs layout w' ((s.put t.mem none).put p.toNat (some (b.resized bytes.toNat))) T' R' := by
  obtain ⟨hmoves, rfl, hroom, hspot, hnew, hkept⟩ := hrelends
  have hu : u ∈ given T' R' := by
    rw [hmoves.given]
    exact Or.inr rfl
  have hfree : Free (s.put t.mem none) u.mem bytes.toNat :=
    free_of_fresh hmoves (fun hold => hnew hold) hroom fun a b' hb' => h.others_back ht hb'
  refine ⟨⟨hspot, hfree⟩, h.follow hmoves (fun x hx hne => ?_) ?_ fun a b' hb' => ?_⟩
  · have hxt : x.mem ≠ t.mem := fun heq => hne (h.eq_of_mem hx ht heq)
    obtain ⟨b', hb', -⟩ := h.block x hx
    have hxu : x.mem ≠ u.mem := by
      intro heq
      have hunused := hfree.unused
      rw [← heq, Store.put_of_ne hxt, hb'] at hunused
      cases hunused
    exact (Store.put_of_ne hxu _ _).trans (Store.put_of_ne hxt _ _)
  · rintro x rfl
    refine ⟨b.resized bytes.toNat, Store.put_self .., hroom, fun i hi v hv => ?_⟩
    change v ∈ (if i < b.size then b.contents i else none) at hv
    split_ifs at hv with hin
    · have hold := hfills.room
      rw [hkept i hi (by omega)]
      exact hfills.contents i hin v hv
    · cases hv
  · by_cases heq : a = u.mem
    · exact ⟨u, hu, heq.symm⟩
    · rw [Store.put_of_ne (show a ≠ (chunk2mem u.addr).toNat from heq)] at hb'
      obtain ⟨x, hx, hne, hxa, -⟩ := h.others_back ht hb'
      refine ⟨x, ?_, hxa⟩
      rw [hmoves.given]
      exact Or.inl ⟨hx, hne⟩

/-- The program writes a byte of one of its blocks. -/
theorem write (h : Backs layout w s T R) (ht : t ∈ given T R)
    (hfills : Fills w.gm.chunks t b) {i : ℕ} (hi : i < b.size) (v : Byte) :
    Backs layout { w with gm := withChunks (w.gm.chunks.storeByte
      (chunk2mem t.addr + BitVec.ofNat 32 i) v) w.gm } (s.put t.mem (some (b.written i v))) T R := by
  have hshaped := h.shaped ht
  have hroom := hfills.room
  obtain ⟨hbelow, -⟩ := hshaped.block_room hroom
  have hmoves := h.heap.rewrite ht (Rewrites.storeByte (b := v) hshaped (hshaped.holds (i := i)
    (by omega)))
  refine h.follow hmoves (fun x hx hne => ?_) ?_ fun a b' hb' => ?_
  · exact Store.put_of_ne (fun heq => hne (h.eq_of_mem hx ht heq)) _ _
  · rintro x rfl
    refine ⟨b.written i v, Store.put_self .., hroom, fun j hj v' hv' => ?_⟩
    change j < b.size at hj
    change v' ∈ Function.update b.contents i (some v) j at hv'
    by_cases hji : j = i
    · subst hji
      rw [Function.update_self] at hv'
      cases hv'
      exact loadByte_storeByte _ _ _
    · rw [Function.update_of_ne hji] at hv'
      have hne : chunk2mem x.addr + BitVec.ofNat 32 j ≠ chunk2mem x.addr + BitVec.ofNat 32 i := by
        intro heq
        have hnat := congrArg BitVec.toNat heq
        rw [toNat_place hj hbelow, toNat_place hi hbelow] at hnat
        omega
      exact (loadByte_storeByte_ne hne _ _).trans (hfills.contents j hj v' hv')
  · by_cases heq : a = t.mem
    · exact ⟨t, ht, heq.symm⟩
    · rw [Store.put_of_ne heq] at hb'
      exact h.chunk a b' hb'

end Backs

/-- The ways in which a call may end without an answer. -/
def Stops (call : Call) (r : Halt) : Prop :=
  r = .sbrkTrap ∨ r = .hang ∧ ∃ a size, call = .alignedAlloc a size ∧ 2147483648 < a.toNat

/-- The answer is one that the store allows, and the store is still backed. -/
def Answers (layout : HeapLayout) (s : Store Byte) (call : Call) (answer : Answer Byte) (w : World) :
    Prop :=
  AllowedAnswer s call answer ∧ ∃ T R, Backs layout w (advance s answer call.op) T R

namespace Backs

theorem refused (h : Backs layout w s T R) {call : Call} {op : Op Byte} (hop : call.op = some op)
    (hallowed : Allowed s op (.block none)) (hnext : next s op (.block none) = s)
    (hmoves : Moves layout w w' T R T' R' ∅ ∅) : Answers layout s call (pointer 0) w' := by
  refine ⟨fun op' hop' => ?_, T', R', ?_⟩
  · rw [hop] at hop'
    cases hop'
    exact hallowed
  · rw [hop]
    change Backs layout w' (next s op (.block none)) T' R'
    rw [hnext]
    exact h.still hmoves

/-- A request for a block is refused, or the program gets the block. -/
theorem request (h : Backs layout w s T R) {call : Call} {op : Op Byte} (hop : call.op = some op)
    {d n : ℕ} {filled : Word → World → Prop} {p : Word} (hgets : Gets layout d n filled w T R p w')
    (hnull : Allowed s op (.block none)) (hnull' : next s op (.block none) = s) (hb : b.size = n)
    (hallowed : ∀ a, d ∣ a → Free s a n → Allowed s op (.block (some a)))
    (hnext : ∀ a, next s op (.block (some a)) = s.put a (some b))
    (hfilled : filled p w' → ∀ i < n, ∀ v ∈ b.contents i,
      w'.gm.chunks.loadByte (p + BitVec.ofNat 32 i) = v) :
    Answers layout s call (pointer p) w' := by
  rcases hgets with ⟨rfl, T', R', hmoves⟩ | ⟨T', R', t, hlends, hfill⟩
  · exact h.refused hop hnull hnull' hmoves
  obtain ⟨hfree, hbacks⟩ := h.lend hlends hb (hfilled hfill)
  have hp : p ≠ 0 := by
    rw [word_ne_zero, hlends.mem, hlends.shaped.toNat_mem]
    omega
  rw [pointer, if_neg hp]
  refine ⟨fun op' hop' => ?_, T', R', ?_⟩
  · rw [hop] at hop'
    cases hop'
    exact hallowed _ hlends.spot hfree
  · rw [hop]
    change Backs layout w' (next s op (.block (some p.toNat))) T' R'
    rw [hnext]
    exact hbacks

theorem alloc (h : Backs layout w s T R) {call : Call} {d n : ℕ}
    (hop : call.op = some (.alloc d n)) {p : Word}
    (hgets : Gets layout d n (fun _ _ => True) w T R p w') : Answers layout s call (pointer p) w' := by
  refine h.request (b := .blank n) hop hgets ?_ rfl rfl ?_ (fun _ => rfl) fun _ _ _ _ hv => nomatch hv
  · exact fun _ ha => nomatch ha
  · rintro a hd hfree a' ha'
    cases ha'
    exact ⟨hd, hfree⟩

theorem allocFilled (h : Backs layout w s T R) {call : Call} {d n : ℕ}
    (hop : call.op = some (.allocFilled d n 0)) {p : Word} (hgets : Gets layout d n
      (fun p w' => ∀ i < n, w'.gm.chunks.loadByte (p + BitVec.ofNat 32 i) = 0) w T R p w') :
    Answers layout s call (pointer p) w' := by
  refine h.request (b := .filled n 0) hop hgets ?_ rfl rfl ?_ (fun _ => rfl) ?_
  · exact fun _ ha => nomatch ha
  · rintro a hd hfree a' ha'
    cases ha'
    exact ⟨hd, hfree⟩
  · intro hzero i hi v hv
    cases hv
    exact hzero i hi

theorem realloc (h : Backs layout w s T R) {ptr size : Word} (hne : ptr ≠ 0)
    (hlegal : (s ptr.toNat).isSome) (hend : 16 ∣ layout.heapEnd.toNat) :
    wp (Engine.dlrealloc layout ptr size)
      (fun p w' => Answers layout s (.realloc ptr size) (pointer p) w')
      (fun r _ => r = .sbrkTrap) w := by
  obtain ⟨b, hb⟩ := Option.isSome_iff_exists.mp hlegal
  obtain ⟨t, ht, rfl, hfills⟩ := h.chunk_of_pointer hb
  have hop : (Call.realloc (chunk2mem t.addr) size).op = some (.resize 16 t.mem size.toNat) := by
    rw [Call.op, if_neg hne]
    rfl
  refine wp_mono (h.heap.realloc hend ht size) ?_ fun _ _ hr => hr
  rintro p w' (⟨rfl, T', R', hmoves⟩ | ⟨T', R', u, hrelends⟩)
  · exact h.refused hop (fun _ ha => nomatch ha) rfl hmoves
  obtain ⟨hfree, hbacks⟩ := h.relend ht hfills hrelends
  have hp : p ≠ 0 := by
    have hu : u ∈ given T' R' := by
      rw [hrelends.moves.given]
      exact Or.inr rfl
    rw [word_ne_zero, hrelends.mem, (hrelends.moves.heap.tiled.shaped u hu.1.1).toNat_mem]
    omega
  rw [pointer, if_neg hp]
  refine ⟨fun op hop' => ?_, T', R', ?_⟩
  · rw [hop] at hop'
    cases hop'
    rintro a ha
    cases ha
    exact hfree
  · rw [hop]
    have hb' : s t.mem = some b := hb
    change Backs layout w' ((s.put t.mem none).put p.toNat ((s t.mem).map (Block.resized size.toNat)))
      T' R'
    rw [hb']
    exact hbacks

/-- Every legal call is answered as the store allows, or stops in one of the expected ways. -/
theorem serve (h : Backs layout w s T R) (hend : 16 ∣ layout.heapEnd.toNat) (call : Call)
    (hlegal : ∀ op ∈ call.op, Legal s op) :
    wp (Engine.serve layout call) (fun answer w' => Answers layout s call answer w')
      (fun r _ => Stops call r) w := by
  cases call with
  | malloc size =>
    rw [Engine.serve, wp_bind]
    exact wp_mono (h.heap.malloc hend size) (fun _ _ hgets => h.alloc rfl hgets)
      fun _ _ hr => Or.inl hr
  | newNothrow size =>
    rw [Engine.serve, wp_bind]
    exact wp_mono (h.heap.malloc hend size) (fun _ _ hgets => h.alloc rfl hgets)
      fun _ _ hr => Or.inl hr
  | calloc n size =>
    rw [Engine.serve, wp_bind]
    exact wp_mono (h.heap.calloc hend n size) (fun _ _ hgets => h.allocFilled rfl hgets)
      fun _ _ hr => Or.inl hr
  | realloc ptr size =>
    rw [Engine.serve, wp_bind]
    by_cases hnull : ptr = 0
    · rw [Engine.dlrealloc, if_pos hnull]
      refine wp_mono (h.heap.malloc hend size) (fun _ _ hgets => h.alloc ?_ hgets)
        fun _ _ hr => Or.inl hr
      rw [Call.op, if_pos hnull]
    · have hop := hlegal (.resize 16 ptr.toNat size.toNat) (by rw [Call.op, if_neg hnull]; rfl)
      exact wp_mono (h.realloc hnull hop hend) (fun _ _ hanswers => hanswers) fun _ _ hr => Or.inl hr
  | alignedAlloc a size =>
    rw [Engine.serve, wp_bind]
    refine wp_mono (h.heap.memalign hend a size) (fun _ _ hgets => h.alloc rfl hgets) ?_
    rintro r - (hr | ⟨hr, hbig⟩)
    · exact Or.inl hr
    · exact Or.inr ⟨hr, a, size, rfl, hbig⟩
  | free ptr =>
    rw [Engine.serve, wp_bind]
    by_cases hnull : ptr = 0
    · subst hnull
      refine ⟨fun _ hop => (by cases hop), T, R, ?_⟩
      exact h
    · have hop : (Call.free ptr).op = some (.release ptr.toNat) := by rw [Call.op, if_neg hnull]
      obtain ⟨b, hb⟩ := Option.isSome_iff_exists.mp (hlegal (.release ptr.toNat) (by rw [hop]; rfl))
      obtain ⟨t, ht, rfl, -⟩ := h.chunk_of_pointer hb
      refine wp_mono (h.heap.dlfree ht) ?_ fun _ _ hno => hno.elim
      rintro _ w' ⟨T', hmoves⟩
      refine ⟨fun op hop' => ?_, T', R, ?_⟩
      · rw [hop] at hop'
        cases hop'
        exact trivial
      · rw [hop]
        exact h.release ht hmoves
  | store ptr i v =>
    obtain ⟨b, hb, hi⟩ := hlegal (.write ptr.toNat i v) rfl
    obtain ⟨t, ht, rfl, hfills⟩ := h.chunk_of_pointer hb
    have hwrite := h.write ht hfills hi v
    refine ⟨fun op hop => ?_, T, R, ?_⟩
    · cases hop
      exact trivial
    · have hb' : s t.mem = some b := hb
      change Backs layout _ (s.put t.mem ((s t.mem).map (Block.written i v))) T R
      rw [hb']
      exact hwrite
  | load ptr i =>
    obtain ⟨b, hb, hi⟩ := hlegal (.load ptr.toNat i) rfl
    obtain ⟨t, ht, rfl, hfills⟩ := h.chunk_of_pointer hb
    refine ⟨fun op hop => ?_, T, R, h⟩
    cases hop
    intro b' hb' v hv
    change s t.mem = some b' at hb'
    rw [show s t.mem = some b from hb] at hb'
    cases hb'
    exact hfills.contents i hi v hv
  | grow delta =>
    refine ⟨fun _ hop => (by cases hop), T, R, ?_, h.block, h.chunk⟩
    exact ⟨h.heap.inv.grow delta, h.heap.tiled, h.heap.records, h.heap.recorded⟩

end Backs

end WasmCxxShim.Dlmalloc
