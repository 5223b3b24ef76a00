import WasmCxxShim.DlmallocClient
import WasmCxxShim.DlmallocReclaim
import WasmCxxShim.DlmallocTreeSearch

/-!
# Runs of a program with its heap

From the initial world on, every legal call of every run is answered as the store of blocks allows:
blocks never overlap, and they keep their contents. The blocks lie in memory that the allocator owns.
-/
namespace WasmCxxShim.Dlmalloc
open MachineWords WordBytes HaltingPrograms AddressRegions AddressTilings BlockStores LinearMemory

variable {layout : HeapLayout} {memory : Memory} {c : Client} {w : World} {s : Store Byte}
  {T R : Set Tile} {call : Call}

/-- The store is backed by the chunks of a tiled heap, and its blocks do not overlap. -/
structure ClientInv (layout : HeapLayout) (c : Client) : Prop where
  backs : ∃ T R, Backs layout c.world c.store T R
  separated : Separated c.store

theorem tiled_initial (memory : Memory) : Tiled (World.initial memory).gm ∅ where
  toTags := tags_empty _
  links := by
    refine ⟨List.nodup_nil, fun x => ⟨fun hx => hx.elim, ?_⟩, fun h => absurd rfl h, fun _ => rfl⟩
    rintro (hx | ⟨-, h⟩)
    · cases hx
    · exact absurd rfl h
  top_mem h := nomatch h
  top_only _ h := h.elim
  inside _ h := h.elim
  filled _ h := nomatch h
  unique _ h := nomatch h
  least _ h := nomatch h
  beyond _ h := h.elim

theorem clientInv_initial (hinitial : InitialHeap layout memory)
    (hrepr : 0 < layout.heapBase.toNat ∨ memory.maxPages < 65536) :
    ClientInv layout (Client.initial memory) := by
  have hheap : TiledHeap layout (World.initial memory) ∅ ∅ :=
    ⟨heapInv_initial hinitial hrepr, tiled_initial memory, Set.empty_subset _,
      fun _ h => h.elim, fun _ h => h.elim, fun _ h => (nomatch h)⟩
  exact ⟨⟨∅, ∅, hheap, fun _ h => h.1.1.elim, fun _ _ h => (nomatch h)⟩, Separated.empty⟩

theorem Separated.advance {answer : Answer Byte} (h : Separated s)
    (hallowed : AllowedAnswer s call answer) : Separated (advance s answer call.op) := by
  cases hop : call.op with
  | none => exact h
  | some op => exact h.next (hallowed op hop)

/-- A legal call is answered as the store allows, and the store follows. -/
theorem ClientInv.perform (h : ClientInv layout c) (hend : 16 ∣ layout.heapEnd.toNat)
    (hlegal : LegalCall call c) :
    wp (perform layout call)
      (fun answer c' => AllowedAnswer c.store call answer ∧ ClientInv layout c')
      (fun r _ => Stops call r) c := by
  obtain ⟨T, R, hbacks⟩ := h.backs
  rw [Dlmalloc.perform, wp_bind, wp_within]
  refine wp_mono (hbacks.serve hend call hlegal) ?_ fun _ _ hr => hr
  rintro answer w' ⟨hallowed, hafter⟩
  exact ⟨hallowed, hafter, Separated.advance h.separated hallowed⟩

/-- The blocks of the program are apart, in memory that the allocator owns. -/
structure OwnsBlocks (layout : HeapLayout) (c : Client) : Prop where
  separated : Separated c.store
  inside : ∀ a b, c.store a = some b → layout.heapBase.toNat ≤ a ∧
    a + b.size ≤ c.world.env.memory.bytes
  others : ∀ a b, c.store a = some b → ∀ r ∈ c.world.env.lent, ∀ x, a ≤ x → x < a + b.size →
    x ∉ r.bytes

/-- A block lies in a segment. -/
theorem Backs.in_segment (h : Backs layout w s T R) {a : ℕ} {b : Block Byte} (hb : s a = some b) :
    ∃ x ∈ segments w.gm, x.region.base ≤ a ∧ a + b.size ≤ x.region.finish := by
  obtain ⟨t, ht, hmem⟩ := h.chunk a b hb
  obtain ⟨b', hb', hfills⟩ := h.block t ht
  rw [hmem, hb] at hb'
  cases hb'
  obtain ⟨x, hx, hin⟩ := h.heap.tiled.inside t ht.1.1
  have hlow := h.heap.tiled.addr_in ht.1.1 hin
  have hhigh := hin.2
  have hroom := hfills.room
  have hnext := (h.shaped ht).toNat_next
  have hplace : (chunk2mem t.addr).toNat = a := hmem
  rw [(h.shaped ht).toNat_mem] at hplace
  refine ⟨x, hx, ?_, ?_⟩
  · change x.base.toNat ≤ a
    omega
  · change a + b.size ≤ x.base.toNat + x.size.toNat
    omega

theorem ClientInv.ownsBlocks (h : ClientInv layout c) : OwnsBlocks layout c := by
  obtain ⟨T, R, hbacks⟩ := h.backs
  have howns := hbacks.heap.inv.owns
  refine ⟨h.separated, fun a b hb => ?_, fun a b hb r hr x hlow hhigh hx => ?_⟩
  · obtain ⟨x, hx, hlow, hhigh⟩ := hbacks.in_segment hb
    have hinside := howns.inside x hx
    omega
  · obtain ⟨y, hy, hbase, hfinish⟩ := hbacks.in_segment hb
    refine Set.disjoint_left.mp (howns.others y hy r hr) (Region.mem_bytes.mpr ?_) hx
    omega

theorem ClientInv.oneChunk (h : ClientInv layout c) {x : Segment} (hx : x ∈ segments c.world.gm)
    (hnone : ∀ a b, c.store a = some b → a ∉ x.region.bytes) : OneChunk c.world.gm x := by
  obtain ⟨T, R, hbacks⟩ := h.backs
  refine hbacks.heap.oneChunk hx fun t ht hin => ?_
  obtain ⟨b, hb, -⟩ := hbacks.block t ht
  have haddr := hbacks.heap.tiled.addr_in ht.1.1 hin
  refine hnone _ b hb (Region.mem_bytes.mpr ?_)
  change x.base.toNat ≤ (chunk2mem t.addr).toNat ∧
    (chunk2mem t.addr).toNat < x.base.toNat + x.size.toNat
  rw [(hbacks.shaped ht).toNat_mem]
  omega

theorem ClientInv.step (h : ClientInv layout c) (hend : 16 ∣ layout.heapEnd.toNat)
    (hlegal : LegalCall call c) :
    wp (clientStep layout call) (fun _ => ClientInv layout) (fun r _ => r = .sbrkTrap ∨ r = .hang)
      c := by
  rw [clientStep, wp_bind]
  exact wp_mono (h.perform hend hlegal) (fun _ _ hafter => hafter.2)
    fun _ _ hr => hr.imp_right And.left

/-- What the program is told. -/
def answers (layout : HeapLayout) : List Call → Client → List (Answer Byte)
  | [], _ => []
  | call :: calls, c =>
    match perform layout call c with
    | .ok answer c' => answer :: answers layout calls c'
    | .halt _ _ => []

def follow (s : Store Byte) (told : List (Call × Answer Byte)) : Store Byte :=
  told.foldl (fun s x => advance s x.2 x.1.op) s

/-- The calls and their answers determine what the program has. -/
theorem store_of_run {calls : List Call} {c' : Client}
    (h : runAll (clientStep layout) calls c = .ok () c') :
    c'.store = follow c.store (calls.zip (answers layout calls c)) := by
  induction calls generalizing c with
  | nil =>
    cases h
    rfl
  | cons call calls ih =>
    cases hserve : Engine.serve layout call c.world with
    | ok answer w' =>
      have hperform : perform layout call c = .ok answer ⟨w', advance c.store answer call.op⟩ := by
        have hwithin : within Client.world (fun w c => { c with world := w })
            (Engine.serve layout call) c = .ok answer { c with world := w' } := by
          rw [within, hserve]
        exact bind_ok hwithin
      have hstep : clientStep layout call c = .ok () ⟨w', advance c.store answer call.op⟩ :=
        bind_ok hperform
      rw [runAll, bind_ok hstep] at h
      rw [ih h, answers, hperform]
      rfl
    | halt r w' =>
      have hperform : perform layout call c = .halt r { c with world := w' } := by
        refine bind_halt ?_
        rw [within, hserve]
      have hstep : clientStep layout call c = .halt r { c with world := w' } := bind_halt hperform
      rw [runAll, bind_halt hstep] at h
      cases h

section Runs

variable (layout : HeapLayout) (memory : Memory) (calls : List Call)
  (hinitial : InitialHeap layout memory)
  (hrepr : 0 < layout.heapBase.toNat ∨ memory.maxPages < 65536) (hend : 16 ∣ layout.heapEnd.toNat)
  (hlegal : Along (clientStep layout) LegalCall calls (Client.initial memory))

include hinitial hrepr hend hlegal

theorem run_clientInv :
    wp (runAll (clientStep layout) calls) (fun _ => ClientInv layout)
      (fun r _ => r = .sbrkTrap ∨ r = .hang) (Client.initial memory) :=
  runAll_wp (ClientInv layout) (fun _ _ hc hlegal => hc.step hend hlegal) calls
    (clientInv_initial hinitial hrepr) hlegal

/-- In every run in which the program uses only blocks that it has, every call is answered as the
store of blocks allows: an allocated block is aligned, overlaps no other and is zero if it should be,
a resized one keeps its contents, and loads read what was stored last. No check of an address or of
a tag fails; those that `add_segment` and `prepend_alloc` make are of the bins before the call. -/
theorem run_answers :
    Along (clientStep layout) (fun call c => okBins c.world.gm c.world.gm.chunks = true ∧
      wp (perform layout call) (fun answer _ => AllowedAnswer c.store call answer)
        (fun r _ => Stops call r) c) calls (Client.initial memory) := by
  refine along_of_inv (ClientInv layout) (fun call c hc hlegal => hc.step hend hlegal)
    (fun call c hc hlegal => ?_) calls (clientInv_initial hinitial hrepr) hlegal
  obtain ⟨T, R, hbacks⟩ := hc.backs
  exact ⟨hbacks.heap.tiled.okBinned,
    wp_mono (hc.perform hend hlegal) (fun _ _ h => h.1) fun _ _ hr => hr⟩

variable {c : Client} (hrun : runAll (clientStep layout) calls (Client.initial memory) = .ok () c)

include hrun

theorem clientInv_of_run : ClientInv layout c := by
  have hinv := wp_ok (run_clientInv layout memory calls hinitial hrepr hend hlegal) hrun
  exact hinv

/-- After every such run the chunks in the bins are those of linked bins, in which the walks over
the tries settle on what the searches of the run find. -/
theorem run_linked : ∃ b : Bins, b.Linked c.world.gm.chunks.binned := by
  obtain ⟨T, R, hbacks⟩ :=
    (clientInv_of_run layout memory calls hinitial hrepr hend hlegal hrun).backs
  exact Bins.exists_linked hbacks.heap.tiled.nodup_binned

/-- After every such run the blocks do not overlap, and they lie in memory that belongs to the
allocator, apart from what other parties have acquired. -/
theorem run_owns_blocks : OwnsBlocks layout c :=
  (clientInv_of_run layout memory calls hinitial hrepr hend hlegal hrun).ownsBlocks

/-- After every such run each segment without a block is one chunk, in whatever order the blocks in
it were allocated, resized and freed. -/
theorem run_reclaims (x : Segment) (hx : x ∈ segments c.world.gm)
    (hnone : ∀ a b, c.store a = some b → a ∉ x.region.bytes) : OneChunk c.world.gm x :=
  (clientInv_of_run layout memory calls hinitial hrepr hend hlegal hrun).oneChunk hx hnone

/-- After every such run a request is served from the chunk that fits it best, and memory is
acquired only when neither a free chunk nor top is large enough. -/
theorem run_serves_inside (bytes : Word) : ServedInside layout bytes c.world := by
  obtain ⟨T, R, hbacks⟩ :=
    (clientInv_of_run layout memory calls hinitial hrepr hend hlegal hrun).backs
  exact hbacks.heap.servedInside bytes

end Runs

/-- A program on a one-page heap: its blocks are split off, moved, aligned and freed, and the heap
grows once. -/
def mixedCalls : List Call :=
  [.malloc 100, .calloc 6 10, .store 65552#32 3 7, .realloc 65552#32 40000, .alignedAlloc 64 50,
    .load 65728#32 3, .malloc 70000, .free 65664#32, .free 65728#32]

def onePage : HeapLayout := ⟨65536#32, 131072#32⟩

def twoPagesOf65536 : Memory := ⟨2, 65536, by decide, by decide⟩

theorem run_answers_mixed :
    Along (clientStep onePage) (fun call c => okBins c.world.gm c.world.gm.chunks = true ∧
      wp (perform onePage call) (fun answer _ => AllowedAnswer c.store call answer)
        (fun r _ => Stops call r) c) mixedCalls (Client.initial twoPagesOf65536) :=
  run_answers onePage twoPagesOf65536 mixedCalls ⟨by decide, by decide⟩ (Or.inl (by decide))
    (by decide) (by decide +kernel)

theorem run_owns_blocks_mixed :
    OwnsBlocks onePage (runAll (clientStep onePage) mixedCalls
      (Client.initial twoPagesOf65536)).state ∧
    ((runAll (clientStep onePage) mixedCalls (Client.initial twoPagesOf65536)).state.store
      105792).map Block.size = some 50 :=
  ⟨run_owns_blocks onePage twoPagesOf65536 mixedCalls ⟨by decide, by decide⟩ (Or.inl (by decide))
    (by decide) (by decide +kernel) (Outcome.eq_ok (by decide +kernel)), by decide +kernel⟩

/-- The blocks are freed in the order in which they were allocated. -/
def freedCalls : List Call := [.malloc 100, .malloc 70000, .free 65552#32, .free 65664#32]

theorem run_reclaims_freed :
    OneChunk (runAll (clientStep onePage) freedCalls
      (Client.initial twoPagesOf65536)).state.world.gm ⟨65536#32, 131072#32, 0⟩ := by
  have hrun : runAll (clientStep onePage) freedCalls (Client.initial twoPagesOf65536) =
      .ok () (runAll (clientStep onePage) freedCalls (Client.initial twoPagesOf65536)).state :=
    Outcome.eq_ok (by decide +kernel)
  have hanswers : answers onePage freedCalls (Client.initial twoPagesOf65536) =
      [.block (some 65552), .block (some 65664), .done, .done] := by decide +kernel
  refine run_reclaims onePage twoPagesOf65536 freedCalls ⟨by decide, by decide⟩ (Or.inl (by decide))
    (by decide) (by decide +kernel) hrun _ (by decide +kernel) fun a b hb _ => ?_
  rw [store_of_run hrun, hanswers] at hb
  change (((Store.empty.put 65552 (some (.blank 100))).put 65664 (some (.blank 70000))).put
    65552 none).put 65664 none a = some b at hb
  by_cases hsecond : a = 65664
  · rw [hsecond, Store.put_self] at hb
    cases hb
  rw [Store.put_of_ne hsecond] at hb
  by_cases hfirst : a = 65552
  · rw [hfirst, Store.put_self] at hb
    cases hb
  rw [Store.put_of_ne hfirst, Store.put_of_ne hsecond, Store.put_of_ne hfirst] at hb
  cases hb

theorem run_serves_inside_mixed :
    ServedInside onePage 100 (runAll (clientStep onePage) mixedCalls
      (Client.initial twoPagesOf65536)).state.world :=
  run_serves_inside onePage twoPagesOf65536 mixedCalls ⟨by decide, by decide⟩ (Or.inl (by decide))
    (by decide) (by decide +kernel) (Outcome.eq_ok (by decide +kernel)) 100

end WasmCxxShim.Dlmalloc
