import WasmCxxShim.DlmallocCarve
import WasmCxxShim.DlmallocGrowth
import WasmCxxShim.DlmallocSearch

/-!
# Requests in a tiled heap

The engine's functions, from `dlmalloc` to `dlmemalign`, run in a world where the invariant of the
segments holds and the chunks tile them. They fail no run-time check, and the chunks that they do not
take back are neither moved nor written to.
-/
namespace WasmCxxShim.Dlmalloc
open MachineWords HaltingPrograms AddressRegions AddressTilings LinearMemory

variable {layout : HeapLayout} {w w' w'' : World} {m m' : MallocState} {e : Env}
  {T T' T'' R R' R'' gone gone' fresh fresh' : Set Tile} {t u : Tile} {nb : Word}

/-- A world whose heap is tiled; the chunks of `R` hold segment records. -/
structure TiledHeap (layout : HeapLayout) (w : World) (T R : Set Tile) : Prop where
  inv : HeapInv layout w
  tiled : Tiled w.gm T
  records : R ⊆ used T
  recorded : Recorded w.gm R

/-- The chunks that the program has been given. -/
def given (T R : Set Tile) : Set Tile := used T \ R

/-- From one world to another, the program has given back the chunks `gone` and been given `fresh`. -/
structure Moves (layout : HeapLayout) (w w' : World) (T R T' R' gone fresh : Set Tile) : Prop where
  heap : TiledHeap layout w' T' R'
  given : given T' R' = (given T R \ gone) ∪ fresh
  untouched : ∀ t ∈ Dlmalloc.given T R, t ∉ gone → Untouched w.gm.chunks w'.gm.chunks t

namespace Moves

theorem trans (h : Moves layout w w' T R T' R' gone fresh)
    (h' : Moves layout w' w'' T' R' T'' R'' gone' fresh') :
    Moves layout w w'' T R T'' R'' (gone ∪ gone') ((fresh \ gone') ∪ fresh') := by
  refine ⟨h'.heap, ?_, fun t ht hnot => ?_⟩
  · rw [h'.given, h.given, Set.union_sdiff_distrib, Set.sdiff_sdiff, Set.union_assoc]
  · rw [Set.mem_union, not_or] at hnot
    have hkept : t ∈ Dlmalloc.given T' R' := by
      rw [h.given]
      exact Or.inl ⟨ht, hnot.1⟩
    exact (h.untouched t ht hnot.1).trans (h'.untouched t hkept hnot.2)

/-- Nothing happens to the chunks. -/
theorem still (h : TiledHeap layout w' T R) (hchunks : w'.gm.chunks = w.gm.chunks) :
    Moves layout w w' T R T R ∅ ∅ :=
  ⟨h, by simp, fun _ _ _ _ _ _ => by rw [hchunks]⟩

end Moves

namespace TiledHeap

/-- An operation on the chunks that leaves the segments as they are. -/
theorem changes (h : TiledHeap layout w T R) (hinv : HeapInv layout { w with gm := m' })
    (hchanges : Changes w.gm m' T T' gone fresh) (hgone : ∀ t ∈ gone, t ∉ R)
    (hfresh : ∀ t ∈ fresh, t ∉ R) :
    Moves layout w { w with gm := m' } T R T' R gone fresh := by
  refine ⟨⟨hinv, hchanges.tiled, fun r hr => ?_, hchanges.recorded h.tiled h.recorded⟩, ?_,
    fun t ht hnot => hchanges.untouched t ht.1 hnot⟩
  · rw [hchanges.used]
    exact Or.inl ⟨h.records hr, fun hbad => hgone r hbad hr⟩
  · ext t
    simp only [given, hchanges.used, Set.mem_sdiff, Set.mem_union]
    have := hfresh t
    tauto

/-- A chunk in use where one of the program was. -/
theorem not_record (h : TiledHeap layout w T R) (ht : t ∈ given T R)
    (haddr : u.addr.toNat ∈ t.region.bytes) : u ∉ R := by
  intro hu
  have hused := h.records hu
  have heq := h.tiled.separate.eq hused.1 ht.1.1 (h.tiled.shaped u hused.1).addr_mem haddr
  exact ht.2 (heq ▸ hu)

/-- A chunk in use where a free one or top was. -/
theorem not_used (h : TiledHeap layout w T R) (ht : t ∈ T) (hkind : t.kind ≠ .inuse)
    (haddr : u.addr = t.addr) : u ∉ used T := by
  intro hu
  have heq := h.tiled.eq_of_addr hu.1 ht haddr
  exact hkind (heq ▸ hu.2)

end TiledHeap

theorem dispose_eq {d : Disposal} (h : Disposes d w.gm m') :
    dispose d w = .ok () { w with gm := m' } := by
  cases d with
  | binned chunks =>
    cases h
    rfl
  | intoTop p psize chunks =>
    obtain ⟨hb, rfl⟩ := h
    rw [dispose, read_bind_apply, if_pos hb]
    rfl

theorem tryReallocChunk_eq {r : Resize} (h : Resizes r nb w.gm m') :
    tryReallocChunk nb r w = .ok true { w with gm := m' } := by
  cases r with
  | refused => exact h.elim
  | inPlace chunks remainder =>
    cases remainder with
    | none =>
      cases h
      rfl
    | some d =>
      have hdispose := dispose_eq (w := { w with gm := withChunks chunks w.gm }) h
      rw [tryReallocChunk]
      exact (bind_ok rfl).trans (bind_ok hdispose)
  | intoTop p oldsize chunks =>
    obtain ⟨hb, hless, hroom, rfl⟩ := h
    rw [tryReallocChunk, read_bind_apply, if_pos ⟨hb, hless⟩, if_pos hroom]
    rfl

namespace HeapInv

theorem of_disposes (h : HeapInv layout w) {d : Disposal} (hd : Disposes d w.gm m') :
    HeapInv layout { w with gm := m' } := by
  have hafter := wp_ok (h.dispose d) (dispose_eq hd)
  exact hafter

theorem of_resizes (h : HeapInv layout w) {bytes : Word} {r : Resize}
    (hr : Resizes r (request2size bytes) w.gm m') : HeapInv layout { w with gm := m' } := by
  have hafter := wp_ok (h.resize bytes r) (tryReallocChunk_eq hr)
  exact hafter

theorem of_gives (h : HeapInv layout w) {piece : Option Chunk} {d : Disposal}
    (hd : Gives piece d w.gm m') : HeapInv layout { w with gm := m' } := by
  cases piece with
  | none =>
    obtain rfl : m' = w.gm := hd
    exact h
  | some c => exact h.of_disposes hd

end HeapInv

theorem Padded.sized {k : Word} (h : Padded nb) (hlt : nb < k) : Sized nb := by
  obtain ⟨bytes, rfl⟩ := h
  rcases paddedSize_cases bytes with ⟨-, hnb, -⟩ | ⟨-, -, hnb, -⟩ | ⟨-, -, hnb⟩
  · exact hnb
  · exact hnb
  · rw [word_lt, hnb] at hlt
    have := k.isLt
    omega

/-- A chunk of the padded size is newly given to the program. -/
structure Allots (layout : HeapLayout) (nb p : Word) (w w' : World) (T R T' R' : Set Tile)
    (t : Tile) : Prop where
  moves : Moves layout w w' T R T' R' ∅ {t}
  mem : p = chunk2mem t.addr
  enough : nb.toNat ≤ t.size.toNat
  tight : t.size.toNat < nb.toNat + 16
  new : t ∉ given T R

/-- A request returns NULL, or a chunk is allotted. -/
def Allocates (layout : HeapLayout) (nb : Word) (w : World) (T R : Set Tile) (p : Word)
    (w' : World) : Prop :=
  p = 0 ∧ (∃ T' R', Moves layout w w' T R T' R' ∅ ∅) ∨
    ∃ T' R' t, Allots layout nb p w w' T R T' R' t

theorem Allocates.after (h : Moves layout w w' T R T' R' ∅ ∅) {p : Word}
    (h' : Allocates layout nb w' T' R' p w'') : Allocates layout nb w T R p w'' := by
  have hsame : given T' R' = given T R := by simp [h.given]
  rcases h' with ⟨rfl, T'', R'', hmoves⟩ | ⟨T'', R'', t, hallots⟩
  · have hboth := h.trans hmoves
    simp only [Set.union_self, Set.sdiff_empty] at hboth
    exact Or.inl ⟨rfl, T'', R'', hboth⟩
  · have hboth := h.trans hallots.moves
    simp only [Set.union_self, Set.empty_sdiff, Set.empty_union] at hboth
    exact Or.inr ⟨T'', R'', t, hboth, hallots.mem, hallots.enough, hallots.tight,
      hsame ▸ hallots.new⟩

namespace TiledHeap

/-- Splitting top serves the request. -/
theorem split (h : TiledHeap layout w T R) (hnb : Padded nb) (hlt : nb < w.gm.topsize) :
    Allocates layout nb w T R (chunk2mem w.gm.top) { w with gm := splitTop nb w.gm } := by
  have hinit := h.inv.initialized_of_topsize hlt
  obtain ⟨T', hchanges⟩ := h.tiled.splitTop hinit (hnb.sized hlt) hlt
  have hnew := h.not_used (u := ⟨w.gm.top, nb, .inuse⟩) (h.tiled.top_mem hinit) (nomatch ·) rfl
  refine Or.inr ⟨T', R, ⟨w.gm.top, nb, .inuse⟩, h.changes (h.inv.split hnb hlt) hchanges
    (fun _ hx => hx.elim) ?_, rfl, le_refl _, by dsimp only; omega, fun hmem => hnew hmem.1⟩
  rintro t rfl hbad
  exact hnew (h.records hbad)

/-- What the bins answer serves the request. -/
theorem taken (h : TiledHeap layout w T R) {answer : BinAnswer} {v : Tile}
    (hserved : Supplied w.gm T nb answer v) :
    Allocates layout nb w T R answer.mem
      { w with gm := withChunks answer.chunks w.gm } := by
  obtain ⟨T', t, haddr, hgranted⟩ := hserved.granted
  have hnew := h.not_used (u := t) hserved.mem (fun hkind =>
    nomatch hserved.free.symm.trans hkind) haddr
  refine Or.inr ⟨T', R, t, h.changes (h.inv.bins answer.chunks) hgranted.changes
    (fun _ hx => hx.elim) ?_, hgranted.mem, hgranted.enough, hgranted.tight, fun hmem => hnew hmem.1⟩
  rintro x rfl hbad
  exact hnew (h.records hbad)

/-- A region joins the heap. -/
theorem grown (h : TiledHeap layout w T R) {n : Word} (hnew : NewRegion w n e) (nb : Word) :
    ∃ m T' R', installRegion nb (breakAddr w.env) n w.gm = (none, m) ∧
      Moves layout w ⟨e, m⟩ T R T' R' ∅ ∅ := by
  obtain ⟨m, T', fresh, hinstall, hm, hevolves, hfresh, hrecords⟩ :=
    h.inv.installRegion_tiled h.tiled hnew nb
  have hused := hevolves.used
  refine ⟨m, T', R ∪ fresh, hinstall, ⟨hm.inv, hevolves.tiled, ?_, hrecords R
    (fun r hr => (h.records hr).1) h.recorded⟩, ?_, fun t ht _ => hevolves.untouched t ht.1 id⟩
  · rw [hused]
    rintro r (hr | hr)
    · exact Or.inl ⟨h.records hr, id⟩
    · exact Or.inr hr
  · ext t
    simp only [given, hused, Set.mem_sdiff, Set.mem_union, Set.sdiff_empty, Set.union_empty]
    have hno : t ∈ fresh → t ∉ used T := fun ht hbad => hfresh t ht hbad.1
    tauto

/-- What the new region is used for. -/
theorem useRegion (h : TiledHeap layout w T R) {n : Word} (hnew : NewRegion w n e)
    (hnb : Padded nb) :
    (Dlmalloc.useRegion nb (breakAddr w.env) n { w with env := e }).Meets
      (Allocates layout nb w T R) fun r _ => r = .sbrkTrap := by
  obtain ⟨m, T', R', hinstall, hmoves⟩ := h.grown hnew nb
  have hrun : Dlmalloc.useRegion nb (breakAddr w.env) n { w with env := e } =
      allocateFromTop nb ⟨e, m⟩ := by
    rw [Dlmalloc.useRegion, read_bind_apply]
    dsimp only
    rw [hinstall]
    rfl
  rw [hrun, allocateFromTop, read_bind_apply]
  split_ifs with hlt
  · exact (hmoves.heap.split hnb hlt).after hmoves
  · exact Or.inl ⟨rfl, T', R', hmoves⟩

theorem disable (h : TiledHeap layout w T R) :
    TiledHeap layout { w with gm := disableContiguous w.gm } T R := by
  have hT := h.tiled
  exact ⟨h.inv.disable, ⟨hT.toTags, hT.links, hT.top_mem, hT.top_only, hT.inside, hT.filled,
    hT.unique, hT.least, hT.beyond⟩, h.records, h.recorded.size,
    h.recorded.ends, h.recorded.complete⟩

/-- `sys_alloc` halts in the trap of `sbrk` only. -/
theorem sysAlloc (h : TiledHeap layout w T R) (hnb : Padded nb) (htop : w.gm.topsize ≤ nb) :
    wp (Dlmalloc.sysAlloc nb) (Allocates layout nb w T R) (fun r _ => r = .sbrkTrap) w := by
  have hcases := sysAlloc_cases nb htop
  have hgrew : ∀ {k e}, Grew k w.env e → TiledHeap layout { w with env := e } T R :=
    fun hgrew => ⟨h.inv.grew hgrew, h.tiled, h.records, h.recorded⟩
  unfold wp
  generalize Dlmalloc.sysAlloc nb w = outcome at hcases ⊢
  cases hcases with
  | exhausted e gm grew same =>
    refine Or.inl ⟨rfl, T, R, ?_⟩
    rcases same with rfl | rfl
    · exact .still (hgrew grew) rfl
    · exact .still (hgrew grew).disable rfl
  | leaked e grew => exact Or.inl ⟨rfl, T, R, .still (hgrew grew) rfl⟩
  | extended n e ss grew enough page => exact h.useRegion ⟨grew, page.1⟩ hnb
  | granted n e grew enough => exact h.useRegion ⟨grew, by omega⟩ hnb
  | undersized n e grew pos => exact h.useRegion ⟨grew, pos⟩ hnb
  | trapped e release => exact rfl

/-- The heap is set up before the first request. -/
theorem init (h : TiledHeap layout w T R) (hend : 16 ∣ layout.heapEnd.toNat) :
    wp (ensureInitialized layout) (fun _ w' => ∃ T', Moves layout w w' T R T' R ∅ ∅)
      (fun _ _ => False) w := by
  rw [ensureInitialized, wp_bind, wp_read]
  by_cases hinit : isInitialized w.gm = true
  · rw [if_pos hinit]
    exact ⟨T, .still h rfl⟩
  rw [if_neg hinit, tryInitAllocator]
  have hrange := h.inv.range
  have hfresh : isInitialized w.gm = false := Bool.not_eq_true _ ▸ hinit
  dsimp only
  rw [if_neg (by rw [word_lt]; omega)]
  split_ifs with hsmall
  · exact ⟨T, .still h rfl⟩
  · have hmin : minChunkSize + topFootSize + mallocAlignment = (88 : Word) := by decide
    have hsize : (layout.heapEnd - layout.heapBase).toNat =
        layout.heapEnd.toNat - layout.heapBase.toNat := BitVec.toNat_sub_of_le hrange
    rw [hmin, BitVec.not_le, word_lt] at hsmall
    have hinside := h.inv.inside
    have hbytes := bytes_le w.env.memory
    obtain ⟨T', hevolves⟩ := h.tiled.initialState layout.heapBase
      (layout.heapEnd - layout.heapBase) hfresh (h.inv.fresh hfresh).1
      (by rw [hsize]; omega) (by omega) hsmall
    have hempty : T = ∅ := h.tiled.empty hfresh
    subst hempty
    have hnone : R = ∅ := Set.subset_empty_iff.mp fun r hr => (h.records hr).1
    subst hnone
    have hinv := h.inv.firstHeap hfresh hsize hsmall
    refine ⟨T', ⟨hinv, hevolves.tiled, fun _ hx => hx.elim, fun _ hx => hx.elim, fun _ hx => hx.elim,
      fun s hs => ?_⟩, ?_, fun t ht _ => ht.1.1.elim⟩
    · have hinit' := initialized_of_segment hs
      have hone : ∀ x ∈ (initialState layout.heapBase (layout.heapEnd - layout.heapBase) w.gm).segs,
          x = ⟨layout.heapBase, layout.heapEnd - layout.heapBase, 0⟩ := by
        intro x hx
        change x ∈ _ :: w.gm.segs.tail at hx
        rw [(h.inv.fresh hfresh).1, List.tail_cons] at hx
        exact List.mem_singleton.mp hx
      obtain ⟨s', hs', hin⟩ := hinv.top_in hinit'
      rw [hone s (segments_of_initialized hinit' ▸ hs), ← hone s' hs']
      exact Or.inr hin.finish
    rw [given, hevolves.used]
    simp [given]

end TiledHeap

theorem onState_wp {α : Type} {f : MallocState → Except Halt (α × MallocState)} {a : α}
    {post : α → World → Prop} {onHalt : Halt → World → Prop} (h : f w.gm = .ok (a, m))
    (hpost : post a { w with gm := m }) : wp (onState f) post onHalt w := by
  unfold wp onState
  rw [h]
  exact hpost

namespace TiledHeap

/-- `dlmalloc` returns NULL or a chunk of the padded size. -/
theorem dlmalloc (h : TiledHeap layout w T R) (hend : 16 ∣ layout.heapEnd.toNat) (bytes : Word) :
    wp (Engine.dlmalloc layout bytes) (Allocates layout (paddedSize bytes) w T R)
      (fun r _ => r = .sbrkTrap) w := by
  rw [Engine.dlmalloc, wp_bind]
  refine wp_mono (h.init hend) ?_ fun _ _ hno => hno.elim
  rintro _ w' ⟨T', hinit⟩
  rw [wp_bind]
  rcases searchBins_spec hinit.heap.tiled bytes with ⟨hnone, -⟩ | ⟨answer, v, hsome, hserved, -⟩
  · refine onState_wp (by rw [hnone]; rfl) ?_
    rw [serveRequest, wp_bind, wp_read]
    split_ifs with hlt
    · exact (hinit.heap.split ⟨bytes, rfl⟩ hlt).after hinit
    · exact wp_mono (hinit.heap.sysAlloc ⟨bytes, rfl⟩ (BitVec.not_lt.mp hlt))
        (fun _ _ hallocates => hallocates.after hinit) fun _ _ hr => hr
  · refine onState_wp (by rw [hsome]; rfl) ?_
    exact (hinit.heap.taken hserved).after hinit

end TiledHeap

/-- The chunk fits, and no smaller free chunk does. -/
def BestFit (c : ChunkStore) (nb : Word) (x : Word × Word) : Prop :=
  IsFree c x ∧ nb ≤ x.2 ∧ ∀ y, IsFree c y → nb ≤ y.2 → x.2 ≤ y.2

/-- A request is served from the best-fitting free chunk, or for a small request from dv; from top
when no free chunk is large enough; and no memory is acquired in either case. -/
structure ServedInside (layout : HeapLayout) (bytes : Word) (w : World) : Prop where
  fits : ∀ y, IsFree w.gm.chunks y → paddedSize bytes ≤ y.2 →
    ∃ x m', Engine.dlmalloc layout bytes w = .ok (chunk2mem x.1) { w with gm := m' } ∧
      (BestFit w.gm.chunks (paddedSize bytes) x ∨ bytes ≤ maxSmallRequest ∧
        x = (w.gm.chunks.dv, w.gm.chunks.dvsize) ∧ paddedSize bytes ≤ x.2)
  top : (∀ y, IsFree w.gm.chunks y → y.2 < paddedSize bytes) → paddedSize bytes < w.gm.topsize →
    Engine.dlmalloc layout bytes w =
      .ok (chunk2mem w.gm.top) { w with gm := splitTop (paddedSize bytes) w.gm }

namespace TiledHeap

theorem isFree_iff (h : TiledHeap layout w T R) {x : Word × Word} :
    IsFree w.gm.chunks x ↔ x ∈ freeChunks T := (h.tiled.links.free_iff x).symm

theorem eq_dv (h : TiledHeap layout w T R) (ht : t ∈ T) (haddr : t.addr = w.gm.chunks.dv) :
    (t.addr, t.size) = (w.gm.chunks.dv, w.gm.chunks.dvsize) := by
  have hmod := (h.tiled.shaped t ht).addr
  have hsize : w.gm.chunks.dvsize ≠ 0 := by
    intro hzero
    rw [haddr, h.tiled.links.dv_null hzero] at hmod
    cases hmod
  have hdv := h.tiled.eq_of_addr ht (h.tiled.links.dv_mem hsize) haddr
  rw [hdv]

theorem dlmalloc_eq (hinit : isInitialized w.gm = true) {bytes : Word} {answer : Option BinAnswer}
    (hsearch : searchBins bytes w.gm = .ok answer) :
    Engine.dlmalloc layout bytes w = serveRequest (paddedSize bytes) answer w := by
  have hready : ensureInitialized layout w = .ok () w := by
    rw [ensureInitialized, read_bind_apply, if_pos hinit]
    rfl
  have hfound : onState (fun m => (searchBins bytes m).map (·, m)) w = .ok answer w := by
    rw [onState, hsearch]
    rfl
  exact (bind_ok hready).trans (bind_ok hfound)

theorem servedInside (h : TiledHeap layout w T R) (bytes : Word) : ServedInside layout bytes w := by
  have hsearch := searchBins_spec h.tiled bytes
  refine ⟨fun y hy hfits => ?_, fun hnone hlt => ?_⟩
  · have hinit := h.tiled.initialized (h.isFree_iff.mp hy)
    rcases hsearch with ⟨-, hsmall⟩ | ⟨answer, v, hsome, hserved, hbest⟩
    · exact absurd (word_le.mp hfits) (Nat.not_le.mpr (hsmall y (h.isFree_iff.mp hy)))
    obtain ⟨T', t, haddr, hgranted⟩ := hserved.granted
    have hv : (v.addr, v.size) ∈ freeChunks T := by
      change (⟨v.addr, v.size, .free⟩ : Tile) ∈ T
      rw [← hserved.free]
      exact hserved.mem
    refine ⟨(v.addr, v.size), withChunks answer.chunks w.gm, ?_, ?_⟩
    · rw [dlmalloc_eq hinit hsome, ← haddr, ← hgranted.mem]
      rfl
    · refine hbest.imp (fun hbest => ⟨h.isFree_iff.mpr hv, word_le.mpr hserved.fits, ?_⟩)
        fun ⟨hle, hdv⟩ => ⟨hle, ?_, word_le.mpr hserved.fits⟩
      · exact fun z hz hzfits => word_le.mpr (hbest z (h.isFree_iff.mp hz) (word_le.mp hzfits))
      · exact h.eq_dv hserved.mem hdv
  · have hinit := h.inv.initialized_of_topsize hlt
    rcases hsearch with ⟨hempty, -⟩ | ⟨answer, v, -, hserved, -⟩
    · rw [dlmalloc_eq hinit hempty, serveRequest, read_bind_apply, if_pos hlt]
      rfl
    · have hv : (v.addr, v.size) ∈ freeChunks T := by
        change (⟨v.addr, v.size, .free⟩ : Tile) ∈ T
        rw [← hserved.free]
        exact hserved.mem
      exact absurd (word_lt.mp (hnone _ (h.isFree_iff.mpr hv))) (Nat.not_lt.mpr hserved.fits)

end TiledHeap

end WasmCxxShim.Dlmalloc
