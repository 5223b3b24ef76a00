import WasmCxxShim.DlmallocMemalign
import WasmCxxShim.DlmallocSysAlloc

/-!
# Requests to the allocator

The public surface of the allocator over `sys_alloc`, and runs of requests that other parties
interleave with `memory.grow`. The small bins, the tree bins, dv and the boundary tags are a
parameter of each request: what they answer touches the chunk records only, or moves top down to
a chunk that borders it.
-/
namespace WasmCxxShim.Dlmalloc
open MachineWords HaltingPrograms LinearMemory

/-- A chunk found in the bins or in dv, and the chunk records after taking it. -/
structure BinAnswer where
  mem : Word
  chunks : ChunkStore

/-- The padded size that `dlmalloc` allocates for a request. -/
def paddedSize (bytes : Word) : Word :=
  if bytes ≤ maxSmallRequest then request2size bytes
  else if maxRequest ≤ bytes then maxSizeT
  else padRequest bytes

/-- The sizes that reach `sys_alloc`. -/
def Padded (nb : Word) : Prop := ∃ bytes, nb = paddedSize bytes

def ensureInitialized (layout : HeapLayout) : Alloc Unit := do
  if isInitialized (← read).gm then return () else tryInitAllocator layout

/-- Take the chunk the bins offer, else split top, else get memory from the system. -/
def serveRequest (nb : Word) : Option BinAnswer → Alloc Word
  | some answer => do
    modifyState fun m => { m with chunks := answer.chunks }
    return answer.mem
  | none => do
    let w ← read
    if nb < w.gm.topsize then
      modifyState (splitTop nb)
      return chunk2mem w.gm.top
    else
      sysAlloc nb

def dlmalloc (layout : HeapLayout) (bytes : Word) (bins : Option BinAnswer) : Alloc Word := do
  ensureInitialized layout
  serveRequest (paddedSize bytes) bins

/-- Where a freed chunk goes, once it is consolidated: to the bins or dv, or into top. -/
inductive Disposal
  | binned (chunks : ChunkStore)
  | intoTop (p psize : Word) (chunks : ChunkStore)

/-- The chunk ends where top begins and lies in the segment of top, aligned like every chunk. -/
def BordersTop (p psize : Word) (m : MallocState) : Prop :=
  p.toNat + psize.toNat = m.top.toNat ∧ p.toNat % 16 = 8 ∧
    ∃ s ∈ m.segs, s.base.toNat ≤ p.toNat ∧ m.top.toNat < s.base.toNat + s.size.toNat

instance (p psize : Word) (m : MallocState) : Decidable (BordersTop p psize m) :=
  inferInstanceAs (Decidable (_ ∧ _ ∧ _))

/-- `dlfree` and `dispose_chunk`. A chunk that is not what it seems is undefined behaviour. -/
def dispose : Disposal → Alloc Unit
  | .binned chunks => modifyState fun m => { m with chunks := chunks }
  | .intoTop p psize chunks => do
    if BordersTop p psize (← read).gm then
      modifyState fun m => { m with
        topsize := m.topsize + psize
        top := p
        chunks := chunks.setHead p ((m.topsize + psize) ||| pinuseBit) }
    else
      halt .undefined

/-- What `try_realloc_chunk` finds next to the chunk. -/
inductive Resize
  | refused
  | inPlace (chunks : ChunkStore) (remainder : Option Disposal)
  | intoTop (p oldsize : Word) (chunks : ChunkStore)

/-- `try_realloc_chunk`; the result is whether the chunk was resized. -/
def tryReallocChunk (nb : Word) : Resize → Alloc Bool
  | .refused => pure false
  | .inPlace chunks remainder => do
    modifyState fun m => { m with chunks := chunks }
    remainder.forM dispose
    return true
  | .intoTop p oldsize chunks => do
    let m := (← read).gm
    if BordersTop p oldsize m ∧ oldsize < nb then
      if nb < oldsize + m.topsize then
        modifyState fun m => { m with
          topsize := oldsize + m.topsize - nb
          top := p + nb
          chunks := chunks.setHead (p + nb) ((oldsize + m.topsize - nb) ||| pinuseBit) }
        return true
      else
        return false
    else
      halt .undefined

def callocRequest (nElements elemSize : Word) : Word :=
  if nElements ≠ 0 then
    let req := nElements * elemSize
    if (nElements ||| elemSize) &&& ~~~0xffff ≠ 0 ∧ req / nElements ≠ elemSize then maxSizeT
    else req
  else 0

/-- `dlrealloc`, where resizing in place failed: allocate, copy and free. -/
def reallocMove (layout : HeapLayout) (bytes : Word) (bins : Option BinAnswer) (freed : Disposal) :
    Alloc Word := do
  let mem ← dlmalloc layout bytes bins
  if mem = 0 then
    return 0
  else
    dispose freed
    return mem

def dlrealloc (layout : HeapLayout) (oldmem bytes : Word) (resize : Resize)
    (bins : Option BinAnswer) (freed : Disposal) : Alloc Word :=
  if oldmem = 0 then dlmalloc layout bytes bins
  else if maxRequest ≤ bytes then pure 0
  else do
    let resized ← tryReallocChunk (request2size bytes) resize
    if resized then return oldmem else reallocMove layout bytes bins freed

/-- Give a piece of a chunk back, if there is one. -/
def giveBack (piece : Option Chunk) (d : Disposal) : Alloc Unit :=
  match piece with
  | none => pure ()
  | some _ => dispose d

/-- Allocate the padded request of `internal_memalign` and cut the aligned chunk out of it. -/
def memalignServe (layout : HeapLayout) (alignment bytes : Word) (bins : Option BinAnswer)
    (leader remainder : Disposal) : Option Word → Alloc Word
  | none => pure 0
  | some req => do
    let mem ← dlmalloc layout req bins
    if mem = 0 then
      return 0
    else
      let p := mem2chunk mem
      let aligned := alignChunk alignment ⟨p, (← read).gm.chunks.chunksize p⟩
      let trimmed := trimChunk (request2size bytes) aligned.1
      giveBack aligned.2 leader
      giveBack trimmed.2 remainder
      return chunk2mem trimmed.1.addr

/-- `internal_memalign`, given the rounded alignment if the doubling loop ends. -/
def memalignRounded (layout : HeapLayout) (bytes : Word) (bins : Option BinAnswer)
    (leader remainder : Disposal) : Option Word → Alloc Word
  | none => halt .hang
  | some alignment =>
    memalignServe layout alignment bytes bins leader remainder (memalignRequest alignment bytes)

/-- `dlmemalign`; when the alignment is not rounded in 32 passes, it never is. -/
def dlmemalign (layout : HeapLayout) (alignment bytes : Word) (bins : Option BinAnswer)
    (leader remainder : Disposal) : Alloc Word :=
  if alignment ≤ mallocAlignment then dlmalloc layout bytes bins
  else memalignRounded layout bytes bins leader remainder (roundAlignment alignment 32)

inductive Request
  | malloc (size : Word) (bins : Option BinAnswer)
  | newNothrow (size : Word) (bins : Option BinAnswer)
  | calloc (n size : Word) (bins : Option BinAnswer)
  | realloc (ptr size : Word) (resize : Resize) (bins : Option BinAnswer) (freed : Disposal)
  | alignedAlloc (a size : Word) (bins : Option BinAnswer) (leader remainder : Disposal)
  | free (ptr : Word) (freed : Disposal)
  | grow (delta : Word)

/-- A request of the program, or a `memory.grow` by another party. -/
def serve (layout : HeapLayout) : Request → Alloc Word
  | .malloc size bins => dlmalloc layout size bins
  | .newNothrow size bins => dlmalloc layout size bins
  | .calloc n size bins => dlmalloc layout (callocRequest n size) bins
  | .realloc ptr size resize bins freed => dlrealloc layout ptr size resize bins freed
  | .alignedAlloc a size bins leader remainder => dlmemalign layout a size bins leader remainder
  | .free ptr freed => if ptr = 0 then pure 0 else do
    dispose freed
    return 0
  | .grow delta => do
    modify fun w => { w with env := foreignGrow delta w.env }
    return 0

def step (layout : HeapLayout) (request : Request) : Alloc Unit := do
  let _ ← serve layout request

/-- The world before the first request. -/
def World.initial (memory : Memory) : World := ⟨⟨memory, [], []⟩, MallocState.zeroed⟩

end WasmCxxShim.Dlmalloc
