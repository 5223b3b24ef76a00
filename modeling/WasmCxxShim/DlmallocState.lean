import WasmCxxShim.DlmallocConstants

/-!
# The allocator state and its segments

The state of the global `malloc_state` that `sys_alloc` works on. Segment records form a list
with `m->seg` at its head; the `next` links of the source point down the list. The words of the
heap are one map, in which heads, feet, links and segment records lie beside what the program
stores. The small bins and tree bins together are the list of the free chunks they link.
`trim_check`, `release_checks` and `magic` are left out: as configured, nothing reads them.
-/
namespace WasmCxxShim.Dlmalloc
open MachineWords HaltingPrograms AddressRegions LinearMemory

structure ChunkStore where
  word : Word → Word
  dv : Word
  dvsize : Word
  binned : List (Word × Word)

structure Segment where
  base : Word
  size : Word
  sflags : Word
  deriving DecidableEq, Repr

/-- The segment as an interval of natural number addresses. -/
def Segment.region (s : Segment) : Region := ⟨s.base.toNat, s.size.toNat⟩

namespace ChunkStore

def prevFoot (c : ChunkStore) (p : Word) : Word := c.word p

def head (c : ChunkStore) (p : Word) : Word := c.word (p + sizeTSize)

def setWord (x v : Word) (c : ChunkStore) : ChunkStore :=
  { c with word := Function.update c.word x v }

def setHead (p v : Word) (c : ChunkStore) : ChunkStore := c.setWord (p + sizeTSize) v

def setFoot (p s : Word) (c : ChunkStore) : ChunkStore := c.setWord (p + s) s

def chunksize (c : ChunkStore) (p : Word) : Word := c.head p &&& ~~~flagBits

def isInuse (c : ChunkStore) (p : Word) : Bool := c.head p &&& inuseBits != pinuseBit

def clearPinuse (p : Word) (c : ChunkStore) : ChunkStore := c.setHead p (c.head p &&& ~~~pinuseBit)

def setSizeAndPinuseOfInuseChunk (p s : Word) (c : ChunkStore) : ChunkStore :=
  c.setHead p (s ||| pinuseBit ||| cinuseBit)

def setSizeAndPinuseOfFreeChunk (p s : Word) (c : ChunkStore) : ChunkStore :=
  (c.setHead p (s ||| pinuseBit)).setFoot p s

def setFreeWithPinuse (p s n : Word) (c : ChunkStore) : ChunkStore :=
  (c.clearPinuse n).setSizeAndPinuseOfFreeChunk p s

/-- The links of a chunk end after `bk`, and those of a chunk in a tree after `index`. -/
def linksSize (s : Word) : Word := if isSmall s then 16 else 32

/-- The word at `x` is a link of a chunk in a bin. -/
def isLink (c : ChunkStore) (x : Word) : Bool :=
  c.binned.any fun q => chunk2mem q.1 ≤ x && x < q.1 + linksSize q.2

/-- What the macros do to the links in the bins. They write some of them, which depends on the
order in the bin; here all are written, and 0 stands for what only the macros read. -/
def writeLinks (c : ChunkStore) : ChunkStore :=
  { c with word := fun x => if c.isLink x then 0 else c.word x }

def insertChunk (p s : Word) (c : ChunkStore) : ChunkStore :=
  { c with binned := (p, s) :: c.binned }.writeLinks

def unlinkChunk (p s : Word) (c : ChunkStore) : ChunkStore :=
  { c.writeLinks with binned := c.binned.erase (p, s) }

/-- Copy a segment to its record at `ss`, as `*ss = m->seg` does. -/
def writeRecord (ss : Word) (s : Segment) (next : Word) (c : ChunkStore) : ChunkStore :=
  (((c.setWord ss s.base).setWord (ss + sizeTSize) s.size).setWord (ss + twoSizeTSizes)
    next).setWord (ss + twoSizeTSizes + sizeTSize) s.sflags

/-- The loop of `add_segment` that writes fencepost headers up to the end of the old segment. -/
def fenceposts (oldEnd : Word) : ℕ → Word → ChunkStore → ChunkStore
  | 0, _, c => c
  | fuel + 1, p, c =>
    let nextp := p + sizeTSize
    let c := c.setHead p fencepostHead
    if nextp + sizeTSize < oldEnd then fenceposts oldEnd fuel nextp c else c

end ChunkStore

/-- The first of the segments is `m->seg`; `records` are the addresses of the records of the
others. -/
structure MallocState where
  chunks : ChunkStore
  topsize : Word
  leastAddr : Word
  top : Word
  footprint : Word
  maxFootprint : Word
  footprintLimit : Word
  mflags : Word
  segs : List Segment
  records : List Word

/-- The zeroed static `_gm_`. -/
def MallocState.zeroed : MallocState where
  chunks := ⟨fun _ => 0, 0, 0, []⟩
  topsize := 0
  leastAddr := 0
  top := 0
  footprint := 0
  maxFootprint := 0
  footprintLimit := 0
  mflags := 0
  segs := [⟨0, 0, 0⟩]
  records := []

def isInitialized (m : MallocState) : Bool := m.top != 0

def useNoncontiguous (m : MallocState) : Bool := m.mflags &&& useNoncontiguousBit != 0

def disableContiguous (m : MallocState) : MallocState :=
  { m with mflags := m.mflags ||| useNoncontiguousBit }

def segmentHolds (s : Segment) (a : Word) : Bool := s.base ≤ a && a < s.base + s.size

def segmentHolding (m : MallocState) (a : Word) : Option Segment :=
  m.segs.find? fun s => segmentHolds s a

def isExternSegment (s : Segment) : Bool := s.sflags &&& externBit != 0

def initTop (p psize : Word) (m : MallocState) : MallocState :=
  let offset := alignOffset (chunk2mem p)
  let p := p + offset
  let psize := psize - offset
  { m with
    top := p
    topsize := psize
    chunks := (m.chunks.setHead p (psize ||| pinuseBit)).setHead (p + psize) topFootSize }

/-- Prepend `[newbase, oldbase)` to the segment that began at `oldbase` and allocate from it. -/
def prependAlloc (newbase oldbase nb : Word) (m : MallocState) : Word × MallocState :=
  let p := alignAsChunk newbase
  let oldfirst := alignAsChunk oldbase
  let psize := oldfirst - p
  let q := p + nb
  let qsize := psize - nb
  let chunks := m.chunks.setSizeAndPinuseOfInuseChunk p nb
  if oldfirst = m.top then
    let tsize := m.topsize + qsize
    (chunk2mem p, { m with
      topsize := tsize, top := q, chunks := chunks.setHead q (tsize ||| pinuseBit) })
  else if oldfirst = chunks.dv then
    let dsize := chunks.dvsize + qsize
    (chunk2mem p, { m with
      chunks := { chunks with dvsize := dsize, dv := q }.setSizeAndPinuseOfFreeChunk q dsize })
  else if chunks.isInuse oldfirst then
    (chunk2mem p, { m with
      chunks := (chunks.setFreeWithPinuse q qsize oldfirst).insertChunk q qsize })
  else
    let nsize := chunks.chunksize oldfirst
    let chunks := chunks.unlinkChunk oldfirst nsize
    let oldfirst := oldfirst + nsize
    let qsize := qsize + nsize
    (chunk2mem p, { m with
      chunks := (chunks.setFreeWithPinuse q qsize oldfirst).insertChunk q qsize })

/-- Push a segment for a new noncontiguous region; its record goes to the end of the old top. -/
def addSegment (tbase tsize mmapped : Word) (m : MallocState) : MallocState :=
  let oldTop := m.top
  -- The source dereferences the result of `segment_holding` without a null test.
  let oldsp := (segmentHolding m oldTop).getD ⟨0, 0, 0⟩
  let oldEnd := oldsp.base + oldsp.size
  let ssize := padRequest sizeofMallocSegment
  let rawsp := oldEnd - (ssize + fourSizeTSizes + chunkAlignMask)
  let offset := alignOffset (chunk2mem rawsp)
  let asp := rawsp + offset
  let csp := if asp < oldTop + minChunkSize then oldTop else asp
  let ss := chunk2mem csp
  let tnext := csp + ssize
  let m := initTop tbase (tsize - topFootSize) m
  let chunks := (m.chunks.setSizeAndPinuseOfInuseChunk csp ssize).writeRecord ss
    (m.segs.headD ⟨0, 0, 0⟩) (m.records.headD 0)
  let chunks := chunks.fenceposts oldEnd (oldEnd - tnext).toNat tnext
  let psize := csp - oldTop
  let chunks := if csp = oldTop then chunks
    else (chunks.setFreeWithPinuse oldTop psize csp).insertChunk oldTop psize
  { m with chunks := chunks, segs := ⟨tbase, tsize, mmapped⟩ :: m.segs, records := ss :: m.records }

structure World where
  env : Env
  gm : MallocState

abbrev Alloc := Program Halt World

/-- `CALL_MORECORE`. -/
def callMorecore (increment : Word) : Alloc Word :=
  within World.env (fun e w => { w with env := e }) (sbrk increment)

def modifyState (f : MallocState → MallocState) : Alloc Unit :=
  modify fun w => { w with gm := f w.gm }

/-- The linker symbols `__heap_base` and `__heap_end`. -/
structure HeapLayout where
  heapBase : Word
  heapEnd : Word

/-- The state that `try_init_allocator` sets up for `[base, base + size)`. -/
def initialState (base size : Word) (m : MallocState) : MallocState :=
  initTop base (size - topFootSize)
    { m with
      leastAddr := base
      segs := ⟨base, size, 0⟩ :: m.segs.tail
      footprint := size
      maxFootprint := size }

def tryInitAllocator (layout : HeapLayout) : Alloc Unit :=
  let base := layout.heapBase
  let finish := layout.heapEnd
  if finish < base then halt .initTrap
  else
    let initialHeapSize := finish - base
    if initialHeapSize ≤ minChunkSize + topFootSize + mallocAlignment then pure ()
    else modifyState (initialState base initialHeapSize)

@[simp] theorem initTop_top (p psize : Word) (m : MallocState) :
    (initTop p psize m).top = alignAsChunk p := rfl

end WasmCxxShim.Dlmalloc
