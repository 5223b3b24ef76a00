import WasmCxxShim.DlmallocState

/-!
# `sys_alloc`

The ways of acquiring memory are separate programs, in the order of the source: growing for the
first time, growing the segment that holds top, coping with a partial failure, and growing
without regard to contiguity. `installRegion` then merges the new region with a segment or adds
a segment for it, and `allocateFromTop` serves the request.
-/
namespace WasmCxxShim.Dlmalloc
open MachineWords HaltingPrograms LinearMemory

/-- The locals of the contiguous path: the result `br` of the first call, its size `ssize` and
the region `tbase`, `tsize` acquired so far. -/
structure Morecore where
  br : Word
  ssize : Word
  tbase : Word
  tsize : Word
  deriving DecidableEq, Repr

/-- The `ss == 0` branch: first time through or recovery. -/
def growFirst (nb asize : Word) : Alloc Morecore := do
  let base ← callMorecore 0
  if base = cmFail then
    return ⟨cmFail, asize, cmFail, 0⟩
  let ssize := if isPageAligned base then asize else asize + (pageAlign base - base)
  let m := (← read).gm
  let fp := m.footprint + ssize
  if nb < ssize ∧ ssize < halfMaxSizeT ∧
      (m.footprintLimit = 0 ∨ m.footprint < fp ∧ fp ≤ m.footprintLimit) then
    let br ← callMorecore ssize
    if br = base then
      return ⟨br, ssize, base, ssize⟩
    return ⟨br, ssize, cmFail, 0⟩
  return ⟨cmFail, ssize, cmFail, 0⟩

/-- The `ss != 0` branch: extend the segment that holds top. -/
def growTop (nb : Word) (ss : Segment) : Alloc Morecore := do
  let m := (← read).gm
  let ssize := granularityAlign (nb - m.topsize + sysAllocPadding)
  if ssize < halfMaxSizeT then
    let br ← callMorecore ssize
    if br = ss.base + ss.size then
      return ⟨br, ssize, br, ssize⟩
    return ⟨br, ssize, cmFail, 0⟩
  return ⟨cmFail, ssize, cmFail, 0⟩

/-- "Cope with partial failure": extend the space that was got, or try to release it. -/
def copePartial (nb : Word) (g : Morecore) : Alloc Morecore := do
  if g.tbase ≠ cmFail then
    return g
  let mut g := g
  if g.br ≠ cmFail then
    if g.ssize < halfMaxSizeT ∧ g.ssize < nb + sysAllocPadding then
      let esize := granularityAlign (nb + sysAllocPadding - g.ssize)
      if esize < halfMaxSizeT then
        let finish ← callMorecore esize
        if finish ≠ cmFail then
          g := { g with ssize := g.ssize + esize }
        else
          let _ ← callMorecore (-g.ssize)
          g := { g with br := cmFail }
  if g.br ≠ cmFail then
    return { g with tbase := g.br, tsize := g.ssize }
  modifyState disableContiguous
  return g

/-- The first calls of the contiguous path, by whether a segment holds top. -/
def growHolding (nb asize : Word) : Option Segment → Alloc Morecore
  | none => growFirst nb asize
  | some ss => growTop nb ss

/-- The contiguous path as a whole; the result is `tbase` and `tsize`. -/
def growContiguous (nb asize : Word) : Alloc (Word × Word) := do
  let m := (← read).gm
  let ss := if m.top = 0 then none else segmentHolding m m.top
  let g ← growHolding nb asize ss
  let g ← copePartial nb g
  return (g.tbase, g.tsize)

/-- The noncontiguous path. -/
def growNoncontiguous (nb asize : Word) : Alloc (Word × Word) := do
  if asize < halfMaxSizeT then
    let br ← callMorecore asize
    let finish ← callMorecore 0
    let ssize := finish - br
    if br ≠ cmFail ∧ finish ≠ cmFail ∧ br < finish ∧ nb + topFootSize < ssize then
      return (br, ssize)
    else
      return (cmFail, 0)
  else
    return (cmFail, 0)

def addFootprint (tsize : Word) (m : MallocState) : MallocState :=
  let footprint := m.footprint + tsize
  { m with
    footprint := footprint
    maxFootprint := if m.maxFootprint < footprint then footprint else m.maxFootprint }

/-- "First-time initialization"; `mmap_flag` is zero without mmap. -/
def firstSegment (tbase tsize : Word) (m : MallocState) : MallocState :=
  initTop tbase (tsize - topFootSize) { m with
    leastAddr := if m.leastAddr = 0 ∨ tbase < m.leastAddr then tbase else m.leastAddr
    segs := ⟨tbase, tsize, useMmapBit⟩ :: m.segs.tail }

def endsAt (a : Word) (s : Segment) : Bool := a == s.base + s.size

def beginsAt (a : Word) (s : Segment) : Bool := s.base == a

/-- The segment may be merged with memory from MORECORE. -/
def mergeable (s : Segment) : Bool := !isExternSegment s && (s.sflags &&& useMmapBit == useMmapBit)

/-- Update the first segment with the property, and its record in the heap if it has one: the
record of the first segment of all is part of the state. -/
def updateSegment (p : Segment → Bool) (f : Segment → Segment) (m : MallocState) : MallocState :=
  let segs := AddressRegions.updateFirst p f m.segs
  let c := m.chunks
  match m.segs.findIdx? p with
  | some (i + 1) =>
    let ss := m.records.getD i 0
    let sp := segs.getD (i + 1) ⟨0, 0, 0⟩
    { m with segs := segs, chunks := (c.setWord ss sp.base).setWord (ss + sizeTSize) sp.size }
  | _ => { m with segs := segs }

/-- Extend the segment that ends at the region and holds top. -/
def appendRegion (tbase tsize : Word) (m : MallocState) : MallocState :=
  initTop m.top (m.topsize + tsize)
    (updateSegment (endsAt tbase) (fun s => { s with size := s.size + tsize }) m)

/-- Extend the segment that begins at `oldbase` downwards and allocate from the region. -/
def prependRegion (tbase tsize oldbase nb : Word) (m : MallocState) : Word × MallocState :=
  prependAlloc tbase oldbase nb (updateSegment (beginsAt (tbase + tsize))
    (fun s => { s with base := tbase, size := s.size + tsize }) m)

/-- The region does not extend the segment of top: prepend it to a segment, or add one. -/
def installApart (nb tbase tsize : Word) (m : MallocState) : Option Word × MallocState :=
  let m := { m with leastAddr := if tbase < m.leastAddr then tbase else m.leastAddr }
  match m.segs.find? (beginsAt (tbase + tsize)) with
  | some sp =>
    if mergeable sp then
      let (mem, m) := prependRegion tbase tsize sp.base nb m
      (some mem, m)
    else (none, addSegment tbase tsize useMmapBit m)
  | none => (none, addSegment tbase tsize useMmapBit m)

/-- "Try to merge with an existing segment." -/
def installMerging (nb tbase tsize : Word) (m : MallocState) : Option Word × MallocState :=
  match m.segs.find? (endsAt tbase) with
  | some sp =>
    if mergeable sp && segmentHolds sp m.top then (none, appendRegion tbase tsize m)
    else installApart nb tbase tsize m
  | none => installApart nb tbase tsize m

/-- Add the region to the segments. The first component is the result of `prepend_alloc`, which
returns from `sys_alloc` at once. -/
def installRegion (nb tbase tsize : Word) (m : MallocState) : Option Word × MallocState :=
  let m := addFootprint tsize m
  if isInitialized m then installMerging nb tbase tsize m
  else (none, firstSegment tbase tsize m)

/-- Split the request off top; `dlmalloc` does the same with the top it finds. -/
def splitTop (nb : Word) (m : MallocState) : MallocState :=
  let rsize := m.topsize - nb
  let p := m.top
  let r := p + nb
  { m with
    topsize := rsize
    top := r
    chunks := (m.chunks.setHead r (rsize ||| pinuseBit)).setSizeAndPinuseOfInuseChunk p nb }

/-- Allocate from new or extended top space. -/
def allocateFromTop (nb : Word) : Alloc Word := do
  let w ← read
  if nb < w.gm.topsize then
    modifyState (splitTop nb)
    return chunk2mem w.gm.top
  else
    return 0

/-- Add the region that was acquired and serve the request from it. -/
def useRegion (nb tbase tsize : Word) : Alloc Word := do
  let (mem, m) := installRegion nb tbase tsize (← read).gm
  modifyState fun _ => m
  match mem with
  | some mem => return mem
  | none => allocateFromTop nb

/-- "Try getting memory": contiguously, unless that is disabled, and then noncontiguously. -/
def acquireRegion (nb asize : Word) : Alloc (Word × Word) := do
  let m := (← read).gm
  let region ← (if useNoncontiguous m then pure (cmFail, 0) else growContiguous nb asize :
    Alloc (Word × Word))
  if region.1 = cmFail then growNoncontiguous nb asize else pure region

def sysAlloc (nb : Word) : Alloc Word := do
  let asize := granularityAlign (nb + sysAllocPadding)
  if asize ≤ nb then
    return 0
  else
    let m := (← read).gm
    let fp := m.footprint + asize
    if m.footprintLimit ≠ 0 ∧ (fp ≤ m.footprint ∨ m.footprintLimit < fp) then
      return 0
    else
      let region ← acquireRegion nb asize
      if region.1 = cmFail then
        return 0
      else
        useRegion nb region.1 region.2

end WasmCxxShim.Dlmalloc
