import WasmCxxShim.DlmallocRequests
import WasmCxxShim.WordBytes

/-!
# The engine of dlmalloc

`dlmalloc`, `dlfree`, `try_realloc_chunk` and `internal_memalign` with their searches of the bins
and their boundary tags, in the place of the parameters of a request. The bins are still the list
of the chunks they link, the latest first; a failed run-time check is undefined behaviour, since
`ABORT` is `__builtin_unreachable()`. Without mmap `CALL_MUNMAP` fails, `should_trim` is 0 and
`release_unused_segments` finds nothing to release.
-/
namespace WasmCxxShim.Dlmalloc
open MachineWords WordBytes HaltingPrograms LinearMemory

def treebinShift : Word := 8
def ntreebins : Word := 32

def smallIndex (s : Word) : Word := s >>> smallbinShift
def smallIndex2size (i : Word) : Word := i <<< smallbinShift

def computeTreeIndex (s : Word) : Word :=
  let x := s >>> treebinShift
  if x = 0 then 0
  else if 0xFFFF < x then ntreebins - 1
  else
    let k := 31 - x.clz
    (k <<< 1) + ((s >>> (k + (treebinShift - 1))) &&& 1)

def idx2bit (i : Word) : Word := (1 : Word) <<< i
def leastBit (x : Word) : Word := x &&& -x
def leftBits (x : Word) : Word := (x <<< 1) ||| -(x <<< 1)
def computeBit2idx (x : Word) : Word := x.ctz

namespace ChunkStore

/-- `m->smallmap`: a bit for every small bin that holds a chunk. -/
def smallmap (c : ChunkStore) : Word :=
  (c.binned.filter fun x => isSmall x.2).foldr (fun x map => map ||| idx2bit (smallIndex x.2)) 0

/-- `m->treemap`. -/
def treemap (c : ChunkStore) : Word :=
  (c.binned.filter fun x => !isSmall x.2).foldr
    (fun x map => map ||| idx2bit (computeTreeIndex x.2)) 0

/-- `smallbin_at(m, i)->fd`: the chunk that was linked last. -/
def firstSmall (i : Word) (c : ChunkStore) : Option Word :=
  (c.binned.find? fun x => isSmall x.2 && smallIndex x.2 == i).map Prod.fst

/-- The better of a candidate and the best fit among the chunks linked before it. -/
def fitter (nb : Word) (x : Word × Word) (best : Option (Word × Word)) : Option (Word × Word) :=
  if isSmall x.2 || x.2 < nb then best
  else
    match best with
    | none => some x
    | some y => if x.2 < y.2 then some x else some y

/-- The chunk that the tree searches settle on: the smallest that fits, and of these the one that
was linked first. -/
def bestFit (nb : Word) (c : ChunkStore) : Option (Word × Word) := c.binned.foldr (fitter nb) none

def cinuse (c : ChunkStore) (p : Word) : Bool := c.head p &&& cinuseBit != 0

def pinuse (c : ChunkStore) (p : Word) : Bool := c.head p &&& pinuseBit != 0

def isMmapped (c : ChunkStore) (p : Word) : Bool := c.head p &&& inuseBits == 0

def setPinuse (p : Word) (c : ChunkStore) : ChunkStore := c.setHead p (c.head p ||| pinuseBit)

def setInuse (p s : Word) (c : ChunkStore) : ChunkStore :=
  (c.setHead p ((c.head p &&& pinuseBit) ||| s ||| cinuseBit)).setPinuse (p + s)

def setInuseAndPinuse (p s : Word) (c : ChunkStore) : ChunkStore :=
  (c.setHead p (s ||| pinuseBit ||| cinuseBit)).setPinuse (p + s)

def setDv (p s : Word) (c : ChunkStore) : ChunkStore := { c with dv := p, dvsize := s }

def replaceDv (p s : Word) (c : ChunkStore) : ChunkStore :=
  (if c.dvsize ≠ 0 then c.insertChunk c.dv c.dvsize else c).setDv p s

end ChunkStore

def withChunks (chunks : ChunkStore) (m : MallocState) : MallocState := { m with chunks := chunks }

def okAddress (m : MallocState) (a : Word) : Bool := m.leastAddr ≤ a

def okNext (p n : Word) : Bool := p < n

/-- The macros of the bins check the addresses of the chunks whose links they follow or write. Which
ones these are depends on the bin; here it is every chunk in a bin. -/
def okBins (m : MallocState) (c : ChunkStore) : Bool := c.binned.all fun x => okAddress m x.1

/-- `insert_chunk`. -/
def insertChunk (m : MallocState) (p s : Word) (c : ChunkStore) : Except Halt ChunkStore :=
  if okBins m c then .ok (c.insertChunk p s) else .error .undefined

/-- `unlink_chunk`; the links of a chunk in no bin fail the checks or are not links at all. -/
def unlinkChunk (m : MallocState) (p s : Word) (c : ChunkStore) : Except Halt ChunkStore :=
  if okBins m c ∧ (p, s) ∈ c.binned then .ok (c.unlinkChunk p s) else .error .undefined

/-- `replace_dv`. -/
def replaceDv (m : MallocState) (p s : Word) (c : ChunkStore) : Except Halt ChunkStore :=
  if c.dvsize = 0 ∨ okBins m c then .ok (c.replaceDv p s) else .error .undefined

/-- "Remainderless fit to a smallbin." -/
def exactSmall (i : Word) (m : MallocState) : Except Halt (Option BinAnswer) :=
  match m.chunks.firstSmall i with
  | none => .error .undefined
  | some p => do
    let s := smallIndex2size i
    let c ← unlinkChunk m p s m.chunks
    return some ⟨chunk2mem p, c.setInuseAndPinuse p s⟩

/-- Split a chunk of a bin; what to do with the remainder is a parameter. -/
def splitChunk {α : Type} (link : Word → Word → ChunkStore → α) (p nb rsize : Word)
    (c : ChunkStore) : α :=
  let c := c.setSizeAndPinuseOfInuseChunk p nb
  let r := p + nb
  link r rsize (c.setSizeAndPinuseOfFreeChunk r rsize)

/-- "Use chunk in next nonempty smallbin." Its remainder is never too small for a chunk. -/
def splitSmall (nb i : Word) (m : MallocState) : Except Halt (Option BinAnswer) :=
  match m.chunks.firstSmall i with
  | none => .error .undefined
  | some p => do
    let s := smallIndex2size i
    let c ← splitChunk (replaceDv m) p nb (s - nb) (← unlinkChunk m p s m.chunks)
    return some ⟨chunk2mem p, c⟩

/-- The end of `tmalloc_small` and `tmalloc_large`, which link the remainder differently. -/
def takeFit (link : Word → Word → ChunkStore → Except Halt ChunkStore) (nb v size : Word)
    (m : MallocState) : Except Halt (Option BinAnswer) :=
  let rsize := size - nb
  if okAddress m v && okNext v (v + nb) then do
    let c ← unlinkChunk m v size m.chunks
    let c ← if rsize < minChunkSize then .ok (c.setInuseAndPinuse v (rsize + nb))
      else splitChunk link v nb rsize c
    return some ⟨chunk2mem v, c⟩
  else .error .undefined

def tmallocSmall (nb : Word) (m : MallocState) : Except Halt (Option BinAnswer) :=
  match m.chunks.bestFit nb with
  | none => .error .undefined
  | some (v, size) => takeFit (replaceDv m) nb v size m

/-- "If dv is a better fit, return 0 so malloc will use it"; `dvsize - nb` may wrap. -/
def tmallocLarge (nb : Word) (m : MallocState) : Except Halt (Option BinAnswer) :=
  match m.chunks.bestFit nb with
  | none => .ok none
  | some (v, size) =>
    if size - nb < m.chunks.dvsize - nb then takeFit (insertChunk m) nb v size m
    else .ok none

/-- Split dv or exhaust it. -/
def takeDv (nb : Word) (c : ChunkStore) : Option BinAnswer :=
  if nb ≤ c.dvsize then
    let rsize := c.dvsize - nb
    let p := c.dv
    if minChunkSize ≤ rsize then
      let r := p + nb
      some ⟨chunk2mem p, ((c.setDv r rsize).setSizeAndPinuseOfFreeChunk r
        rsize).setSizeAndPinuseOfInuseChunk p nb⟩
    else some ⟨chunk2mem p, (c.setDv 0 0).setInuseAndPinuse p c.dvsize⟩
  else none

/-- A request of at most `MAX_SMALL_REQUEST` bytes. -/
def smallBins (nb : Word) (m : MallocState) : Except Halt (Option BinAnswer) :=
  let c := m.chunks
  let idx := smallIndex nb
  let smallbits := c.smallmap >>> idx
  if smallbits &&& 3 ≠ 0 then
    -- Uses the next bin if this one is empty.
    exactSmall (idx + (~~~smallbits &&& 1)) m
  else if c.dvsize < nb then
    if smallbits ≠ 0 then
      let leftbits := (smallbits <<< idx) &&& leftBits (idx2bit idx)
      splitSmall nb (computeBit2idx (leastBit leftbits)) m
    else if c.treemap ≠ 0 then tmallocSmall nb m
    else .ok none
  else .ok (takeDv nb c)

/-- A larger request. -/
def largeBins (nb : Word) (m : MallocState) : Except Halt (Option BinAnswer) := do
  let answer ← if m.chunks.treemap ≠ 0 then tmallocLarge nb m else .ok none
  return answer.or (takeDv nb m.chunks)

/-- What `dlmalloc` finds in the bins and dv. -/
def searchBins (bytes : Word) (m : MallocState) : Except Halt (Option BinAnswer) :=
  let nb := paddedSize bytes
  if bytes ≤ maxSmallRequest then smallBins nb m
  else if maxRequest ≤ bytes then .ok (takeDv nb m.chunks)
  else largeBins nb m

/-- The second half of `dlfree` and `dispose_chunk`: consolidate forward, and link the chunk. -/
def consolidateForward (p psize next : Word) (m : MallocState) : Except Halt MallocState :=
  let c := m.chunks
  if !c.cinuse next then
    if next = m.top then
      let tsize := m.topsize + psize
      let c := if p = c.dv then c.setDv 0 0 else c
      .ok { m with topsize := tsize, top := p, chunks := c.setHead p (tsize ||| pinuseBit) }
    else if next = c.dv then
      let dsize := c.dvsize + psize
      .ok (withChunks ((c.setDv p dsize).setSizeAndPinuseOfFreeChunk p dsize) m)
    else do
      let nsize := c.chunksize next
      let c := (← unlinkChunk m next nsize c).setSizeAndPinuseOfFreeChunk p (psize + nsize)
      let c ← if p = c.dv then .ok (c.setDv p (psize + nsize)) else insertChunk m p (psize + nsize) c
      return withChunks c m
  else do
    let c ← insertChunk m p psize (c.setFreeWithPinuse p psize next)
    return withChunks c m

/-- `dispose_chunk`; the check on the next chunk is a parameter, since `dlfree` makes others. -/
def consolidate (ok : Word → Word → MallocState → Bool) (p psize : Word) (m : MallocState) :
    Except Halt MallocState :=
  let c := m.chunks
  let next := p + psize
  let forward := fun (p psize : Word) (m : MallocState) =>
    if ok p next m then consolidateForward p psize next m else .error .undefined
  if !c.pinuse p then
    let prevsize := c.prevFoot p
    -- Unmapping fails, and the chunk stays as it is.
    if c.isMmapped p then .ok m
    else
      let prev := p - prevsize
      let psize := psize + prevsize
      if okAddress m prev then
        if prev ≠ c.dv then do
          let c ← unlinkChunk m prev prevsize c
          forward prev psize (withChunks c m)
        else if c.head next &&& inuseBits = inuseBits then
          .ok (withChunks ((c.setDv prev psize).setFreeWithPinuse prev psize next) m)
        else forward prev psize m
      else .error .undefined
  else forward p psize m

def disposeChunk (p psize : Word) (m : MallocState) : Except Halt MallocState :=
  consolidate (fun _ next m => okAddress m next) p psize m

def dlfree (mem : Word) (m : MallocState) : Except Halt MallocState :=
  if mem ≠ 0 then
    let p := mem2chunk mem
    if okAddress m p && m.chunks.isInuse p then
      consolidate (fun p next m => okNext p next && m.chunks.pinuse next) p (m.chunks.chunksize p) m
    else .error .undefined
  else .ok m

/-- Cut a chunk that is not in use down to `nb` bytes in use, and dispose of the rest. -/
def splitOff (p nb rsize : Word) (m : MallocState) : Except Halt MallocState :=
  let r := p + nb
  disposeChunk r rsize (withChunks ((m.chunks.setInuse p nb).setInuse r rsize) m)

/-- "Extend into top." -/
def extendIntoTop (p nb oldsize : Word) (m : MallocState) : MallocState :=
  let newtopsize := oldsize + m.topsize - nb
  let newtop := p + nb
  { m with
    top := newtop
    topsize := newtopsize
    chunks := (m.chunks.setInuse p nb).setHead newtop (newtopsize ||| pinuseBit) }

/-- "Extend into dv." -/
def extendIntoDv (p nb oldsize : Word) (c : ChunkStore) : ChunkStore :=
  let dsize := oldsize + c.dvsize - nb
  if minChunkSize ≤ dsize then
    let r := p + nb
    (((c.setInuse p nb).setSizeAndPinuseOfFreeChunk r dsize).clearPinuse (r + dsize)).setDv r dsize
  else (c.setInuse p (oldsize + c.dvsize)).setDv 0 0

/-- "Extend into next free chunk." -/
def extendIntoNext (p nb oldsize next : Word) (m : MallocState) : Except Halt MallocState := do
  let nextsize := m.chunks.chunksize next
  let rsize := oldsize + nextsize - nb
  let c ← unlinkChunk m next nextsize m.chunks
  if rsize < minChunkSize then
    return withChunks (c.setInuse p (oldsize + nextsize)) m
  else
    splitOff p nb rsize (withChunks c m)

/-- `try_realloc_chunk`; no result means that the chunk cannot be resized in place. -/
def resizeChunk (p nb : Word) (m : MallocState) : Except Halt (Option MallocState) :=
  let c := m.chunks
  let oldsize := c.chunksize p
  let next := p + oldsize
  if okAddress m p && c.isInuse p && okNext p next && c.pinuse next then
    if c.isMmapped p then .ok none
    else if nb ≤ oldsize then
      if minChunkSize ≤ oldsize - nb then some <$> splitOff p nb (oldsize - nb) m
      else .ok (some m)
    else if next = m.top then
      .ok (if nb < oldsize + m.topsize then some (extendIntoTop p nb oldsize m) else none)
    else if next = c.dv then
      .ok (if nb ≤ oldsize + c.dvsize then some (withChunks (extendIntoDv p nb oldsize c) m)
        else none)
    else if !c.cinuse next then
      if nb ≤ oldsize + c.chunksize next then some <$> extendIntoNext p nb oldsize next m
      else .ok none
    else .ok none
  else .error .undefined

/-- Give the leader of an aligned chunk back. -/
def giveLeader (p newp newsize : Word) (m : MallocState) : Except Halt MallocState :=
  let leadsize := newp - p
  disposeChunk p leadsize (withChunks ((m.chunks.setInuse newp newsize).setInuse p leadsize) m)

/-- The end of `internal_memalign`: cut the aligned chunk out of the chunk at `p`. -/
def carveAligned (alignment nb p : Word) (m : MallocState) : Except Halt (Word × MallocState) := do
  let aligned := alignChunk alignment ⟨p, m.chunks.chunksize p⟩
  let newp := aligned.1.addr
  let m ← if aligned.2.isSome then giveLeader p newp aligned.1.size m else .ok m
  let size := m.chunks.chunksize newp
  let m ← if nb + minChunkSize < size then splitOff newp nb (size - nb) m else .ok m
  return (chunk2mem newp, m)

namespace ChunkStore

def loadByte (a : Word) (c : ChunkStore) : Byte := byteOf (c.word (wordAddr a)) (lane a)

def storeByte (a : Word) (b : Byte) (c : ChunkStore) : ChunkStore :=
  c.setWord (wordAddr a) (withByte (lane a) b (c.word (wordAddr a)))

/-- `memset`. -/
def fillBytes (b : Byte) : ℕ → Word → ChunkStore → ChunkStore
  | 0, _, c => c
  | n + 1, a, c => fillBytes b n (a + 1) (c.storeByte a b)

/-- `memcpy`. -/
def copyBytes : ℕ → Word → Word → ChunkStore → ChunkStore
  | 0, _, _, c => c
  | n + 1, dest, src, c => copyBytes n (dest + 1) (src + 1) (c.storeByte dest (c.loadByte src))

def overheadFor (c : ChunkStore) (p : Word) : Word :=
  if c.isMmapped p then twoSizeTSizes else chunkOverhead

def callocMustClear (c : ChunkStore) (p : Word) : Bool := !c.isMmapped p

end ChunkStore

def modifyChunks (f : ChunkStore → ChunkStore) : Alloc Unit :=
  modifyState fun m => withChunks (f m.chunks) m

/-- Run a function of the allocator state that can fail a run-time check. -/
def onState {α : Type} (f : MallocState → Except Halt (α × MallocState)) : Alloc α := fun w =>
  match f w.gm with
  | .ok (a, m) => .ok a { w with gm := m }
  | .error reason => .halt reason w

namespace Engine

def dlmalloc (layout : HeapLayout) (bytes : Word) : Alloc Word := do
  ensureInitialized layout
  let bins ← onState fun m => (searchBins bytes m).map (·, m)
  serveRequest (paddedSize bytes) bins

def dlfree (mem : Word) : Alloc Unit := onState fun m => (Dlmalloc.dlfree mem m).map ((), ·)

/-- The end of `dlrealloc`: allocate, copy and free. -/
def reallocMove (layout : HeapLayout) (oldmem bytes : Word) : Alloc Word := do
  let mem ← dlmalloc layout bytes
  if mem = 0 then
    return 0
  else
    let c := (← read).gm.chunks
    let oldp := mem2chunk oldmem
    let oc := c.chunksize oldp - c.overheadFor oldp
    modifyChunks (ChunkStore.copyBytes (if oc < bytes then oc else bytes).toNat mem oldmem)
    dlfree oldmem
    return mem

def tryReallocChunk (p nb : Word) : Alloc Bool := onState fun m =>
  (resizeChunk p nb m).map fun resized => (resized.isSome, resized.getD m)

def dlrealloc (layout : HeapLayout) (oldmem bytes : Word) : Alloc Word :=
  if oldmem = 0 then dlmalloc layout bytes
  else if maxRequest ≤ bytes then pure 0
  else do
    let resized ← tryReallocChunk (mem2chunk oldmem) (request2size bytes)
    if resized then return oldmem else reallocMove layout oldmem bytes

/-- `internal_memalign`, from the rounded alignment on. -/
def memalignServe (layout : HeapLayout) (alignment bytes : Word) : Option Word → Alloc Word
  | none => pure 0
  | some req => do
    let mem ← dlmalloc layout req
    if mem = 0 then
      return 0
    else
      onState (carveAligned alignment (request2size bytes) (mem2chunk mem))

def internalMemalign (layout : HeapLayout) (alignment bytes : Word) : Alloc Word :=
  match roundAlignment alignment 32 with
  | none => halt .hang
  | some alignment => memalignServe layout alignment bytes (memalignRequest alignment bytes)

def dlmemalign (layout : HeapLayout) (alignment bytes : Word) : Alloc Word :=
  if alignment ≤ mallocAlignment then dlmalloc layout bytes
  else internalMemalign layout alignment bytes

def dlcalloc (layout : HeapLayout) (nElements elemSize : Word) : Alloc Word := do
  let req := callocRequest nElements elemSize
  let mem ← dlmalloc layout req
  if mem = 0 then
    return 0
  else
    if (← read).gm.chunks.callocMustClear (mem2chunk mem) then
      modifyChunks (ChunkStore.fillBytes 0 req.toNat mem)
    return mem

end Engine

end WasmCxxShim.Dlmalloc
