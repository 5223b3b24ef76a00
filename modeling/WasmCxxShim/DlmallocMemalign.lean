import WasmCxxShim.DlmallocConstants
import WasmCxxShim.LoopRules

/-!
# `internal_memalign`

The steps of `internal_memalign` are separate functions: rounding the alignment to a power of two
by a doubling loop, the size of the padded request, and cutting an aligned chunk out of the chunk
that `dlmalloc` returns. `dlmalloc` is a parameter here.
-/
namespace WasmCxxShim.Dlmalloc
open MachineWords LoopRules LinearMemory

/-- An in-use chunk: the address of its header and its `chunksize`. -/
structure Chunk where
  addr : Word
  size : Word
  deriving DecidableEq, Repr

/-- One pass of `while (a < alignment) a <<= 1`. -/
def doublePass (alignment a : Word) : Option (Pass Word Word) :=
  if a < alignment then some (.again (a <<< 1)) else some (.leave a)

/-- "Ensure a power of 2." -/
def powerOf2 (alignment : Word) (fuel : ℕ) : Option Word :=
  if alignment &&& (alignment - 1) ≠ 0 then
    iterate (doublePass alignment) fuel (mallocAlignment <<< 1)
  else some alignment

def roundAlignment (alignment : Word) (fuel : ℕ) : Option Word :=
  powerOf2 (if alignment < minChunkSize then minChunkSize else alignment) fuel

/-- The request to `internal_malloc`, unless it would overflow. -/
def memalignRequest (alignment bytes : Word) : Option Word :=
  if maxRequest - alignment ≤ bytes then none
  else some (request2size bytes + alignment + minChunkSize - chunkOverhead)

/-- Move a misaligned chunk to an aligned spot inside it and give back the leader. -/
def alignChunk (alignment : Word) (p : Chunk) : Chunk × Option Chunk :=
  let mem := chunk2mem p.addr
  if mem &&& (alignment - 1) ≠ 0 then
    let br := mem2chunk ((mem + alignment - 1) &&& -alignment)
    let pos := if minChunkSize ≤ br - p.addr then br else br + alignment
    let leadsize := pos - p.addr
    (⟨pos, p.size - leadsize⟩, some ⟨p.addr, leadsize⟩)
  else (p, none)

/-- "Give back spare room at the end." -/
def trimChunk (nb : Word) (p : Chunk) : Chunk × Option Chunk :=
  if nb + minChunkSize < p.size then (⟨p.addr, nb⟩, some ⟨p.addr + nb, p.size - nb⟩)
  else (p, none)

/-- A returned chunk, with the chunk that `dlmalloc` returned for it. -/
structure Allocation where
  chunk : Chunk
  obtained : Chunk
  deriving DecidableEq, Repr

/-- The chunk that is left when both the leader and the spare room are given back. -/
def carveChunk (alignment nb : Word) (p : Chunk) : Chunk :=
  (trimChunk nb (alignChunk alignment p).1).1

/-- `internal_memalign`, from the rounded alignment on. -/
def memalignChunk (malloc : Word → Option Chunk) (alignment bytes : Word) : Option Allocation := do
  let req ← memalignRequest alignment bytes
  let p ← malloc req
  return ⟨carveChunk alignment (request2size bytes) p, p⟩

def internalMemalign (malloc : Word → Option Chunk) (alignment bytes : Word) (fuel : ℕ) :
    Option (Option Allocation) :=
  match roundAlignment alignment fuel with
  | none => none
  | some alignment => some (memalignChunk malloc alignment bytes)

/-- `aligned_alloc`, which is `dlmemalign`; the outer `none` is a run that has not finished. -/
def alignedAlloc (malloc : Word → Option Chunk) (alignment size : Word) (fuel : ℕ) :
    Option (Option Allocation) :=
  if alignment ≤ mallocAlignment then some ((malloc size).map fun p => ⟨p, p⟩)
  else internalMemalign malloc alignment size fuel

/-- How `operator new` ends. -/
inductive NewResult
  | block (a : Allocation)
  | trap
  deriving DecidableEq, Repr

/-- `operator new(size_t, align_val_t)`. -/
def operatorNewAligned (malloc : Word → Option Chunk) (size align : Word) (fuel : ℕ) :
    Option NewResult :=
  match alignedAlloc malloc align size fuel with
  | none => none
  | some none => some .trap
  | some (some a) => some (.block a)

/-- The bytes a chunk's owner may use: all of it but the header, and the first word of the next
chunk. -/
def usableSize (p : Chunk) : ℕ := p.size.toNat - 4

/-- A chunk as `dlmalloc` returns it for a request of `r` bytes. -/
structure Serves (r : Word) (p : Chunk) : Prop where
  nonnull : chunk2mem p.addr ≠ 0
  aligned : 16 ∣ (chunk2mem p.addr).toNat
  inside : (chunk2mem p.addr).toNat + usableSize p ≤ 4294967296
  enough : r.toNat ≤ usableSize p

/-- `dlmalloc` returns NULL or a chunk that serves the request. -/
def ServesRequests (malloc : Word → Option Chunk) : Prop :=
  ∀ r p, malloc r = some p → Serves r p

/-- The usable bytes of `p` lie inside those of `q`. -/
def Within (p q : Chunk) : Prop :=
  (chunk2mem q.addr).toNat ≤ (chunk2mem p.addr).toNat ∧
    (chunk2mem p.addr).toNat + usableSize p ≤ (chunk2mem q.addr).toNat + usableSize q

/-- What a block returned for `alignment` and `size` must be. -/
structure GoodBlock (malloc : Word → Option Chunk) (alignment size : Word) (a : Allocation) :
    Prop where
  obtained : ∃ r, malloc r = some a.obtained
  enough : size.toNat ≤ usableSize a.chunk
  within : Within a.chunk a.obtained
  aligned : alignment.toNat.isPowerOfTwo → alignment.toNat ∣ (chunk2mem a.chunk.addr).toNat

/-- `aligned_alloc`, and `operator new` on top of it, return, and what they return is NULL, a
trap or a good block. -/
def AlignedAllocSound (alignment size : Word) : Prop :=
  ∀ malloc, ServesRequests malloc →
    (∃ result, Returns (alignedAlloc malloc alignment size) result ∧
      ∀ a, result = some a → GoodBlock malloc alignment size a) ∧
    ∃ result, Returns (operatorNewAligned malloc size alignment) result ∧
      ∀ a, result = .block a → GoodBlock malloc alignment size a

end WasmCxxShim.Dlmalloc
