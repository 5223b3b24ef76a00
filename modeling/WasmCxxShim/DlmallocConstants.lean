import WasmCxxShim.LinearMemory

/-!
# The constants and size macros of dlmalloc as configured

`dlmalloc.c` sets `MALLOC_ALIGNMENT` to 16 and `malloc_getpagesize` to 65536; `HAVE_MMAP` is 0,
`FOOTERS` is 0 and `MORECORE_CONTIGUOUS` keeps its default 1. `size_t` and pointers are words.
-/
namespace WasmCxxShim.Dlmalloc
open MachineWords LinearMemory

def maxSizeT : Word := ~~~0
def sizeTSize : Word := 4
def twoSizeTSizes : Word := sizeTSize <<< 1
def fourSizeTSizes : Word := sizeTSize <<< 2
def halfMaxSizeT : Word := maxSizeT / 2

/-- The pointer that MORECORE returns on failure. -/
def cmFail : Word := maxSizeT

def mallocAlignment : Word := 16
def chunkAlignMask : Word := mallocAlignment - 1

/-- `sizeof(struct malloc_chunk)`: two sizes and two links. -/
def mchunkSize : Word := 16
def chunkOverhead : Word := sizeTSize
def minChunkSize : Word := (mchunkSize + chunkAlignMask) &&& ~~~chunkAlignMask

/-- `sizeof(struct malloc_segment)`. -/
def sizeofMallocSegment : Word := 16

def maxRequest : Word := (-minChunkSize) <<< 2
def minRequest : Word := minChunkSize - chunkOverhead - 1
def minLargeSize : Word := 1 <<< 8
def maxSmallSize : Word := minLargeSize - 1
def maxSmallRequest : Word := maxSmallSize - chunkAlignMask - chunkOverhead

def padRequest (req : Word) : Word := (req + chunkOverhead + chunkAlignMask) &&& ~~~chunkAlignMask

def request2size (req : Word) : Word := if req < minRequest then minChunkSize else padRequest req

def alignOffset (a : Word) : Word :=
  if a &&& chunkAlignMask = 0 then 0
  else (mallocAlignment - (a &&& chunkAlignMask)) &&& chunkAlignMask

def chunk2mem (p : Word) : Word := p + twoSizeTSizes
def mem2chunk (mem : Word) : Word := mem - twoSizeTSizes
def alignAsChunk (a : Word) : Word := a + alignOffset (chunk2mem a)

def smallbinShift : Word := 3
def nsmallbins : Word := 32

def isSmall (s : Word) : Bool := s >>> smallbinShift < nsmallbins

def pinuseBit : Word := 1
def cinuseBit : Word := 2
def inuseBits : Word := pinuseBit ||| cinuseBit
def flagBits : Word := pinuseBit ||| cinuseBit ||| 4
def fencepostHead : Word := inuseBits ||| sizeTSize

/-- The flag of a segment that must not be merged with its neighbours. -/
def externBit : Word := 8

/-- `USE_MMAP_BIT`, which is zero without mmap. -/
def useMmapBit : Word := 0

def useNoncontiguousBit : Word := 4

/-- `mparams.page_size` and `mparams.granularity`, as `init_mparams` sets them. -/
def granularity : Word := 65536

def pageAlign (s : Word) : Word := (s + (granularity - 1)) &&& ~~~(granularity - 1)
def granularityAlign (s : Word) : Word := (s + (granularity - 1)) &&& ~~~(granularity - 1)
def isPageAligned (s : Word) : Bool := s &&& (granularity - 1) == 0

def topFootSize : Word :=
  alignOffset (chunk2mem 0) + padRequest sizeofMallocSegment + minChunkSize

def sysAllocPadding : Word := topFootSize + mallocAlignment

@[simp] theorem topFootSize_eq : topFootSize = 56 := by decide

@[simp] theorem sysAllocPadding_eq : sysAllocPadding = 72 := by decide

@[simp] theorem minChunkSize_eq : minChunkSize = 16 := by decide

@[simp] theorem halfMaxSizeT_eq : halfMaxSizeT = 2147483647 := by decide

@[simp] theorem twoSizeTSizes_eq : twoSizeTSizes = 8 := by decide

theorem minRequest_eq : minRequest = 11 := by decide

theorem maxRequest_eq : maxRequest = 4294967232 := by decide

theorem toNat_granularityAlign (s : Word) :
    (granularityAlign s).toNat = (s.toNat + 65535) % 4294967296 / 65536 * 65536 := by
  have h := toNat_and_not_mask (k := 16) (by omega) (s + (granularity - 1))
  rw [BitVec.toNat_add] at h
  exact h

theorem toNat_padRequest (req : Word) :
    (padRequest req).toNat = (req.toNat + 19) % 4294967296 / 16 * 16 := by
  have h := toNat_and_not_mask (k := 4) (by omega) (req + chunkOverhead + chunkAlignMask)
  have hsum : (req + chunkOverhead + chunkAlignMask).toNat = (req.toNat + 19) % 4294967296 := by
    have : chunkOverhead + chunkAlignMask = (19 : Word) := by decide
    rw [BitVec.add_assoc, this, BitVec.toNat_add]
    rfl
  rw [hsum] at h
  exact h

theorem toNat_and_chunkAlignMask (a : Word) : (a &&& chunkAlignMask).toNat = a.toNat % 16 :=
  toNat_and_mask (k := 4) (by omega) a

theorem toNat_alignOffset (a : Word) : (alignOffset a).toNat = (16 - a.toNat % 16) % 16 := by
  have hmask := toNat_and_chunkAlignMask a
  unfold alignOffset
  split_ifs with h
  · rw [h] at hmask
    simp only [BitVec.toNat_zero, BitVec.ofNat_eq_ofNat] at hmask ⊢
    omega
  · have hsub : (mallocAlignment - (a &&& chunkAlignMask)).toNat = 16 - a.toNat % 16 := by
      unfold mallocAlignment
      bv_omega
    rw [toNat_and_chunkAlignMask, hsub]

theorem isPageAligned_iff (s : Word) : isPageAligned s = true ↔ 65536 ∣ s.toNat := by
  have hmask := toNat_and_mask (k := 16) (by omega) s
  have hzero : isPageAligned s = true ↔ (s &&& (granularity - 1)).toNat = 0 := by
    rw [isPageAligned, beq_iff_eq]
    exact ⟨fun h => by rw [h]; rfl, fun h => BitVec.eq_of_toNat_eq h⟩
  rw [hzero, Nat.dvd_iff_mod_eq_zero]
  exact Eq.congr_left hmask

end WasmCxxShim.Dlmalloc
