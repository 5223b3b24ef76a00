import WasmCxxShim.BitwiseTries
import WasmCxxShim.DlmallocBinMaps

/-!
# The bins as the allocator links them

A small bin is a ring of chunks of one size, the one linked last first. A tree bin is a bitwise trie
over sizes, in which the chunks of one size hang from a node. Their bit maps are kept up to date
rather than computed. The searches walk the tries as `tmalloc_large` and `tmalloc_small` do.
-/
namespace WasmCxxShim.Dlmalloc
open MachineWords BitScans BitwiseTries

structure Bins where
  smallmap : Word
  treemap : Word
  smallbin : Word → List Word
  treebin : Word → Trie Word Word

namespace Bins

/-- `init_bins`. -/
def empty : Bins := ⟨0, 0, fun _ => [], fun _ => .nil⟩

end Bins

/-- "Shift placing maximum resolved bit in a treebin at i as sign bit." -/
def leftshiftForTreeIndex (i : Word) : Word :=
  if i = ntreebins - 1 then 0 else 31 - ((i >>> 1) + treebinShift - 2)

/-- The bit that decides between the children of a node at depth `d`. -/
def treeBit (i s : Word) (d : ℕ) : Bool := ((s <<< leftshiftForTreeIndex i) <<< d).msb

namespace Bins

def insertSmallChunk (p s : Word) (b : Bins) : Bins :=
  let i := smallIndex s
  if b.smallmap &&& idx2bit i = 0 then
    { b with
      smallmap := b.smallmap ||| idx2bit i
      smallbin := Function.update b.smallbin i [p] }
  else { b with smallbin := Function.update b.smallbin i (p :: b.smallbin i) }

def unlinkSmallChunk (p s : Word) (b : Bins) : Bins :=
  let i := smallIndex s
  let rest := (b.smallbin i).erase p
  { b with
    smallmap := if rest = [] then b.smallmap &&& ~~~idx2bit i else b.smallmap
    smallbin := Function.update b.smallbin i rest }

def insertLargeChunk (x s : Word) (b : Bins) : Bins :=
  let i := computeTreeIndex s
  if b.treemap &&& idx2bit i = 0 then
    { b with
      treemap := b.treemap ||| idx2bit i
      treebin := Function.update b.treebin i (.node s [x] .nil .nil) }
  else { b with treebin := Function.update b.treebin i ((b.treebin i).insert (treeBit i) x s 0) }

/-- The index of a chunk is that of its size. -/
def unlinkLargeChunk (x s : Word) (b : Bins) : Bins :=
  let i := computeTreeIndex s
  let t := (b.treebin i).unlink x
  { b with
    treemap := if t.isNil then b.treemap &&& ~~~idx2bit i else b.treemap
    treebin := Function.update b.treebin i t }

def insertChunk (p s : Word) (b : Bins) : Bins :=
  if isSmall s then b.insertSmallChunk p s else b.insertLargeChunk p s

def unlinkChunk (p s : Word) (b : Bins) : Bins :=
  if isSmall s then b.unlinkSmallChunk p s else b.unlinkLargeChunk p s

/-- `smallbin_at(m, i)->fd`. -/
def firstSmall (i : Word) (b : Bins) : Option Word := (b.smallbin i).head?

end Bins

/-- The variables `v` and `rsize` of the searches. -/
structure Fit where
  v : Option Word
  rsize : Word
  deriving DecidableEq, Repr

/-- Take the chunk of a node if it leaves less than the best one so far. -/
def Fit.consider (nb s : Word) (entries : List Word) (f : Fit) : Fit :=
  let trem := s - nb
  if trem < f.rsize then ⟨entries.head?, trem⟩ else f

/-- "Find smallest of tree or subtree." -/
def smallestFit (nb : Word) : Trie Word Word → Fit → Fit
  | .nil, f => f
  | .node s xs .nil r, f => smallestFit nb r (f.consider nb s xs)
  | .node s xs (.node s' ys l r') _, f => smallestFit nb (.node s' ys l r') (f.consider nb s xs)

/-- "Traverse tree for this bin looking for node with size == nb." The result is the tree in which
the search goes on. -/
def traverse (nb : Word) : Word → Trie Word Word → Trie Word Word → Fit → Trie Word Word × Fit
  | _, .nil, rst, f => (rst, f)
  | sizebits, .node s xs l r, rst, f =>
    let f' := f.consider nb s xs
    if s - nb < f.rsize ∧ s - nb = 0 then (.node s xs l r, f')
    else if sizebits.msb then traverse nb (sizebits <<< 1) r rst f'
    else traverse nb (sizebits <<< 1) l (if r.isNil then rst else r) f'

namespace Bins

/-- "Set t to root of next non-empty treebin." -/
def nextTreebin (idx : Word) (b : Bins) : Trie Word Word :=
  let leftbits := leftBits (idx2bit idx) &&& b.treemap
  if leftbits ≠ 0 then b.treebin (computeBit2idx (leastBit leftbits)) else .nil

/-- The searches of `tmalloc_large`. -/
def searchLarge (nb : Word) (b : Bins) : Fit :=
  let idx := computeTreeIndex nb
  let found := traverse nb (nb <<< leftshiftForTreeIndex idx) (b.treebin idx) .nil ⟨none, -nb⟩
  smallestFit nb (if found.1.isNil ∧ found.2.v = none then b.nextTreebin idx else found.1) found.2

/-- The search of `tmalloc_small`, which starts at the root of the first tree bin. -/
def searchSmall (nb : Word) (b : Bins) : Fit :=
  match b.treebin (computeBit2idx (leastBit b.treemap)) with
  | .nil => ⟨none, -nb⟩
  | .node s xs l r => smallestFit nb (if l.isNil then r else l) ⟨xs.head?, s - nb⟩

end Bins

/-- The least size of the tree bin `i`. -/
def treebinStart (i : ℕ) : ℕ := (2 + i % 2) * 2 ^ (i / 2 + 7)

theorem treebinStart_even (k : ℕ) : treebinStart (2 * k) = 2 ^ (k + 8) := by
  have hmod : 2 * k % 2 = 0 := by omega
  have hdiv : 2 * k / 2 = k := by omega
  rw [treebinStart, hmod, hdiv]
  ring

theorem treebinStart_odd (k : ℕ) : treebinStart (2 * k + 1) = 3 * 2 ^ (k + 7) := by
  have hmod : (2 * k + 1) % 2 = 1 := by omega
  have hdiv : (2 * k + 1) / 2 = k := by omega
  rw [treebinStart, hmod, hdiv]

theorem treebinStart_strictMono : StrictMono treebinStart := by
  apply strictMono_nat_of_lt_succ
  intro i
  have hpos : ∀ k : ℕ, 0 < 2 ^ k := fun k => Nat.two_pow_pos k
  rcases Nat.even_or_odd' i with ⟨k, rfl | rfl⟩
  · rw [treebinStart_even, treebinStart_odd, show 2 ^ (k + 8) = 2 * 2 ^ (k + 7) by ring]
    have := hpos (k + 7)
    omega
  · rw [treebinStart_odd, show 2 * k + 1 + 1 = 2 * (k + 1) by ring, treebinStart_even,
      show 2 ^ (k + 1 + 8) = 4 * 2 ^ (k + 7) by ring]
    have := hpos (k + 7)
    omega

/-- The sizes of a tree bin; the last one is open. -/
theorem computeTreeIndex_range {s : Word} (hs : 256 ≤ s.toNat) :
    treebinStart (computeTreeIndex s).toNat ≤ s.toNat ∧
      ((computeTreeIndex s).toNat < 31 → s.toNat < treebinStart ((computeTreeIndex s).toNat + 1)) := by
  rcases computeTreeIndex_cases hs with ⟨k, hk, hlow, hhigh, hidx⟩ | ⟨hlow, hidx⟩
  · rw [hidx]
    have hpow8 : 2 ^ (k + 8) = 2 * 2 ^ (k + 7) := by ring
    have hpow9 : 2 ^ (k + 9) = 4 * 2 ^ (k + 7) := by ring
    have hpos : 0 < 2 ^ (k + 7) := Nat.two_pow_pos _
    have hge : 2 ≤ s.toNat / 2 ^ (k + 7) := by
      rw [Nat.le_div_iff_mul_le hpos]
      omega
    have hlt : s.toNat / 2 ^ (k + 7) < 4 := by
      rw [Nat.div_lt_iff_lt_mul hpos]
      omega
    by_cases hbit : s.toNat / 2 ^ (k + 7) = 2
    · have hupper : s.toNat < 3 * 2 ^ (k + 7) := by
        rw [← Nat.div_lt_iff_lt_mul hpos]
        omega
      rw [hbit]
      refine ⟨?_, fun _ => ?_⟩
      · change treebinStart (2 * k) ≤ s.toNat
        rw [treebinStart_even]
        exact hlow
      · change s.toNat < treebinStart (2 * k + 1)
        rw [treebinStart_odd]
        exact hupper
    · have hthree : s.toNat / 2 ^ (k + 7) = 3 := by omega
      have hlower : 3 * 2 ^ (k + 7) ≤ s.toNat := by
        rw [← Nat.le_div_iff_mul_le hpos]
        omega
      rw [hthree]
      refine ⟨?_, fun _ => ?_⟩
      · change treebinStart (2 * k + 1) ≤ s.toNat
        rw [treebinStart_odd]
        exact hlower
      · change s.toNat < treebinStart (2 * (k + 1))
        rw [treebinStart_even]
        exact hhigh
  · rw [hidx]
    refine ⟨?_, fun hlt => absurd hlt (lt_irrefl _)⟩
    have : treebinStart 31 = 3 * 2 ^ 22 := treebinStart_odd 15
    omega

/-- The bins are in the order of their sizes. -/
theorem lt_of_computeTreeIndex_lt {s s' : Word} (hs : 256 ≤ s.toNat) (hs' : 256 ≤ s'.toNat)
    (h : (computeTreeIndex s).toNat < (computeTreeIndex s').toNat) : s.toNat < s'.toNat := by
  have hupper := (computeTreeIndex_range hs).2 (by have := computeTreeIndex_lt s'; omega)
  have hmono := treebinStart_strictMono.monotone (show (computeTreeIndex s).toNat + 1 ≤ _ from h)
  have hlower := (computeTreeIndex_range hs').1
  omega

/-- The bit that decides at the root. -/
def topBit (i : ℕ) : ℕ := if i = 31 then 31 else i / 2 + 6

theorem toNat_leftshift {i : Word} (hi : i.toNat < 32) :
    (leftshiftForTreeIndex i).toNat = 31 - topBit i.toNat := by
  rw [leftshiftForTreeIndex, topBit]
  have hlast : i = ntreebins - 1 ↔ i.toNat = 31 := by
    constructor
    · rintro rfl
      rfl
    · intro h
      exact BitVec.eq_of_toNat_eq h
  simp only [hlast]
  split_ifs with h
  · rfl
  · have hdiv : (i >>> 1).toNat = i.toNat / 2 := by
      rw [BitVec.toNat_ushiftRight, Nat.shiftRight_eq_div_pow]
    have hsum : ((i >>> 1) + treebinShift - 2).toNat = i.toNat / 2 + 6 := by
      rw [BitVec.toNat_sub, BitVec.toNat_add, hdiv]
      have h8 : treebinShift.toNat = 8 := rfl
      have h2 : (2 : Word).toNat = 2 := rfl
      omega
    have hle : (i >>> 1) + treebinShift - 2 ≤ 31#32 := by
      rw [word_le, hsum]
      change _ ≤ 31
      omega
    change (31#32 - _).toNat = _
    rw [BitVec.toNat_sub_of_le hle, hsum]
    rfl

theorem treeBit_eq {i : Word} (hi : i.toNat < 32) (s : Word) (d : ℕ) :
    treeBit i s d = (decide (d ≤ topBit i.toNat) && s.getLsbD (topBit i.toNat - d)) := by
  have htop : topBit i.toNat ≤ 31 := by
    rw [topBit]
    split_ifs <;> omega
  rw [treeBit, BitVec.msb_eq_getLsbD_last, BitVec.getLsbD_shiftLeft, BitVec.shiftLeft_eq',
    BitVec.getLsbD_shiftLeft, toNat_leftshift hi]
  by_cases hd : d ≤ topBit i.toNat
  · have h1 : ¬ 32 - 1 < d := by omega
    have h2 : ¬ 32 - 1 - d < 31 - topBit i.toNat := by omega
    have h3 : 32 - 1 - d - (31 - topBit i.toNat) = topBit i.toNat - d := by omega
    have h4 : 32 - 1 - d < 32 := by omega
    simp only [hd, h1, h2, h3, h4, decide_true, decide_false, Bool.not_false, Bool.true_and]
    rfl
  · by_cases h1 : 32 - 1 < d
    · simp [hd, h1]
    · have h2 : 32 - 1 - d < 31 - topBit i.toNat := by omega
      simp [hd, h2]

/-- The sizes of one bin have the same bits above the one that decides at the root. -/
theorem high_bits {s s' : Word} (hs : 256 ≤ s.toNat) (hs' : 256 ≤ s'.toNat)
    (h : computeTreeIndex s = computeTreeIndex s') {j : ℕ}
    (hj : topBit (computeTreeIndex s).toNat < j) : s.toNat.testBit j = s'.toNat.testBit j := by
  by_cases hlast : (computeTreeIndex s).toNat = 31
  · rw [topBit, if_pos hlast] at hj
    have hpow : 2 ^ 32 ≤ 2 ^ j := Nat.pow_le_pow_right (by decide) hj
    rw [Nat.testBit_lt_two_pow (s.isLt.trans_le hpow), Nat.testBit_lt_two_pow (s'.isLt.trans_le hpow)]
  · rw [topBit, if_neg hlast] at hj
    have hdiv : ∀ x : Word, 256 ≤ x.toNat → computeTreeIndex x = computeTreeIndex s →
        x.toNat / 2 ^ ((computeTreeIndex s).toNat / 2 + 7) = 2 + (computeTreeIndex s).toNat % 2 := by
      intro x hx heq
      obtain ⟨hlow, hhigh⟩ := computeTreeIndex_range hx
      rw [heq] at hlow hhigh
      have hlt := computeTreeIndex_lt s
      have hupper := hhigh (by omega)
      have hpos : 0 < 2 ^ ((computeTreeIndex s).toNat / 2 + 7) := Nat.two_pow_pos _
      rw [Nat.div_eq_iff hpos]
      have hnext : treebinStart ((computeTreeIndex s).toNat + 1) =
          (3 + (computeTreeIndex s).toNat % 2) * 2 ^ ((computeTreeIndex s).toNat / 2 + 7) := by
        rcases Nat.even_or_odd' (computeTreeIndex s).toNat with ⟨k, hk | hk⟩
        · rw [hk, treebinStart_odd]
          have hmod : 2 * k % 2 = 0 := by omega
          have hhalf : 2 * k / 2 = k := by omega
          rw [hmod, hhalf]
        · rw [hk, show 2 * k + 1 + 1 = 2 * (k + 1) by ring, treebinStart_even]
          have hmod : (2 * k + 1) % 2 = 1 := by omega
          have hhalf : (2 * k + 1) / 2 = k := by omega
          rw [hmod, hhalf]
          ring
      rw [hnext] at hupper
      rw [treebinStart] at hlow
      have hsplit : (3 + (computeTreeIndex s).toNat % 2) * 2 ^ ((computeTreeIndex s).toNat / 2 + 7) =
          (2 + (computeTreeIndex s).toNat % 2) * 2 ^ ((computeTreeIndex s).toNat / 2 + 7) +
            2 ^ ((computeTreeIndex s).toNat / 2 + 7) := by ring
      omega
    have hsame := (hdiv s hs rfl).trans (hdiv s' hs' h.symm).symm
    have hshift : ∀ x : ℕ, x.testBit j = (x / 2 ^ ((computeTreeIndex s).toNat / 2 + 7)).testBit
        (j - ((computeTreeIndex s).toNat / 2 + 7)) := by
      intro x
      rw [← Nat.shiftRight_eq_div_pow, Nat.testBit_shiftRight]
      congr 1
      omega
    rw [hshift s.toNat, hshift s'.toNat, hsame]

/-- The tries of a tree bin order its sizes. -/
theorem treeBit_radix {i : Word} (hi : i.toNat < 32) :
    Radix (treeBit i) BitVec.toNat fun s => isSmall s = false ∧ computeTreeIndex s = i := by
  constructor
  rintro s s' d ⟨hs, rfl⟩ ⟨hs', hidx⟩ hagree hzero hone
  have hlarge : ∀ x : Word, isSmall x = false → 256 ≤ x.toNat := by
    intro x hx
    by_contra hlt
    rw [(isSmall_iff x).mpr (by omega)] at hx
    cases hx
  rw [treeBit_eq hi, Bool.and_eq_true, decide_eq_true_eq] at hone
  obtain ⟨hd, hone⟩ := hone
  rw [treeBit_eq hi, decide_eq_true hd, Bool.true_and] at hzero
  rw [BitVec.getLsbD, ] at hone hzero
  apply Nat.lt_of_testBit _ hzero hone
  intro j hj
  by_cases hhigh : topBit (computeTreeIndex s).toNat < j
  · exact high_bits (hlarge s hs) (hlarge s' hs') hidx.symm hhigh
  · have := hagree (topBit (computeTreeIndex s).toNat - j) (by omega)
    rw [treeBit_eq hi, treeBit_eq hi] at this
    have hback : topBit (computeTreeIndex s).toNat - (topBit (computeTreeIndex s).toNat - j) = j := by
      omega
    rw [hback] at this
    simpa [BitVec.getLsbD] using this

end WasmCxxShim.Dlmalloc
