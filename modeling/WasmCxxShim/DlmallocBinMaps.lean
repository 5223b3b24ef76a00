import WasmCxxShim.BitScans
import WasmCxxShim.DlmallocTags

/-!
# The maps of the bins

The bit maps say which bins hold chunks, and scans of them find the next bin that does. Among the
chunks of the tree bins the search settles on a smallest one that fits.
-/
namespace WasmCxxShim.Dlmalloc
open MachineWords BitScans LinearMemory

theorem toNat_smallIndex (s : Word) : (smallIndex s).toNat = s.toNat / 8 := by
  rw [smallIndex, BitVec.ushiftRight_eq', BitVec.toNat_ushiftRight, Nat.shiftRight_eq_div_pow]
  rfl

theorem smallIndex2size_smallIndex {s : Word} (hs : s.toNat % 16 = 0) :
    smallIndex2size (smallIndex s) = s := by
  apply BitVec.eq_of_toNat_eq
  rw [smallIndex2size, BitVec.shiftLeft_eq', BitVec.toNat_shiftLeft, toNat_smallIndex,
    Nat.shiftLeft_eq]
  change s.toNat / 8 * 2 ^ 3 % 2 ^ 32 = s.toNat
  have := s.isLt
  omega

theorem getLsbD_idx2bit {i : Word} (hi : i.toNat < 32) (j : ℕ) :
    (idx2bit i).getLsbD j = decide (j = i.toNat) := by
  rw [idx2bit, BitVec.shiftLeft_eq', BitVec.getLsbD_shiftLeft]
  by_cases hj : j = i.toNat
  · simp [hj, hi]
  · by_cases hlt : j < i.toNat
    · simp [hlt, hj]
    · have hne : ¬ j - i.toNat = 0 := by omega
      simp [hlt, hj, hne]

theorem toNat_treebinShift (s : Word) : (s >>> treebinShift).toNat = s.toNat / 256 := by
  rw [BitVec.ushiftRight_eq', BitVec.toNat_ushiftRight, Nat.shiftRight_eq_div_pow]
  rfl

/-- A size is in the tree bin of its highest bit and the bit below. -/
theorem computeTreeIndex_cases {s : Word} (hs : 256 ≤ s.toNat) :
    (∃ k < 16, 2 ^ (k + 8) ≤ s.toNat ∧ s.toNat < 2 ^ (k + 9) ∧
      (computeTreeIndex s).toNat = 2 * k + s.toNat / 2 ^ (k + 7) % 2) ∨
    2 ^ 24 ≤ s.toNat ∧ (computeTreeIndex s).toNat = 31 := by
  have hx := toNat_treebinShift s
  have hne : s >>> treebinShift ≠ 0 := by
    intro hzero
    have : s.toNat / 256 = 0 := by rw [← hx, hzero]; rfl
    omega
  unfold computeTreeIndex
  dsimp only
  rw [if_neg hne]
  by_cases hlarge : 0xFFFF < s >>> treebinShift
  · rw [if_pos hlarge]
    rw [word_lt, hx] at hlarge
    have hbound : (0xFFFF : Word).toNat = 65535 := rfl
    exact Or.inr ⟨by omega, rfl⟩
  · rw [if_neg hlarge]
    rw [BitVec.not_lt, word_le, hx] at hlarge
    have hbound : (0xFFFF : Word).toNat = 65535 := rfl
    generalize s >>> treebinShift = x at hne hx
    have hlow := BitVec.two_pow_sub_clz_le_toNat_of_ne_zero (by decide) hne
    have hhigh := BitVec.toNat_lt_two_pow_sub_clz (x := x)
    have hclz := BitVec.clz_lt_iff_ne_zero.mpr hne
    have hw : (((32 : ℕ) : Word)).toNat = 32 := rfl
    rw [word_lt, hw] at hclz
    obtain ⟨k, hk⟩ : ∃ k, 31 - x.clz.toNat = k := ⟨_, rfl⟩
    have hsub : (31 - x.clz).toNat = k := by
      rw [BitVec.toNat_sub_of_le (by
        rw [word_le]
        have : (31 : Word).toNat = 31 := rfl
        omega)]
      exact hk
    have h1 : 32 - 1 - x.clz.toNat = k := hk
    have h2 : 32 - x.clz.toNat = k + 1 := by omega
    rw [h1, hx] at hlow
    rw [h2, hx] at hhigh
    have hk16 : k < 16 := by
      by_contra hge
      have := Nat.pow_le_pow_right (show 0 < 2 by decide) (Nat.not_lt.mp hge)
      omega
    have hpow8 : 2 ^ (k + 8) = 2 ^ k * 256 := Nat.pow_add 2 k 8
    have hpow9 : 2 ^ (k + 9) = 2 ^ (k + 1) * 256 := by ring
    refine Or.inl ⟨k, hk16, by omega, by omega, ?_⟩
    have hshift : (31 - x.clz + (treebinShift - 1)).toNat = k + 7 := by
      rw [BitVec.toNat_add, hsub]
      have : (treebinShift - 1).toNat = 7 := rfl
      omega
    have hbit : ((s >>> (31 - x.clz + (treebinShift - 1))) &&& 1).toNat =
        s.toNat / 2 ^ (k + 7) % 2 := by
      rw [BitVec.toNat_and, BitVec.ushiftRight_eq', BitVec.toNat_ushiftRight, hshift,
        Nat.shiftRight_eq_div_pow]
      exact Nat.and_one_is_mod _
    have hdouble : ((31 - x.clz) <<< 1).toNat = 2 * k := by
      rw [BitVec.toNat_shiftLeft, hsub, Nat.shiftLeft_eq]
      omega
    rw [BitVec.toNat_add, hdouble, hbit]
    omega

/-- The index of a size is one of the 32 tree bins. -/
theorem computeTreeIndex_lt (s : Word) : (computeTreeIndex s).toNat < 32 := by
  by_cases hs : 256 ≤ s.toNat
  · rcases computeTreeIndex_cases hs with ⟨k, hk, -, -, hidx⟩ | ⟨-, hidx⟩
    · omega
    · omega
  · have hzero : s >>> treebinShift = 0 := by
      apply BitVec.eq_of_toNat_eq
      rw [toNat_treebinShift]
      change _ = 0
      omega
    unfold computeTreeIndex
    dsimp only
    rw [if_pos hzero]
    decide

section Maps

variable {c : ChunkStore}

theorem smallmap_bit (j : ℕ) : c.smallmap.getLsbD j = true ↔
    ∃ x ∈ c.binned, isSmall x.2 = true ∧ (smallIndex x.2).toNat = j := by
  rw [ChunkStore.smallmap, getLsbD_foldr_or]
  simp only [List.mem_filter]
  constructor
  · rintro ⟨x, ⟨hx, hsmall⟩, hbit⟩
    have hlt := (isSmall_iff x.2).mp hsmall
    rw [getLsbD_idx2bit (by rw [toNat_smallIndex]; omega), decide_eq_true_eq] at hbit
    exact ⟨x, hx, hsmall, hbit.symm⟩
  · rintro ⟨x, hx, hsmall, rfl⟩
    have hlt := (isSmall_iff x.2).mp hsmall
    exact ⟨x, ⟨hx, hsmall⟩, by rw [getLsbD_idx2bit (by rw [toNat_smallIndex]; omega)]; simp⟩

theorem treemap_bit (j : ℕ) : c.treemap.getLsbD j = true ↔
    ∃ x ∈ c.binned, isSmall x.2 = false ∧ (computeTreeIndex x.2).toNat = j := by
  rw [ChunkStore.treemap, getLsbD_foldr_or]
  simp only [List.mem_filter, getLsbD_idx2bit (computeTreeIndex_lt _), decide_eq_true_eq,
    Bool.not_eq_true', and_assoc, @eq_comm ℕ j]

theorem treemap_eq_zero : c.treemap = 0 ↔ ∀ x ∈ c.binned, isSmall x.2 = true := by
  constructor
  · intro hzero x hx
    by_contra hlarge
    have := (treemap_bit _).mpr ⟨x, hx, Bool.not_eq_true _ ▸ hlarge, rfl⟩
    rw [hzero] at this
    simp at this
  · intro hall
    by_contra hne
    obtain ⟨k, hk⟩ := exists_getLsbD hne
    obtain ⟨x, hx, hlarge, -⟩ := (treemap_bit k).mp hk
    rw [hall x hx] at hlarge
    cases hlarge

/-- The first chunk of a small bin whose bit is set. -/
theorem firstSmall_of_bit (hsizes : ∀ x ∈ c.binned, x.2.toNat % 16 = 0) {i : Word}
    (hbit : c.smallmap.getLsbD i.toNat = true) :
    ∃ p, c.firstSmall i = some p ∧ (p, smallIndex2size i) ∈ c.binned := by
  obtain ⟨x, hx, hsmall, hi⟩ := (smallmap_bit _).mp hbit
  have hsome : (c.binned.find? fun x => isSmall x.2 && smallIndex x.2 == i).isSome = true := by
    rw [List.find?_isSome]
    exact ⟨x, hx, by simp [hsmall, BitVec.eq_of_toNat_eq hi]⟩
  obtain ⟨y, hy⟩ := Option.isSome_iff_exists.mp hsome
  have hmem := List.mem_of_find?_eq_some hy
  have hprop := List.find?_some hy
  rw [Bool.and_eq_true, beq_iff_eq] at hprop
  refine ⟨y.1, by rw [ChunkStore.firstSmall, hy]; rfl, ?_⟩
  rw [← hprop.2, smallIndex2size_smallIndex (hsizes y hmem)]
  exact hmem

theorem fitter_of_skip {nb : Word} {x : Word × Word} (h : (isSmall x.2 || x.2 < nb) = true)
    (best : Option (Word × Word)) : ChunkStore.fitter nb x best = best := if_pos h

theorem fitter_none {nb : Word} {x : Word × Word} (h : ¬ (isSmall x.2 || x.2 < nb) = true) :
    ChunkStore.fitter nb x none = some x := if_neg h

theorem fitter_some {nb : Word} {x : Word × Word} (h : ¬ (isSmall x.2 || x.2 < nb) = true)
    (y : Word × Word) : ChunkStore.fitter nb x (some y) = if x.2 < y.2 then some x else some y :=
  if_neg h

/-- The best fit is a smallest chunk of the tree bins that fits. -/
theorem fitter_foldr (nb : Word) (xs : List (Word × Word)) :
    match xs.foldr (ChunkStore.fitter nb) none with
    | none => ∀ x ∈ xs, isSmall x.2 = true ∨ x.2 < nb
    | some y => y ∈ xs ∧ isSmall y.2 = false ∧ nb ≤ y.2 ∧
        ∀ x ∈ xs, isSmall x.2 = true ∨ x.2 < nb ∨ y.2 ≤ x.2 := by
  induction xs with
  | nil => simp
  | cons x xs ih =>
    rw [List.foldr_cons]
    by_cases hskip : (isSmall x.2 || x.2 < nb) = true
    · rw [fitter_of_skip hskip]
      rw [Bool.or_eq_true, decide_eq_true_eq] at hskip
      cases hbest : xs.foldr (ChunkStore.fitter nb) none with
      | none =>
        rw [hbest] at ih
        intro y hy
        rcases List.mem_cons.mp hy with rfl | hy
        · exact hskip
        · exact ih y hy
      | some y =>
        rw [hbest] at ih
        obtain ⟨hmem, hlarge, hfits, hleast⟩ := ih
        refine ⟨List.mem_cons_of_mem _ hmem, hlarge, hfits, fun z hz => ?_⟩
        rcases List.mem_cons.mp hz with rfl | hz
        · exact hskip.imp_right Or.inl
        · exact hleast z hz
    · have hfit := hskip
      rw [Bool.or_eq_true, decide_eq_true_eq, not_or, Bool.not_eq_true, BitVec.not_lt] at hskip
      cases hbest : xs.foldr (ChunkStore.fitter nb) none with
      | none =>
        rw [hbest] at ih
        rw [fitter_none hfit]
        refine ⟨List.mem_cons_self, hskip.1, hskip.2, fun z hz => ?_⟩
        rcases List.mem_cons.mp hz with rfl | hz
        · exact Or.inr (Or.inr (BitVec.le_refl _))
        · exact (ih z hz).imp_right Or.inl
      | some y =>
        rw [hbest] at ih
        obtain ⟨hmem, hlarge, hfits, hleast⟩ := ih
        rw [fitter_some hfit]
        split_ifs with hless
        · refine ⟨List.mem_cons_self, hskip.1, hskip.2, fun z hz => ?_⟩
          rcases List.mem_cons.mp hz with rfl | hz
          · exact Or.inr (Or.inr (BitVec.le_refl _))
          · rcases hleast z hz with h | h | h
            · exact Or.inl h
            · exact Or.inr (Or.inl h)
            · exact Or.inr (Or.inr (BitVec.le_trans (BitVec.le_of_lt hless) h))
        · refine ⟨List.mem_cons_of_mem _ hmem, hlarge, hfits, fun z hz => ?_⟩
          rcases List.mem_cons.mp hz with rfl | hz
          · exact Or.inr (Or.inr (BitVec.not_lt.mp hless))
          · exact hleast z hz

theorem bestFit_none {nb : Word} (h : c.bestFit nb = none) :
    ∀ x ∈ c.binned, isSmall x.2 = true ∨ x.2 < nb := by
  have hspec := fitter_foldr nb c.binned
  rw [ChunkStore.bestFit] at h
  rwa [h] at hspec

theorem bestFit_some {nb : Word} {y : Word × Word} (h : c.bestFit nb = some y) :
    y ∈ c.binned ∧ isSmall y.2 = false ∧ nb ≤ y.2 ∧
      ∀ x ∈ c.binned, isSmall x.2 = true ∨ x.2 < nb ∨ y.2 ≤ x.2 := by
  have hspec := fitter_foldr nb c.binned
  rw [ChunkStore.bestFit] at h
  rwa [h] at hspec

end Maps

theorem getLsbD_leftBits {i : Word} (hi : i.toNat < 32) (j : ℕ) :
    (leftBits (idx2bit i)).getLsbD j = true ↔ i.toNat < j ∧ j < 32 := by
  have hbit : ∀ k, ((idx2bit i) <<< 1).getLsbD k = true ↔ k < 32 ∧ k = i.toNat + 1 := by
    intro k
    rw [BitVec.getLsbD_shiftLeft, getLsbD_idx2bit hi]
    by_cases hk : k < 1
    · simp [hk]
      omega
    · by_cases hlt : k < 32
      · simp only [hlt, decide_true, Bool.true_and, hk, decide_false, Bool.not_false,
          decide_eq_true_eq, true_and]
        omega
      · simp only [hlt, decide_false, Bool.false_and, Bool.false_eq_true, false_and]
  rw [leftBits, getLsbD_or_neg]
  simp only [hbit]
  constructor
  · rintro ⟨hlt, k, hk, -, rfl⟩
    omega
  · rintro ⟨hlt, hj⟩
    exact ⟨hj, i.toNat + 1, by omega, by omega, rfl⟩

/-- The bits of the map beyond an index. -/
theorem getLsbD_leftbits {map idx : Word} (hidx : idx.toNat < 32) (j : ℕ) :
    (((map >>> idx) <<< idx) &&& leftBits (idx2bit idx)).getLsbD j = true ↔
      map.getLsbD j = true ∧ idx.toNat < j := by
  rw [BitVec.getLsbD_and, Bool.and_eq_true, getLsbD_leftBits hidx, BitVec.shiftLeft_eq',
    BitVec.ushiftRight_eq', BitVec.getLsbD_shiftLeft, BitVec.getLsbD_ushiftRight]
  by_cases hlow : j < idx.toNat
  · simp only [hlow, decide_true, Bool.not_true, Bool.and_false, Bool.false_and,
      Bool.false_eq_true, false_and, false_iff, not_and]
    omega
  · have heq : idx.toNat + (j - idx.toNat) = j := by omega
    rw [heq]
    constructor
    · rintro ⟨hbit, hlt, -⟩
      simp only [Bool.and_eq_true] at hbit
      exact ⟨hbit.2, hlt⟩
    · rintro ⟨hbit, hlt⟩
      have hj : j < 32 := BitVec.lt_of_getLsbD hbit
      exact ⟨by simp [hj, hlow, hbit], hlt, hj⟩

theorem and_three_eq_zero (x : Word) :
    x &&& 3 = 0 ↔ x.getLsbD 0 = false ∧ x.getLsbD 1 = false := by
  have hthree : ∀ i, (3 : Word).getLsbD i = decide (i < 2) := by
    intro i
    have h : (3 : Word) = BitVec.ofNat 32 (2 ^ 2 - 1) := rfl
    rw [h, BitVec.getLsbD_ofNat, Nat.testBit_two_pow_sub_one]
    by_cases hi : i < 2
    · have hlt : i < 32 := by omega
      simp [hi, hlt]
    · simp [hi]
  constructor
  · intro hzero
    have h0 := congrArg (BitVec.getLsbD · 0) hzero
    have h1 := congrArg (BitVec.getLsbD · 1) hzero
    simp only [BitVec.getLsbD_and, hthree] at h0 h1
    exact ⟨by simpa using h0, by simpa using h1⟩
  · rintro ⟨h0, h1⟩
    apply BitVec.eq_of_getLsbD_eq
    intro i hi
    rw [BitVec.getLsbD_and, hthree]
    rcases Nat.lt_or_ge i 2 with hlt | hge
    · interval_cases i
      · rw [h0]
        rfl
      · rw [h1]
        rfl
    · have hno : ¬ i < 2 := by omega
      simp [hno]

/-- The index adjustment uses the bin itself when it is not empty. -/
theorem adjust_eq {idx bits : Word} (h : bits.getLsbD 0 = true) :
    idx + (~~~bits &&& 1) = idx := by
  have hzero : ~~~bits &&& 1 = 0 := by
    apply BitVec.eq_of_getLsbD_eq
    intro i hi
    by_cases hi0 : i = 0
    · subst hi0
      rw [BitVec.getLsbD_and, BitVec.getLsbD_not, h]
      rfl
    · have hone : (1#32).getLsbD i = false := by
        simp [BitVec.getLsbD_one, hi0]
      change (~~~bits &&& 1#32).getLsbD i = (0#32).getLsbD i
      rw [BitVec.getLsbD_and, hone, Bool.and_false, BitVec.getLsbD_zero]
  rw [hzero]
  exact BitVec.add_zero idx

end WasmCxxShim.Dlmalloc
