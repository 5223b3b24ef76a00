import WasmCxxShim.DlmallocTreeBins

/-!
# The bins hold the list of their chunks

A ring or a trie holds the chunks that were linked into it, in the order of the list, and the bit of
a bin is set when the bin is not empty. Linking and unlinking a chunk keep this.
-/
namespace WasmCxxShim.Dlmalloc
open MachineWords BitScans BitwiseTries

section Bits

variable {map i j : Word}

theorem and_idx2bit_eq_zero (hi : i.toNat < 32) :
    map &&& idx2bit i = 0 ↔ map.getLsbD i.toNat = false := by
  constructor
  · intro h
    have hbit := congrArg (BitVec.getLsbD · i.toNat) h
    simpa [getLsbD_idx2bit hi] using hbit
  · intro h
    apply BitVec.eq_of_getLsbD_eq
    intro k _
    rw [BitVec.getLsbD_and, getLsbD_idx2bit hi]
    by_cases hk : k = i.toNat <;> simp [hk, h]

theorem mark_bit (hi : i.toNat < 32) :
    (map ||| idx2bit i).getLsbD j.toNat = true ↔ map.getLsbD j.toNat = true ∨ j = i := by
  rw [BitVec.getLsbD_or, getLsbD_idx2bit hi, Bool.or_eq_true, decide_eq_true_eq, BitVec.toNat_inj]

theorem clear_bit (hi : i.toNat < 32) (hj : j.toNat < 32) :
    (map &&& ~~~idx2bit i).getLsbD j.toNat = true ↔ map.getLsbD j.toNat = true ∧ j ≠ i := by
  rw [BitVec.getLsbD_and, BitVec.getLsbD_not, getLsbD_idx2bit hi, Bool.and_eq_true]
  simp [hj, BitVec.toNat_inj]

theorem mark_of_marked (hi : i.toNat < 32) (h : map.getLsbD i.toNat = true) :
    map ||| idx2bit i = map := by
  apply BitVec.eq_of_getLsbD_eq
  intro k _
  rw [BitVec.getLsbD_or, getLsbD_idx2bit hi]
  by_cases hk : k = i.toNat
  · simp [hk, h]
  · simp [hk]

theorem smallIndex_lt {s : Word} (hs : isSmall s = true) : (smallIndex s).toNat < 32 := by
  have := (isSmall_iff s).mp hs
  rw [toNat_smallIndex]
  omega

end Bits

/-- The chunks of a small bin, the latest first. -/
def ofSmallIndex (i : Word) (xs : List (Word × Word)) : List Word :=
  (xs.filter fun x => isSmall x.2 && smallIndex x.2 == i).map Prod.fst

/-- The chunks of one size, the latest first. -/
def ofSize (s : Word) (xs : List (Word × Word)) : List Word :=
  (xs.filter fun x => x.2 == s).map Prod.fst

section Lists

variable {p s : Word} {xs : List (Word × Word)}

theorem eq_of_address (hnodup : (xs.map Prod.fst).Nodup) {s' : Word} (h : (p, s) ∈ xs)
    (h' : (p, s') ∈ xs) : s = s' := by
  have := List.inj_on_of_nodup_map hnodup h h' rfl
  exact congrArg Prod.snd this

/-- With distinct addresses, the address of a chunk is enough to take it out. -/
theorem map_filter_erase (hnodup : (xs.map Prod.fst).Nodup) (h : (p, s) ∈ xs)
    (f : Word × Word → Bool) :
    ((xs.erase (p, s)).filter f).map Prod.fst = ((xs.filter f).map Prod.fst).erase p := by
  have hsub : ((xs.filter f).map Prod.fst).Nodup := hnodup.sublist (List.filter_sublist.map _)
  rw [hnodup.of_map.erase_eq_filter, hsub.erase_eq_filter, List.filter_map, List.filter_filter,
    List.filter_filter]
  congr 1
  apply List.filter_congr
  intro x hx
  have heq : (x != (p, s)) = (x.1 != p) := by
    rw [Bool.eq_iff_iff, bne_iff_ne, bne_iff_ne, not_iff_not]
    constructor
    · intro hx
      exact congrArg Prod.fst hx
    · intro hp
      exact List.inj_on_of_nodup_map hnodup hx h hp
  rw [heq, Bool.and_comm]
  rfl

theorem mem_ofSize : p ∈ ofSize s xs ↔ (p, s) ∈ xs := by
  simp [ofSize]

theorem mem_ofSmallIndex {i : Word} :
    p ∈ ofSmallIndex i xs ↔ ∃ s, (p, s) ∈ xs ∧ isSmall s = true ∧ smallIndex s = i := by
  simp [ofSmallIndex]

theorem ofSize_cons (k : Word) :
    ofSize k ((p, s) :: xs) = if k = s then p :: ofSize k xs else ofSize k xs := by
  by_cases hk : k = s
  · simp [ofSize, hk]
  · simp [ofSize, hk, Ne.symm hk]

theorem ofSmallIndex_cons (i : Word) : ofSmallIndex i ((p, s) :: xs) =
    if isSmall s = true ∧ smallIndex s = i then p :: ofSmallIndex i xs else ofSmallIndex i xs := by
  by_cases hs : isSmall s = true ∧ smallIndex s = i
  · simp [ofSmallIndex, hs]
  · have hno : (isSmall s && smallIndex s == i) = false := by
      simpa using hs
    simp [ofSmallIndex, hs, hno]

theorem ofSize_erase (hnodup : (xs.map Prod.fst).Nodup) (h : (p, s) ∈ xs) (k : Word) :
    (ofSize k (xs.erase (p, s))).reverse = (ofSize k xs).reverse.erase p := by
  have hsub : (ofSize k xs).Nodup := hnodup.sublist (List.filter_sublist.map _)
  rw [ofSize, map_filter_erase hnodup h]
  change ((ofSize k xs).erase p).reverse = _
  rw [hsub.erase_eq_filter, (List.nodup_reverse.mpr hsub).erase_eq_filter, List.filter_reverse]

end Lists

structure Bins.Holds (b : Bins) (xs : List (Word × Word)) : Prop where
  smallmap : ∀ i : Word, i.toNat < 32 → (b.smallmap.getLsbD i.toNat = true ↔ b.smallbin i ≠ [])
  treemap : ∀ i : Word, i.toNat < 32 →
    (b.treemap.getLsbD i.toNat = true ↔ (b.treebin i).isNil = false)
  smallbin : ∀ i, b.smallbin i = ofSmallIndex i xs
  valid : ∀ i, (b.treebin i).Valid (treeBit i) 0
  ring : ∀ i s, (b.treebin i).ring s =
    if isSmall s = false ∧ computeTreeIndex s = i then (ofSize s xs).reverse else []

namespace Bins

variable {b : Bins} {xs : List (Word × Word)} {p s i : Word}

theorem holds_empty : Bins.empty.Holds [] where
  smallmap _ _ := by simp [Bins.empty]
  treemap _ _ := by simp [Bins.empty, Trie.isNil]
  smallbin _ := rfl
  valid _ := trivial
  ring _ _ := by simp [Bins.empty, ofSize]

namespace Holds

theorem has (h : b.Holds xs) : (b.treebin i).Has s ↔
    isSmall s = false ∧ computeTreeIndex s = i ∧ ∃ p, (p, s) ∈ xs := by
  rw [(h.valid i).has_iff, h.ring]
  by_cases hs : isSmall s = false ∧ computeTreeIndex s = i
  · rw [if_pos hs, ne_eq, List.reverse_eq_nil_iff, ← ne_eq, List.ne_nil_iff_exists_cons]
    constructor
    · rintro ⟨p, ps, hps⟩
      exact ⟨hs.1, hs.2, p, mem_ofSize.mp (by rw [hps]; exact List.mem_cons_self)⟩
    · rintro ⟨-, -, p, hp⟩
      exact List.exists_cons_of_ne_nil (List.ne_nil_of_mem (mem_ofSize.mpr hp))
  · rw [if_neg hs]
    constructor
    · intro hno
      exact absurd rfl hno
    · rintro ⟨h₁, h₂, -⟩
      exact absurd ⟨h₁, h₂⟩ hs

theorem insertSmallChunk_eq (h : b.Holds xs) (hs : isSmall s = true) :
    b.insertSmallChunk p s = { b with
      smallmap := b.smallmap ||| idx2bit (smallIndex s)
      smallbin := Function.update b.smallbin (smallIndex s) (p :: b.smallbin (smallIndex s)) } := by
  have hi := smallIndex_lt hs
  rw [insertSmallChunk]
  by_cases hmark : b.smallmap.getLsbD (smallIndex s).toNat = true
  · have hne : ¬ b.smallmap &&& idx2bit (smallIndex s) = 0 := by
      rw [and_idx2bit_eq_zero hi, hmark]
      simp
    rw [if_neg hne, mark_of_marked hi hmark]
  · rw [if_pos ((and_idx2bit_eq_zero hi).mpr (Bool.not_eq_true _ ▸ hmark))]
    rw [h.smallmap _ hi, not_not] at hmark
    rw [hmark]

theorem insertLargeChunk_eq (h : b.Holds xs) :
    b.insertLargeChunk p s = { b with
      treemap := b.treemap ||| idx2bit (computeTreeIndex s)
      treebin := Function.update b.treebin (computeTreeIndex s)
        ((b.treebin (computeTreeIndex s)).insert (treeBit (computeTreeIndex s)) p s 0) } := by
  have hi := computeTreeIndex_lt s
  rw [insertLargeChunk]
  by_cases hmark : b.treemap.getLsbD (computeTreeIndex s).toNat = true
  · have hne : ¬ b.treemap &&& idx2bit (computeTreeIndex s) = 0 := by
      rw [and_idx2bit_eq_zero hi, hmark]
      simp
    rw [if_neg hne, mark_of_marked hi hmark]
  · rw [if_pos ((and_idx2bit_eq_zero hi).mpr (Bool.not_eq_true _ ▸ hmark))]
    rw [h.treemap _ hi, Bool.not_eq_false, Trie.isNil_iff] at hmark
    rw [hmark]
    rfl

theorem insertSmallChunk (h : b.Holds xs) (hs : isSmall s = true) :
    (b.insertSmallChunk p s).Holds ((p, s) :: xs) := by
  rw [h.insertSmallChunk_eq hs]
  have hi := smallIndex_lt hs
  constructor
  · intro j hj
    rw [mark_bit hi, h.smallmap j hj]
    by_cases heq : j = smallIndex s
    · simp [heq]
    · simp [heq]
  · exact h.treemap
  · intro j
    rw [ofSmallIndex_cons]
    by_cases heq : j = smallIndex s
    · subst heq
      simp [hs, h.smallbin]
    · simp [heq, Ne.symm heq, h.smallbin]
  · exact h.valid
  · intro j k
    rw [h.ring, ofSize_cons]
    have hne : isSmall k = false → k ≠ s := by
      rintro hk rfl
      rw [hs] at hk
      cases hk
    split_ifs with hk heq
    · exact absurd heq (hne hk.1)
    · rfl
    · rfl

theorem insertLargeChunk (h : b.Holds xs) (hs : isSmall s = false) :
    (b.insertLargeChunk p s).Holds ((p, s) :: xs) := by
  rw [h.insertLargeChunk_eq]
  have hi := computeTreeIndex_lt s
  constructor
  · exact h.smallmap
  · intro j hj
    rw [mark_bit hi, h.treemap j hj]
    by_cases heq : j = computeTreeIndex s
    · subst heq
      simp [Trie.isNil_insert]
    · simp [heq]
  · intro j
    rw [ofSmallIndex_cons, h.smallbin, if_neg (by simp [hs])]
  · intro j
    dsimp only
    by_cases heq : j = computeTreeIndex s
    · subst heq
      rw [Function.update_self]
      exact (h.valid _).insert fun k _ e he => by omega
    · rw [Function.update_of_ne heq]
      exact h.valid j
  · intro j k
    dsimp only
    by_cases heq : j = computeTreeIndex s
    · subst heq
      rw [Function.update_self, (h.valid _).ring_insert, h.ring, h.ring, ofSize_cons]
      by_cases hk : k = s
      · subst hk
        simp [hs]
      · simp [hk]
    · rw [Function.update_of_ne heq, h.ring, ofSize_cons]
      split_ifs with hk hks
      · rw [hks] at hk
        exact absurd hk.2.symm heq
      · rfl
      · rfl

theorem insertChunk (h : b.Holds xs) : (b.insertChunk p s).Holds ((p, s) :: xs) := by
  rw [Bins.insertChunk]
  split_ifs with hs
  · exact h.insertSmallChunk hs
  · exact h.insertLargeChunk (Bool.not_eq_true _ ▸ hs)

theorem unlinkSmallChunk (h : b.Holds xs) (hnodup : (xs.map Prod.fst).Nodup) (hmem : (p, s) ∈ xs)
    (hs : isSmall s = true) : (b.unlinkSmallChunk p s).Holds (xs.erase (p, s)) := by
  have hi := smallIndex_lt hs
  rw [Bins.unlinkSmallChunk]
  constructor
  · intro j hj
    have hin : b.smallmap.getLsbD (smallIndex s).toNat = true := by
      rw [h.smallmap _ hi, h.smallbin]
      exact List.ne_nil_of_mem (mem_ofSmallIndex.mpr ⟨s, hmem, hs, rfl⟩)
    dsimp only
    by_cases heq : j = smallIndex s
    · subst heq
      rw [Function.update_self]
      split_ifs with hrest
      · rw [clear_bit hi hi]
        simp [hrest]
      · simp [hin, hrest]
    · rw [Function.update_of_ne heq]
      split_ifs with hrest
      · rw [clear_bit hi hj, h.smallmap j hj]
        simp [heq]
      · exact h.smallmap j hj
  · exact h.treemap
  · intro j
    rw [ofSmallIndex, map_filter_erase hnodup hmem]
    change _ = (ofSmallIndex j xs).erase p
    dsimp only
    by_cases heq : j = smallIndex s
    · rw [heq, Function.update_self, h.smallbin]
    · rw [Function.update_of_ne heq, h.smallbin, List.erase_of_not_mem]
      rw [mem_ofSmallIndex]
      rintro ⟨s', hs', -, rfl⟩
      exact heq (congrArg smallIndex (eq_of_address hnodup hs' hmem))
  · exact h.valid
  · intro j k
    rw [h.ring, ofSize_erase hnodup hmem]
    split_ifs with hk
    · rw [List.erase_of_not_mem]
      rw [List.mem_reverse, mem_ofSize]
      intro hin
      rw [eq_of_address hnodup hin hmem, hs] at hk
      cases hk.1
    · rfl

theorem unlinkLargeChunk (h : b.Holds xs) (hnodup : (xs.map Prod.fst).Nodup) (hmem : (p, s) ∈ xs)
    (hs : isSmall s = false) : (b.unlinkLargeChunk p s).Holds (xs.erase (p, s)) := by
  have hi := computeTreeIndex_lt s
  have honly : ∀ j k, p ∈ (b.treebin j).ring k → k = s := by
    intro j k hin
    rw [h.ring] at hin
    split_ifs at hin
    · rw [List.mem_reverse, mem_ofSize] at hin
      exact eq_of_address hnodup hin hmem
    · cases hin
  obtain ⟨hvalid, hhas, hring⟩ := (h.valid (computeTreeIndex s)).unlink (honly _)
  rw [Bins.unlinkLargeChunk]
  constructor
  · exact h.smallmap
  · intro j hj
    have hin : b.treemap.getLsbD (computeTreeIndex s).toNat = true := by
      rw [h.treemap _ hi, ← Bool.not_eq_true, Trie.isNil_iff]
      intro hnil
      have := h.has.mpr ⟨hs, rfl, p, hmem⟩
      rw [hnil] at this
      exact this
    dsimp only
    by_cases heq : j = computeTreeIndex s
    · subst heq
      rw [Function.update_self]
      split_ifs with hrest
      · rw [clear_bit hi hi]
        simp [hrest]
      · simp [hin, hrest]
    · rw [Function.update_of_ne heq]
      split_ifs with hrest
      · rw [clear_bit hi hj, h.treemap j hj]
        simp [heq]
      · exact h.treemap j hj
  · intro j
    rw [h.smallbin, ofSmallIndex, ofSmallIndex, map_filter_erase hnodup hmem, List.erase_of_not_mem]
    change p ∉ ofSmallIndex j xs
    rw [mem_ofSmallIndex]
    rintro ⟨s', hs', hsmall, -⟩
    rw [eq_of_address hnodup hs' hmem, hs] at hsmall
    cases hsmall
  · intro j
    dsimp only
    by_cases heq : j = computeTreeIndex s
    · subst heq
      rw [Function.update_self]
      exact hvalid
    · rw [Function.update_of_ne heq]
      exact h.valid j
  · intro j k
    rw [ofSize_erase hnodup hmem]
    dsimp only
    by_cases heq : j = computeTreeIndex s
    · subst heq
      rw [Function.update_self, hring, h.ring]
      split_ifs
      · rfl
      · rfl
    · rw [Function.update_of_ne heq, h.ring]
      split_ifs with hk
      · rw [List.erase_of_not_mem]
        rw [List.mem_reverse, mem_ofSize]
        intro hin
        rw [eq_of_address hnodup hin hmem] at hk
        exact heq hk.2.symm
      · rfl

theorem unlinkChunk (h : b.Holds xs) (hnodup : (xs.map Prod.fst).Nodup) (hmem : (p, s) ∈ xs) :
    (b.unlinkChunk p s).Holds (xs.erase (p, s)) := by
  rw [Bins.unlinkChunk]
  split_ifs with hs
  · exact h.unlinkSmallChunk hnodup hmem hs
  · exact h.unlinkLargeChunk hnodup hmem (Bool.not_eq_true _ ▸ hs)

end Holds

end Bins

end WasmCxxShim.Dlmalloc
