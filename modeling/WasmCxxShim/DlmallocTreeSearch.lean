import WasmCxxShim.DlmallocBinLinks

/-!
# The searches of the linked bins

A search keeps the best chunk among the sizes it has passed. The sizes on its way are enough: every
size that fits is at least one of them. So the walks over the tries settle on the smallest chunk
that fits, the one linked first, as the search of the list does; and a history of links and unlinks
that starts from empty bins keeps the bins and the list in agreement.
-/
namespace WasmCxxShim.Dlmalloc
open MachineWords BitScans BitwiseTries

/-- `f` is the first-linked chunk of the smallest size of `S` that fits. -/
def Fit.Best (nb : Word) (oldest : Word → Option Word) (S : Set Word) (f : Fit) : Prop :=
  (f = ⟨none, -nb⟩ ∧ ∀ s ∈ S, s.toNat < nb.toNat) ∨
    ∃ s ∈ S, nb.toNat ≤ s.toNat ∧ f = ⟨oldest s, s - nb⟩ ∧
      ∀ s' ∈ S, nb.toNat ≤ s'.toNat → s.toNat ≤ s'.toNat

theorem sub_lt_neg {nb s : Word} (hnb : nb ≠ 0) : s - nb < -nb ↔ nb.toNat ≤ s.toNat := by
  have hpos : nb.toNat ≠ 0 := fun h => hnb (BitVec.eq_of_toNat_eq h)
  have hs := s.isLt
  have hn := nb.isLt
  rw [word_lt, BitVec.toNat_sub, BitVec.toNat_neg]
  omega

theorem sub_lt_sub {nb s s' : Word} (h' : nb.toNat ≤ s'.toNat) :
    s - nb < s' - nb ↔ nb.toNat ≤ s.toNat ∧ s.toNat < s'.toNat := by
  have hs := s.isLt
  have hs' := s'.isLt
  have hn := nb.isLt
  rw [word_lt, BitVec.toNat_sub, BitVec.toNat_sub]
  omega

namespace Fit.Best

variable {nb s : Word} {oldest : Word → Option Word} {S S' : Set Word} {f : Fit} {xs : List Word}

theorem start : Best nb oldest ∅ ⟨none, -nb⟩ := Or.inl ⟨rfl, by simp⟩

theorem consider (h : Best nb oldest S f) (hnb : nb ≠ 0) (hxs : xs.head? = oldest s) :
    Best nb oldest (insert s S) (f.consider nb s xs) := by
  rw [Fit.consider]
  rcases h with ⟨rfl, hless⟩ | ⟨s₀, hs₀, hfits, rfl, hleast⟩
  · dsimp only
    by_cases hs : nb.toNat ≤ s.toNat
    · rw [if_pos ((sub_lt_neg hnb).mpr hs), hxs]
      refine Or.inr ⟨s, Set.mem_insert s S, hs, rfl, fun s' hs' hfits' => ?_⟩
      rcases hs' with rfl | hs'
      · exact le_refl _
      · have := hless s' hs'
        omega
    · rw [if_neg (fun hlt => hs ((sub_lt_neg hnb).mp hlt))]
      refine Or.inl ⟨rfl, fun s' hs' => ?_⟩
      rcases hs' with rfl | hs'
      · omega
      · exact hless s' hs'
  · dsimp only
    by_cases hs : nb.toNat ≤ s.toNat ∧ s.toNat < s₀.toNat
    · rw [if_pos ((sub_lt_sub hfits).mpr hs), hxs]
      refine Or.inr ⟨s, Set.mem_insert s S, hs.1, rfl, fun s' hs' hfits' => ?_⟩
      rcases hs' with rfl | hs'
      · exact le_refl _
      · have := hleast s' hs' hfits'
        omega
    · rw [if_neg (fun hlt => hs ((sub_lt_sub hfits).mp hlt))]
      refine Or.inr ⟨s₀, Set.mem_insert_of_mem s hs₀, hfits, rfl, fun s' hs' hfits' => ?_⟩
      rcases hs' with rfl | hs'
      · omega
      · exact hleast s' hs' hfits'

/-- More sizes change nothing if each that fits is at least a size passed that fits. -/
theorem cover (h : Best nb oldest S f) (hsub : S ⊆ S')
    (hcover : ∀ t ∈ S', nb.toNat ≤ t.toNat → ∃ s ∈ S, nb.toNat ≤ s.toNat ∧ s.toNat ≤ t.toNat) :
    Best nb oldest S' f := by
  rcases h with ⟨rfl, hless⟩ | ⟨s, hs, hfits, rfl, hleast⟩
  · refine Or.inl ⟨rfl, fun t ht => ?_⟩
    by_contra hge
    obtain ⟨s, hs, hfits, -⟩ := hcover t ht (by omega)
    have := hless s hs
    omega
  · refine Or.inr ⟨s, hsub hs, hfits, rfl, fun t ht hfits' => ?_⟩
    obtain ⟨s', hs', hfit, hle⟩ := hcover t ht hfits'
    exact (hleast s' hs' hfit).trans hle

theorem congr (h : Best nb oldest S f) (hsame : ∀ s, s ∈ S ↔ s ∈ S') : Best nb oldest S' f := by
  have : S = S' := Set.ext hsame
  rwa [← this]

end Fit.Best

section Walks

variable {nb : Word} {oldest : Word → Option Word} {S : Set Word} {f : Fit} {t l r : Trie Word Word}
  {bit : Word → ℕ → Bool} {d : ℕ} {s : Word} {xs : List Word}

theorem smallestFit_node : smallestFit nb (.node s xs l r) f =
    smallestFit nb (if l.isNil then r else l) (f.consider nb s xs) := by
  cases l <;> rfl

theorem smallestFit_exact (hzero : f.rsize = 0) : smallestFit nb t f = f := by
  induction t with
  | nil => rfl
  | node s xs l r ihl ihr =>
    have hno : f.consider nb s xs = f := by
      rw [Fit.consider, hzero, if_neg]
      rw [word_lt]
      exact Nat.not_lt_zero _
    rw [smallestFit_node, hno]
    split_ifs
    · exact ihr
    · exact ihl

theorem smallestFit_best (h : t.Valid bit d) (hnb : nb ≠ 0)
    (hring : ∀ s, t.Has s → (t.ring s).head? = oldest s) (hf : f.Best nb oldest S) :
    (smallestFit nb t f).Best nb oldest ({s | s ∈ t.leftPath} ∪ S) := by
  induction t generalizing d f S with
  | nil => exact hf.congr fun s => by simp [Trie.leftPath]
  | node s xs l r ihl ihr =>
    have hroot : xs.head? = oldest s := by
      rw [← hring s (Or.inl rfl), Trie.ring_node, if_pos rfl]
    have hstep := hf.consider hnb hroot
    rw [smallestFit_node]
    have hpath : ∀ (c : Trie Word Word) (k : Word),
        k ∈ {s | s ∈ c.leftPath} ∪ insert s S ↔ k ∈ {k | k ∈ s :: c.leftPath} ∪ S := by
      intro c k
      simp only [Set.mem_union, Set.mem_ofPred_eq, Set.mem_insert_iff, List.mem_cons]
      tauto
    rw [Trie.leftPath_node]
    split_ifs
    · refine (ihr h.2.2.2.2 (fun k hk => ?_) hstep).congr (hpath r)
      rw [← h.ring_right hk]
      exact hring k (Or.inr (Or.inr hk))
    · refine (ihl h.2.2.2.1 (fun k hk => ?_) hstep).congr (hpath l)
      rw [← h.ring_left hk]
      exact hring k (Or.inr (Or.inl hk))

/-- The traversal stops at the size itself, or it has passed the path of the size. -/
theorem traverse_best (rst : Trie Word Word) {i sizebits : Word} (h : t.Valid (treeBit i) d)
    (hnb : nb ≠ 0) (hring : ∀ s, t.Has s → (t.ring s).head? = oldest s)
    (hbits : sizebits = (nb <<< leftshiftForTreeIndex i) <<< d) (hf : f.Best nb oldest S) :
    (t.Has nb ∧ (traverse nb sizebits t rst f).1.isNil = false ∧
      (traverse nb sizebits t rst f).2 = ⟨oldest nb, 0⟩) ∨
    ((traverse nb sizebits t rst f).1 = t.rightOf (treeBit i) nb d rst ∧
      (traverse nb sizebits t rst f).2.Best nb oldest
        ({s | s ∈ t.pathTo (treeBit i) nb d} ∪ S)) := by
  induction t generalizing d sizebits rst f S with
  | nil => exact Or.inr ⟨rfl, hf.congr fun s => by simp [Trie.pathTo]⟩
  | node s xs l r ihl ihr =>
    have hroot : xs.head? = oldest s := by
      rw [← hring s (Or.inl rfl), Trie.ring_node, if_pos rfl]
    have hstep := hf.consider hnb hroot
    have hnext : sizebits <<< 1 = (nb <<< leftshiftForTreeIndex i) <<< (d + 1) := by
      rw [hbits, BitVec.shiftLeft_add]
    have hpath : ∀ (ks : List Word) (k : Word),
        k ∈ {s | s ∈ ks} ∪ insert s S ↔ k ∈ {k | k ∈ s :: ks} ∪ S := by
      intro ks k
      simp only [Set.mem_union, Set.mem_ofPred_eq, Set.mem_insert_iff, List.mem_cons]
      tauto
    rw [traverse]
    by_cases hexact : s - nb < f.rsize ∧ s - nb = 0
    · have hs : s = nb := by
        have := hexact.2
        bv_omega
      subst hs
      rw [if_pos hexact]
      refine Or.inl ⟨Or.inl rfl, rfl, ?_⟩
      rw [Fit.consider, if_pos hexact.1, hroot, hexact.2]
    · rw [if_neg hexact]
      have hmsb : sizebits.msb = treeBit i nb d := by
        rw [hbits]
        rfl
      rw [hmsb, Trie.pathTo, Trie.rightOf]
      by_cases hbit : treeBit i nb d = true
      · rw [if_pos hbit, if_pos hbit, if_pos hbit]
        rcases ihr rst h.2.2.2.2 (fun k hk => by
            rw [← h.ring_right hk]
            exact hring k (Or.inr (Or.inr hk))) hnext hstep with ⟨hhas, hstop⟩ | ⟨hrest, hbest⟩
        · exact Or.inl ⟨Or.inr (Or.inr hhas), hstop⟩
        · exact Or.inr ⟨hrest, hbest.congr (hpath _)⟩
      · rw [if_neg hbit, if_neg hbit, if_neg hbit]
        rcases ihl (if r.isNil then rst else r) h.2.2.2.1 (fun k hk => by
            rw [← h.ring_left hk]
            exact hring k (Or.inr (Or.inl hk))) hnext hstep with ⟨hhas, hstop⟩ | ⟨hrest, hbest⟩
        · exact Or.inl ⟨Or.inr (Or.inl hhas), hstop⟩
        · exact Or.inr ⟨hrest, hbest.congr (hpath _)⟩

end Walks

/-- The sizes that the tree bins hold. -/
def treeSizes (xs : List (Word × Word)) : Set Word := {s | isSmall s = false ∧ ∃ p, (p, s) ∈ xs}

/-- The chunk of a size that was linked first. -/
def oldestOf (xs : List (Word × Word)) (s : Word) : Option Word := (ofSize s xs).getLast?

theorem not_isSmall_iff (s : Word) : isSmall s = false ↔ 256 ≤ s.toNat := by
  rw [← Bool.not_eq_true, isSmall_iff, Nat.not_lt]

namespace Bins.Holds

variable {b : Bins} {xs : List (Word × Word)} {nb s i : Word}

theorem has_mem (h : b.Holds xs) (hs : (b.treebin i).Has s) : s ∈ treeSizes xs :=
  ⟨(h.has.mp hs).1, (h.has.mp hs).2.2⟩

theorem mem_has (h : b.Holds xs) (hs : s ∈ treeSizes xs) :
    (b.treebin (computeTreeIndex s)).Has s := h.has.mpr ⟨hs.1, rfl, hs.2⟩

theorem ring_head (h : b.Holds xs) (hs : (b.treebin i).Has s) :
    ((b.treebin i).ring s).head? = oldestOf xs s := by
  obtain ⟨hlarge, hi, -⟩ := h.has.mp hs
  rw [h.ring, if_pos ⟨hlarge, hi⟩, List.head?_reverse]
  rfl

theorem oldest_ne_none (h : b.Holds xs) (hs : (b.treebin i).Has s) : oldestOf xs s ≠ none := by
  obtain ⟨-, -, p, hp⟩ := h.has.mp hs
  rw [oldestOf, ne_eq, List.getLast?_eq_none_iff]
  exact List.ne_nil_of_mem (mem_ofSize.mpr hp)

/-- A size of a lower bin is less. -/
theorem lt_of_bins {s' j : Word} (h : b.Holds xs) (hs : (b.treebin i).Has s)
    (hs' : (b.treebin j).Has s') (hlt : i.toNat < j.toNat) : s.toNat < s'.toNat := by
  obtain ⟨hlarge, rfl, -⟩ := h.has.mp hs
  obtain ⟨hlarge', rfl, -⟩ := h.has.mp hs'
  exact lt_of_computeTreeIndex_lt ((not_isSmall_iff s).mp hlarge) ((not_isSmall_iff s').mp hlarge')
    hlt

/-- The left path of a bin is enough when no lower bin holds a size that fits. -/
theorem best_of_bin (h : b.Holds xs) (hnb : nb ≠ 0) (hi : i.toNat < 32)
    (hfirst : ∀ s ∈ treeSizes xs, nb.toNat ≤ s.toNat → i.toNat ≤ (computeTreeIndex s).toNat)
    (hfits : ∀ s, (b.treebin i).Has s → nb.toNat ≤ s.toNat) (hne : (b.treebin i).isNil = false) :
    (smallestFit nb (b.treebin i) ⟨none, -nb⟩).Best nb (oldestOf xs) (treeSizes xs) := by
  have hbest := smallestFit_best (h.valid i) hnb (fun s hs => h.ring_head hs) Fit.Best.start
  have hpath : ∀ s ∈ (b.treebin i).leftPath, (b.treebin i).Has s :=
    fun s hs => Trie.has_of_mem_leftPath hs
  refine hbest.cover (fun s hs => ?_) fun t ht hfit => ?_
  · simp only [Set.union_empty, Set.mem_ofPred_eq] at hs
    exact h.has_mem (hpath s hs)
  · have hle := hfirst t ht hfit
    obtain ⟨k, hk⟩ := Trie.exists_has hne
    obtain ⟨k', hk', hkle⟩ : ∃ k' ∈ (b.treebin i).leftPath, k'.toNat ≤ t.toNat := by
      have hP : ∀ s, (b.treebin i).Has s → isSmall s = false ∧ computeTreeIndex s = i :=
        fun s hs => ⟨(h.has.mp hs).1, (h.has.mp hs).2.1⟩
      by_cases heq : computeTreeIndex t = i
      · have ht := h.mem_has ht
        rw [heq] at ht
        exact (h.valid i).least_on_leftPath (treeBit_radix hi) hP ht
      · obtain ⟨k', hk', -⟩ := (h.valid i).least_on_leftPath (treeBit_radix hi) hP hk
        have hne : i.toNat ≠ (computeTreeIndex t).toNat := fun h => heq (BitVec.eq_of_toNat_eq h.symm)
        exact ⟨k', hk', (h.lt_of_bins (hpath k' hk') (h.mem_has ht) (by omega)).le⟩
    exact ⟨k', by simp [hk'], hfits k' (hpath k' hk'), hkle⟩

/-- The bin of the lowest bit of a part of the map. -/
theorem lowest_bin (h : b.Holds xs) {bits : Word} (hbits : bits ≠ 0)
    (hsub : ∀ j, bits.getLsbD j = true → b.treemap.getLsbD j = true) :
    (computeBit2idx (leastBit bits)).toNat < 32 ∧
      bits.getLsbD (computeBit2idx (leastBit bits)).toNat = true ∧
      (b.treebin (computeBit2idx (leastBit bits))).isNil = false ∧
      ∀ j, bits.getLsbD j = true → (computeBit2idx (leastBit bits)).toNat ≤ j := by
  have hlow := isLowest_ctz hbits
  exact ⟨hlow.lt, hlow.1, (h.treemap _ hlow.lt).mp (hsub _ hlow.1), fun j hj => hlow.le hj⟩

theorem treemap_of_mem (h : b.Holds xs) (hs : s ∈ treeSizes xs) :
    b.treemap.getLsbD (computeTreeIndex s).toNat = true := by
  rw [h.treemap _ (computeTreeIndex_lt s), ← Bool.not_eq_true, Trie.isNil_iff]
  intro hnil
  have := h.mem_has hs
  rw [hnil] at this
  exact this

/-- When the bin of `nb` has nothing that fits, the next bin that is not empty has. -/
theorem best_of_next (h : b.Holds xs) (hnb : 256 ≤ nb.toNat)
    (hnone : ∀ s, (b.treebin (computeTreeIndex nb)).Has s → s.toNat < nb.toNat) :
    (smallestFit nb (b.nextTreebin (computeTreeIndex nb)) ⟨none, -nb⟩).Best nb (oldestOf xs)
      (treeSizes xs) := by
  have hi := computeTreeIndex_lt nb
  have hne : nb ≠ 0 := by
    rintro rfl
    cases hnb
  have hbits : ∀ j, (leftBits (idx2bit (computeTreeIndex nb)) &&& b.treemap).getLsbD j = true ↔
      (computeTreeIndex nb).toNat < j ∧ b.treemap.getLsbD j = true := by
    intro j
    rw [BitVec.getLsbD_and, Bool.and_eq_true, getLsbD_leftBits hi]
    constructor
    · rintro ⟨⟨hlt, -⟩, hj⟩
      exact ⟨hlt, hj⟩
    · rintro ⟨hlt, hj⟩
      exact ⟨⟨hlt, BitVec.lt_of_getLsbD hj⟩, hj⟩
  have hbeyond : ∀ s ∈ treeSizes xs, nb.toNat ≤ s.toNat →
      (computeTreeIndex nb).toNat < (computeTreeIndex s).toNat := by
    intro s hs hfit
    by_contra hge
    rcases Nat.lt_or_ge (computeTreeIndex s).toNat (computeTreeIndex nb).toNat with hlt | hle
    · have := lt_of_computeTreeIndex_lt ((not_isSmall_iff s).mp hs.1) hnb hlt
      omega
    · have hsame : computeTreeIndex s = computeTreeIndex nb := BitVec.eq_of_toNat_eq (by omega)
      have hhas := h.mem_has hs
      rw [hsame] at hhas
      have := hnone s hhas
      omega
  rw [nextTreebin]
  by_cases hzero : leftBits (idx2bit (computeTreeIndex nb)) &&& b.treemap = 0
  · rw [if_neg (by simp [hzero])]
    refine Or.inl ⟨rfl, fun s hs => ?_⟩
    by_contra hfit
    have hbit := (hbits _).mpr ⟨hbeyond s hs (by omega), h.treemap_of_mem hs⟩
    rw [hzero] at hbit
    simp at hbit
  · rw [if_pos hzero]
    obtain ⟨hj, hbit, hnotnil, hleast⟩ := h.lowest_bin hzero fun j hj => ((hbits j).mp hj).2
    apply h.best_of_bin hne hj _ _ hnotnil
    · intro s hs hfit
      exact hleast _ ((hbits _).mpr ⟨hbeyond s hs hfit, h.treemap_of_mem hs⟩)
    · intro s hs
      obtain ⟨hlarge, hidx, -⟩ := h.has.mp hs
      have hlt := ((hbits _).mp hbit).1
      rw [← hidx] at hlt
      exact (lt_of_computeTreeIndex_lt hnb ((not_isSmall_iff s).mp hlarge) hlt).le

theorem searchSmall_best (h : b.Holds xs) (hnb : nb ≠ 0) (hsmall : nb.toNat < 256)
    (hmap : b.treemap ≠ 0) : (b.searchSmall nb).Best nb (oldestOf xs) (treeSizes xs) := by
  obtain ⟨hi, -, hnotnil, hleast⟩ := h.lowest_bin hmap fun j hj => hj
  have hlarge : ∀ i s, (b.treebin i).Has s → nb.toNat ≤ s.toNat := by
    intro i s hs
    have := (not_isSmall_iff s).mp (h.has.mp hs).1
    omega
  have hbest := h.best_of_bin hnb hi (fun s hs _ => hleast _ (h.treemap_of_mem hs)) (hlarge _) hnotnil
  have hroot := hlarge (computeBit2idx (leastBit b.treemap))
  rw [searchSmall]
  cases ht : b.treebin (computeBit2idx (leastBit b.treemap)) with
  | nil =>
    rw [ht] at hnotnil
    cases hnotnil
  | node s ys l r =>
    rw [ht] at hbest hroot
    rw [smallestFit_node, Fit.consider, if_pos ((sub_lt_neg hnb).mpr (hroot s (Or.inl rfl)))] at hbest
    exact hbest

theorem searchLarge_best (h : b.Holds xs) (hnb : 256 ≤ nb.toNat) :
    (b.searchLarge nb).Best nb (oldestOf xs) (treeSizes xs) := by
  have hi := computeTreeIndex_lt nb
  have hne : nb ≠ 0 := by
    rintro rfl
    cases hnb
  have hq : isSmall nb = false ∧ computeTreeIndex nb = computeTreeIndex nb :=
    ⟨(not_isSmall_iff nb).mpr hnb, rfl⟩
  have hP : ∀ s, (b.treebin (computeTreeIndex nb)).Has s →
      (isSmall s = false ∧ computeTreeIndex s = computeTreeIndex nb) ∧
        Agree (treeBit (computeTreeIndex nb)) 0 nb s :=
    fun s hs => ⟨⟨(h.has.mp hs).1, (h.has.mp hs).2.1⟩, fun e he => by omega⟩
  have hvalid := h.valid (computeTreeIndex nb)
  have hradix := treeBit_radix hi
  rw [searchLarge]
  generalize hfound : traverse nb (nb <<< leftshiftForTreeIndex (computeTreeIndex nb))
    (b.treebin (computeTreeIndex nb)) .nil ⟨none, -nb⟩ = found
  have hstart : (⟨none, -nb⟩ : Fit).Best nb (oldestOf xs) ∅ := Fit.Best.start
  have hwalk := traverse_best .nil hvalid hne (fun s hs => h.ring_head hs)
    (BitVec.shiftLeft_zero (nb <<< leftshiftForTreeIndex (computeTreeIndex nb))).symm hstart
  rw [hfound] at hwalk
  rcases hwalk with ⟨hhas, hnotnil, hexact⟩ | ⟨hrest, hbest⟩
  · -- A chunk of the size itself.
    rw [if_neg (by simp [hnotnil]), smallestFit_exact (by rw [hexact]), hexact]
    refine Or.inr ⟨nb, h.has_mem hhas, le_refl _, ?_, fun s _ hs => hs⟩
    rw [BitVec.sub_self]
    rfl
  · rw [Set.union_empty] at hbest
    have hright := hvalid.rightOf hradix hq hP
    by_cases hempty : found.1.isNil = true ∧ found.2.v = none
    · rw [if_pos hempty]
      have hnone : ∀ s ∈ {s | s ∈ (b.treebin (computeTreeIndex nb)).pathTo
          (treeBit (computeTreeIndex nb)) nb 0}, s.toNat < nb.toNat := by
        rcases hbest with ⟨-, hnone⟩ | ⟨s, hs, -, hv, -⟩
        · exact hnone
        · rw [hv] at hempty
          exact absurd hempty.2 (h.oldest_ne_none (Trie.has_of_mem_pathTo hs))
      have hstart : found.2 = ⟨none, -nb⟩ := by
        rcases hbest with ⟨hv, -⟩ | ⟨s, hs, hfit, -, -⟩
        · exact hv
        · have := hnone s hs
          omega
      rw [hstart]
      refine h.best_of_next hnb fun s hs => ?_
      by_contra hfit
      rcases hvalid.least_from hradix hq hP hs (by omega) with ⟨k, hk, hfit', -⟩ | ⟨k, hk, -⟩
      · have := hnone k hk
        omega
      · rw [← hrest, Trie.isNil_iff.mp hempty.1] at hk
        exact hk
    · rw [if_neg hempty, hrest]
      obtain ⟨⟨e, hvalid'⟩, hgreater⟩ := hright
      have hall := smallestFit_best hvalid' hne (fun s hs => by
        rw [hvalid.ring_rightOf hs]
        exact h.ring_head (hgreater s hs).1) hbest
      refine hall.cover (fun s hs => ?_) fun t ht hfit => ?_
      · rcases hs with hs | hs
        · exact h.has_mem (hgreater s (Trie.has_of_mem_leftPath hs)).1
        · exact h.has_mem (Trie.has_of_mem_pathTo hs)
      · have hfrom : ∀ k, ((b.treebin (computeTreeIndex nb)).rightOf
            (treeBit (computeTreeIndex nb)) nb 0 .nil).Has k →
            ∃ k' ∈ ((b.treebin (computeTreeIndex nb)).rightOf
              (treeBit (computeTreeIndex nb)) nb 0 .nil).leftPath,
              nb.toNat ≤ k'.toNat ∧ k'.toNat ≤ k.toNat := by
          intro k hk
          obtain ⟨k', hk', hle⟩ := hvalid'.least_on_leftPath hradix
            (fun s hs => (hP s (hgreater s hs).1).1) hk
          exact ⟨k', hk', (hgreater k' (Trie.has_of_mem_leftPath hk')).2.le, hle⟩
        rcases Nat.lt_trichotomy (computeTreeIndex t).toNat (computeTreeIndex nb).toNat
          with hlt | heq | hgt
        · have := lt_of_computeTreeIndex_lt ((not_isSmall_iff t).mp ht.1) hnb hlt
          omega
        · have hhas := h.mem_has ht
          rw [BitVec.eq_of_toNat_eq heq] at hhas
          rcases hvalid.least_from hradix hq hP hhas hfit with ⟨k, hk, hfit', hle⟩ | ⟨k, hk, hle⟩
          · exact ⟨k, Or.inr hk, hfit', hle⟩
          · obtain ⟨k', hk', hfit', hle'⟩ := hfrom k hk
            exact ⟨k', Or.inl hk', hfit', hle'.trans hle⟩
        · -- A larger bin does not matter, since something in this bin fits.
          by_cases hnil : found.1.isNil = true
          · rcases hbest with ⟨hv, -⟩ | ⟨s, hs, hfit', -, -⟩
            · rw [hv] at hempty
              exact absurd ⟨hnil, rfl⟩ hempty
            · exact ⟨s, Or.inr hs, hfit',
                (h.lt_of_bins (Trie.has_of_mem_pathTo hs) (h.mem_has ht) hgt).le⟩
          · rw [hrest] at hnil
            obtain ⟨k, hk⟩ := Trie.exists_has (Bool.not_eq_true _ ▸ hnil)
            obtain ⟨k', hk', hfit', -⟩ := hfrom k hk
            have hhas := (hgreater k' (Trie.has_of_mem_leftPath hk')).1
            exact ⟨k', Or.inl hk', hfit', (h.lt_of_bins hhas (h.mem_has ht) hgt).le⟩

end Bins.Holds

/-- The bins after a history of links and unlinks, and the list of what they hold. -/
inductive Bins.Linked : Bins → List (Word × Word) → Prop
  | empty : Linked Bins.empty []
  | insert {b : Bins} {xs : List (Word × Word)} (p s : Word) (prior : Linked b xs)
      (fresh : p ∉ xs.map Prod.fst) : Linked (b.insertChunk p s) ((p, s) :: xs)
  | unlink {b : Bins} {xs : List (Word × Word)} (p s : Word) (prior : Linked b xs)
      (member : (p, s) ∈ xs) : Linked (b.unlinkChunk p s) (xs.erase (p, s))

theorem Bins.Linked.holds {b : Bins} {xs : List (Word × Word)} (h : b.Linked xs) :
    b.Holds xs ∧ (xs.map Prod.fst).Nodup := by
  induction h with
  | empty => exact ⟨Bins.holds_empty, List.nodup_nil⟩
  | insert p s _ fresh ih => exact ⟨ih.1.insertChunk, List.nodup_cons.mpr ⟨fresh, ih.2⟩⟩
  | unlink p s _ member ih =>
    exact ⟨ih.1.unlinkChunk ih.2 member, ih.2.sublist (List.erase_sublist.map _)⟩

/-- Every list of chunks can be linked, the latest last. -/
theorem Bins.exists_linked {xs : List (Word × Word)} (h : (xs.map Prod.fst).Nodup) :
    ∃ b : Bins, b.Linked xs := by
  induction xs with
  | nil => exact ⟨Bins.empty, .empty⟩
  | cons x xs ih =>
    obtain ⟨hfresh, hrest⟩ := List.nodup_cons.mp h
    obtain ⟨b, hb⟩ := ih hrest
    exact ⟨b.insertChunk x.1 x.2, .insert x.1 x.2 hb hfresh⟩

/-- The result of a search that settled on a chunk. -/
def Fit.ofChunk (nb : Word) : Option (Word × Word) → Fit
  | none => ⟨none, -nb⟩
  | some (v, size) => ⟨some v, size - nb⟩

section Agreement

variable {b : Bins} {c : ChunkStore} {nb : Word}

/-- Among the chunks of the smallest size that fits, the fold keeps the one linked first. -/
theorem fitter_foldr_oldest {xs : List (Word × Word)} {y : Word × Word}
    (h : xs.foldr (ChunkStore.fitter nb) none = some y) : oldestOf xs y.2 = some y.1 := by
  induction xs generalizing y with
  | nil => cases h
  | cons x xs ih =>
    have hspec := fitter_foldr nb xs
    have hcons : ∀ k, oldestOf (x :: xs) k =
        if k = x.2 then (x.1 :: ofSize k xs).getLast? else oldestOf xs k := by
      intro k
      rw [oldestOf, ofSize_cons]
      split_ifs
      · rfl
      · rfl
    rw [List.foldr_cons] at h
    rw [hcons]
    by_cases hskip : (isSmall x.2 || x.2 < nb) = true
    · rw [fitter_of_skip hskip] at h
      rw [h] at hspec
      rw [Bool.or_eq_true, decide_eq_true_eq] at hskip
      rw [if_neg, ih h]
      intro heq
      rw [← heq] at hskip
      rcases hskip with hsmall | hless
      · rw [hspec.2.1] at hsmall
        cases hsmall
      · exact absurd hspec.2.2.1 (BitVec.not_le.mpr hless)
    · have hfit := hskip
      rw [Bool.or_eq_true, decide_eq_true_eq, not_or] at hskip
      cases hbest : xs.foldr (ChunkStore.fitter nb) none with
      | none =>
        rw [hbest, fitter_none hfit] at h
        rw [hbest] at hspec
        cases h
        have hno : ofSize x.2 xs = [] := by
          rw [List.eq_nil_iff_forall_not_mem]
          intro p hp
          rcases hspec _ (mem_ofSize.mp hp) with hsmall | hless
          · exact hskip.1 hsmall
          · exact hskip.2 hless
        rw [if_pos rfl, hno]
        rfl
      | some z =>
        rw [hbest, fitter_some hfit] at h
        rw [hbest] at hspec
        split_ifs at h with hless
        · cases h
          have hno : ofSize x.2 xs = [] := by
            rw [List.eq_nil_iff_forall_not_mem]
            intro p hp
            rcases hspec.2.2.2 _ (mem_ofSize.mp hp) with hsmall | hlow | hle
            · exact hskip.1 hsmall
            · exact hskip.2 hlow
            · exact absurd hle (BitVec.not_le.mpr hless)
          rw [if_pos rfl, hno]
          rfl
        · cases h
          have hin := ih hbest
          split_ifs
          · rw [oldestOf] at hin
            rw [List.getLast?_cons, hin]
            rfl
          · exact hin

theorem Fit.Best.eq_bestFit {f : Fit} (h : f.Best nb (oldestOf c.binned) (treeSizes c.binned)) :
    f = Fit.ofChunk nb (c.bestFit nb) := by
  cases hbest : c.bestFit nb with
  | none =>
    have hnone := bestFit_none hbest
    rcases h with ⟨rfl, -⟩ | ⟨s, ⟨hlarge, p, hp⟩, hfit, -, -⟩
    · rfl
    · rcases hnone _ hp with hsmall | hless
      · rw [hlarge] at hsmall
        cases hsmall
      · exact absurd (word_lt.mp hless) (Nat.not_lt.mpr hfit)
  | some y =>
    obtain ⟨hmem, hlarge, hfits, hleast⟩ := bestFit_some hbest
    rw [word_le] at hfits
    have hy : y.2 ∈ treeSizes c.binned := ⟨hlarge, y.1, hmem⟩
    rcases h with ⟨-, hnone⟩ | ⟨s, ⟨hs, p, hp⟩, hfit, rfl, hmin⟩
    · have := hnone y.2 hy
      omega
    · have hle := hmin y.2 hy hfits
      have hge : y.2.toNat ≤ s.toNat := by
        rcases hleast _ hp with hsmall | hless | hle
        · rw [hs] at hsmall
          cases hsmall
        · exact absurd (word_lt.mp hless) (Nat.not_lt.mpr hfit)
        · exact hle
      have heq : s = y.2 := BitVec.eq_of_toNat_eq (by omega)
      rw [heq, fitter_foldr_oldest hbest]
      rfl

theorem Bins.Holds.smallmap_eq (h : b.Holds c.binned) : b.smallmap = c.smallmap := by
  apply BitVec.eq_of_getLsbD_eq
  intro j hj
  have hi : (BitVec.ofNat 32 j).toNat = j := Nat.mod_eq_of_lt (by omega)
  rw [Bool.eq_iff_iff, smallmap_bit]
  have hbin := h.smallmap (BitVec.ofNat 32 j) (by omega)
  rw [hi] at hbin
  rw [hbin, h.smallbin]
  constructor
  · intro hne
    obtain ⟨p, hp⟩ := List.exists_mem_of_ne_nil _ hne
    obtain ⟨s, hmem, hs, hidx⟩ := mem_ofSmallIndex.mp hp
    exact ⟨(p, s), hmem, hs, by rw [hidx, hi]⟩
  · rintro ⟨x, hx, hs, hidx⟩
    exact List.ne_nil_of_mem
      (mem_ofSmallIndex.mpr ⟨x.2, hx, hs, BitVec.eq_of_toNat_eq (by rw [hidx, hi])⟩)

theorem Bins.Holds.treemap_eq (h : b.Holds c.binned) : b.treemap = c.treemap := by
  apply BitVec.eq_of_getLsbD_eq
  intro j hj
  have hi : (BitVec.ofNat 32 j).toNat = j := Nat.mod_eq_of_lt (by omega)
  rw [Bool.eq_iff_iff, treemap_bit]
  have hbin := h.treemap (BitVec.ofNat 32 j) (by omega)
  rw [hi] at hbin
  rw [hbin]
  constructor
  · intro hne
    obtain ⟨s, hs⟩ := Trie.exists_has hne
    obtain ⟨hlarge, hidx, p, hp⟩ := h.has.mp hs
    exact ⟨(p, s), hp, hlarge, by rw [hidx, hi]⟩
  · rintro ⟨x, hx, hs, hidx⟩
    rw [← hbin, ← hidx]
    exact h.treemap_of_mem ⟨hs, x.1, hx⟩

theorem Bins.Holds.firstSmall_eq (h : b.Holds c.binned) (i : Word) :
    b.firstSmall i = c.firstSmall i := by
  rw [Bins.firstSmall, h.smallbin, ofSmallIndex, List.head?_map, List.head?_filter]
  rfl

/-- After any history of links and unlinks, the bins answer the allocator as the list does. -/
theorem linked_agrees (h : b.Linked c.binned) : b.smallmap = c.smallmap ∧ b.treemap = c.treemap ∧
    (∀ i, b.firstSmall i = c.firstSmall i) ∧
    (∀ nb, isSmall nb = false → b.searchLarge nb = Fit.ofChunk nb (c.bestFit nb)) ∧
    ∀ nb, isSmall nb = true → nb ≠ 0 → c.treemap ≠ 0 →
      b.searchSmall nb = Fit.ofChunk nb (c.bestFit nb) := by
  obtain ⟨hholds, -⟩ := h.holds
  refine ⟨hholds.smallmap_eq, hholds.treemap_eq, hholds.firstSmall_eq, fun nb hnb => ?_,
    fun nb hsmall hne hmap => ?_⟩
  · exact (hholds.searchLarge_best ((not_isSmall_iff nb).mp hnb)).eq_bestFit
  · rw [← hholds.treemap_eq] at hmap
    exact (hholds.searchSmall_best hne ((isSmall_iff nb).mp hsmall) hmap).eq_bestFit

end Agreement

/-- Three chunks of a tree bin, of which the first is unlinked again, and a small one. -/
def linkedBins : Bins :=
  ((((Bins.empty.insertChunk 0x1000 0x120).insertChunk 0x2000 0x120).insertChunk 0x3000 0x150).insertChunk
    0x4000 0x40).unlinkChunk 0x1000 0x120

def linkedChunks : ChunkStore :=
  ⟨fun _ => 0, 0, 0, [(0x4000, 0x40), (0x3000, 0x150), (0x2000, 0x120)]⟩

theorem linked_agrees_four : linkedBins.smallmap = 0x100 ∧ linkedBins.treemap = 1 ∧
    linkedBins.firstSmall 8 = some 0x4000 ∧ linkedBins.searchLarge 0x110 = ⟨some 0x2000, 0x10⟩ ∧
    linkedBins.searchSmall 0x60 = ⟨some 0x2000, 0xC0⟩ := by
  have hlinked : linkedBins.Linked linkedChunks.binned :=
    .unlink 0x1000 0x120 (.insert 0x4000 0x40 (.insert 0x3000 0x150 (.insert 0x2000 0x120
      (.insert 0x1000 0x120 .empty (by decide)) (by decide)) (by decide)) (by decide)) (by decide)
  obtain ⟨hsmall, htree, hfirst, hlarge, hsearch⟩ := linked_agrees hlinked
  rw [hsmall, htree, hfirst, hlarge 0x110 (by decide),
    hsearch 0x60 (by decide) (by decide) (by decide)]
  decide

end WasmCxxShim.Dlmalloc
