import Mathlib

/-!
# Bitwise tries

A trie over keys that are read bit by bit, `bit k d` at depth `d`. The keys to the left of a node
have a 0 at its depth and those to the right a 1; the key of the node itself stands in no order to
them. A node keeps the entries of its key in a ring, the oldest first. The least key lies on the path
that prefers left children, and the least key from some `q` on lies on the path of `q` or in the
last subtree to the right of that path.
-/
namespace WasmCxxShim.BitwiseTries

inductive Trie (κ α : Type)
  | nil
  | node (key : κ) (entries : List α) (zero one : Trie κ α)
  deriving Repr

variable {κ α : Type}

namespace Trie

def isNil : Trie κ α → Bool
  | nil => true
  | node .. => false

/-- The trie has a node for the key. -/
def Has (k : κ) : Trie κ α → Prop
  | nil => False
  | node k' _ l r => k = k' ∨ l.Has k ∨ r.Has k

/-- The entries of a key. -/
def ring [DecidableEq κ] (k : κ) : Trie κ α → List α
  | nil => []
  | node k' xs l r => if k = k' then xs else l.ring k ++ r.ring k

def insert [DecidableEq κ] (bit : κ → ℕ → Bool) (x : α) (s : κ) : ℕ → Trie κ α → Trie κ α
  | _, nil => node s [x] nil nil
  | d, node k xs l r =>
    if k ≠ s then
      if bit s d then node k xs l (r.insert bit x s (d + 1))
      else node k xs (l.insert bit x s (d + 1)) r
    else node k (xs ++ [x]) l r

/-- Take the leaf out that is found by preferring right children. -/
def takeLeaf : Trie κ α → Option ((κ × List α) × Trie κ α)
  | nil => none
  | node k xs l r =>
    match r.takeLeaf with
    | some (leaf, r') => some (leaf, node k xs l r')
    | none =>
      match l.takeLeaf with
      | some (leaf, l') => some (leaf, node k xs l' r)
      | none => some ((k, xs), nil)

/-- A leaf takes the place of the node above `l` and `r`. -/
def replaceRoot (l r : Trie κ α) : Trie κ α :=
  match r.takeLeaf with
  | some (leaf, r') => node leaf.1 leaf.2 l r'
  | none =>
    match l.takeLeaf with
    | some (leaf, l') => node leaf.1 leaf.2 l' r
    | none => nil

def unlink [DecidableEq α] (x : α) : Trie κ α → Trie κ α
  | nil => nil
  | node k xs l r =>
    if x ∈ xs then
      if xs.erase x = [] then replaceRoot l r else node k (xs.erase x) l r
    else node k xs (l.unlink x) (r.unlink x)

/-- The keys on the path that prefers left children. -/
def leftPath : Trie κ α → List κ
  | nil => []
  | node k _ nil r => k :: r.leftPath
  | node k _ (node k' xs l r') _ => k :: (node k' xs l r').leftPath

/-- The keys on the path of `q`. -/
def pathTo (bit : κ → ℕ → Bool) (q : κ) : ℕ → Trie κ α → List κ
  | _, nil => []
  | d, node k _ l r => k :: if bit q d then r.pathTo bit q (d + 1) else l.pathTo bit q (d + 1)

/-- The deepest subtree to the right of the path of `q`, or else `rest`. -/
def rightOf (bit : κ → ℕ → Bool) (q : κ) : ℕ → Trie κ α → Trie κ α → Trie κ α
  | _, nil, rest => rest
  | d, node _ _ l r, rest =>
    if bit q d then r.rightOf bit q (d + 1) rest
    else l.rightOf bit q (d + 1) (if r.isNil then rest else r)

end Trie

/-- The keys have the same first bits. -/
def Agree (bit : κ → ℕ → Bool) (d : ℕ) (k k' : κ) : Prop := ∀ i < d, bit k i = bit k' i

namespace Agree

variable {bit : κ → ℕ → Bool} {d : ℕ} {k k' k'' : κ}

theorem symm (h : Agree bit d k k') : Agree bit d k' k := fun i hi => (h i hi).symm

theorem trans (h : Agree bit d k k') (h' : Agree bit d k' k'') : Agree bit d k k'' :=
  fun i hi => (h i hi).trans (h' i hi)

theorem succ (h : Agree bit d k k') (hbit : bit k d = bit k' d) : Agree bit (d + 1) k k' := by
  intro i hi
  by_cases heq : i = d
  · rw [heq]
    exact hbit
  · exact h i (by omega)

end Agree

namespace Trie

/-- A node at depth `d` divides the keys below it by their bits there. -/
def Valid (bit : κ → ℕ → Bool) : ℕ → Trie κ α → Prop
  | _, nil => True
  | d, node k xs l r => xs ≠ [] ∧
      (∀ k', l.Has k' → k' ≠ k ∧ Agree bit d k k' ∧ bit k' d = false) ∧
      (∀ k', r.Has k' → k' ≠ k ∧ Agree bit d k k' ∧ bit k' d = true) ∧
      l.Valid bit (d + 1) ∧ r.Valid bit (d + 1)

variable {bit : κ → ℕ → Bool} {d : ℕ} {t t' l l' r r' : Trie κ α} {k k' s : κ} {xs ys : List α}
  {x : α}

@[simp] theorem has_nil : ¬ (nil : Trie κ α).Has k := id

@[simp] theorem has_node : (node k xs l r).Has k' ↔ k' = k ∨ l.Has k' ∨ r.Has k' := Iff.rfl

theorem isNil_iff : t.isNil = true ↔ t = nil := by
  cases t <;> simp [isNil]

theorem takeLeaf_eq_none : t.takeLeaf = none ↔ t = nil := by
  cases t with
  | nil => simp [takeLeaf]
  | node k xs l r =>
    simp only [takeLeaf, reduceCtorEq, iff_false]
    cases r.takeLeaf with
    | some y => simp
    | none => cases l.takeLeaf <;> simp

theorem Valid.ne_of_sides (h : (node k xs l r).Valid bit d) (hl : l.Has s) (hr : r.Has k') :
    s ≠ k' := by
  rintro rfl
  have hbit := (h.2.1 s hl).2.2
  rw [(h.2.2.1 s hr).2.2] at hbit
  cases hbit

variable [DecidableEq κ]

@[simp] theorem ring_nil : (nil : Trie κ α).ring k = [] := rfl

theorem ring_node : (node k xs l r).ring k' = if k' = k then xs else l.ring k' ++ r.ring k' := rfl

theorem ring_of_not_has (h : ¬ t.Has k) : t.ring k = [] := by
  induction t with
  | nil => rfl
  | node k' xs l r ihl ihr =>
    rw [has_node, not_or, not_or] at h
    rw [ring_node, if_neg h.1, ihl h.2.1, ihr h.2.2]
    rfl

theorem Valid.has_iff (h : t.Valid bit d) : t.Has k ↔ t.ring k ≠ [] := by
  refine ⟨fun hk => ?_, fun hne => by_contra fun hno => hne (ring_of_not_has hno)⟩
  induction t generalizing d with
  | nil => exact hk.elim
  | node k' xs l r ihl ihr =>
    obtain ⟨hxs, hl, hr, hvl, hvr⟩ := h
    rw [ring_node]
    split_ifs with heq
    · exact hxs
    · rcases hk with hk | hk | hk
      · exact absurd hk heq
      · simp [ihl hvl hk]
      · simp [ihr hvr hk]

theorem Valid.ring_zero (h : (node k xs l r).Valid bit d) (hk : bit k' d = false) :
    r.ring k' = [] := by
  refine ring_of_not_has fun hr => ?_
  have hbit := (h.2.2.1 k' hr).2.2
  rw [hk] at hbit
  cases hbit

theorem Valid.ring_one (h : (node k xs l r).Valid bit d) (hk : bit k' d = true) :
    l.ring k' = [] := by
  refine ring_of_not_has fun hl => ?_
  have hbit := (h.2.1 k' hl).2.2
  rw [hk] at hbit
  cases hbit

/-- A key whose ring is not empty is below a node on one side only. -/
theorem Valid.ring_left (h : (node k xs l r).Valid bit d) (hl : l.Has k') :
    (node k xs l r).ring k' = l.ring k' := by
  obtain ⟨hne, -, hbit⟩ := h.2.1 k' hl
  rw [ring_node, if_neg hne, h.ring_zero hbit, List.append_nil]

theorem Valid.ring_right (h : (node k xs l r).Valid bit d) (hr : r.Has k') :
    (node k xs l r).ring k' = r.ring k' := by
  obtain ⟨hne, -, hbit⟩ := h.2.2.1 k' hr
  rw [ring_node, if_neg hne, h.ring_one hbit, List.nil_append]

theorem has_insert : (t.insert bit x s d).Has k ↔ k = s ∨ t.Has k := by
  induction t generalizing d with
  | nil => simp [insert]
  | node k' xs l r ihl ihr =>
    rw [insert]
    split_ifs with hne hbit
    · simp only [has_node, ihr]
      tauto
    · simp only [has_node, ihl]
      tauto
    · rw [not_not] at hne
      subst hne
      simp only [has_node]
      tauto

theorem isNil_insert : (t.insert bit x s d).isNil = false := by
  rw [← Bool.not_eq_true, isNil_iff]
  intro hnil
  have hs : (t.insert bit x s d).Has s := has_insert.mpr (Or.inl rfl)
  rw [hnil] at hs
  exact hs

theorem Valid.insert (h : t.Valid bit d) (hagree : ∀ k, t.Has k → Agree bit d k s) :
    (t.insert bit x s d).Valid bit d := by
  induction t generalizing d with
  | nil => simp [Trie.insert, Valid]
  | node k xs l r ihl ihr =>
    obtain ⟨hxs, hl, hr, hvl, hvr⟩ := h
    rw [Trie.insert]
    have hroot := hagree k (Or.inl rfl)
    split_ifs with hne hbit
    · refine ⟨hxs, hl, fun k' hk' => ?_, hvl, ihr hvr fun k' hk' => ?_⟩
      · rcases has_insert.mp hk' with rfl | hk'
        · exact ⟨hne.symm, hroot, hbit⟩
        · exact hr k' hk'
      · exact (hagree k' (Or.inr (Or.inr hk'))).succ ((hr k' hk').2.2.trans hbit.symm)
    · rw [Bool.not_eq_true] at hbit
      refine ⟨hxs, fun k' hk' => ?_, hr, ihl hvl fun k' hk' => ?_, hvr⟩
      · rcases has_insert.mp hk' with rfl | hk'
        · exact ⟨hne.symm, hroot, hbit⟩
        · exact hl k' hk'
      · exact (hagree k' (Or.inr (Or.inl hk'))).succ ((hl k' hk').2.2.trans hbit.symm)
    · exact ⟨by simp, hl, hr, hvl, hvr⟩

/-- A new entry is the youngest of its key. -/
theorem Valid.ring_insert (h : t.Valid bit d) :
    (t.insert bit x s d).ring k = if k = s then t.ring s ++ [x] else t.ring k := by
  induction t generalizing d with
  | nil =>
    simp only [Trie.insert, ring_node, ring_nil, List.append_nil, List.nil_append]
  | node k' xs l r ihl ihr =>
    have hvalid := h
    obtain ⟨-, -, -, hvl, hvr⟩ := h
    rw [Trie.insert]
    split_ifs with hne hbit hks hks hks
    · subst hks
      rw [ring_node, ring_node, if_neg (Ne.symm hne), if_neg (Ne.symm hne), ihr hvr, if_pos rfl,
        hvalid.ring_one hbit, List.nil_append, List.nil_append]
    · rw [ring_node, ring_node, ihr hvr, if_neg hks]
    · subst hks
      rw [ring_node, ring_node, if_neg (Ne.symm hne), if_neg (Ne.symm hne), ihl hvl, if_pos rfl,
        hvalid.ring_zero (Bool.not_eq_true _ ▸ hbit), List.append_nil, List.append_nil]
    · rw [ring_node, ring_node, ihl hvl, if_neg hks]
    · rw [not_not] at hne
      subst hne hks
      simp [ring_node]
    · rw [not_not] at hne
      subst hne
      rw [ring_node, ring_node, if_neg hks, if_neg hks]

/-- The key is gone, and nothing else changes. -/
structure Removed (bit : κ → ℕ → Bool) (d : ℕ) (t t' : Trie κ α) (s : κ) : Prop where
  valid : t'.Valid bit d
  has : ∀ k, t'.Has k ↔ t.Has k ∧ k ≠ s
  ring : ∀ k, t'.ring k = if k = s then [] else t.ring k

theorem Valid.removed_right (h : (node k xs l r).Valid bit d) (hs : r.Has s)
    (hr : Removed bit (d + 1) r r' s) : Removed bit d (node k xs l r) (node k xs l r') s := by
  have hvalid := h
  obtain ⟨hxs, hzero, hone, hvl, -⟩ := h
  have hne : k ≠ s := (hone s hs).1.symm
  refine ⟨⟨hxs, hzero, fun k' hk' => hone k' ((hr.has k').mp hk').1, hvl, hr.valid⟩, fun k' => ?_,
    fun k' => ?_⟩
  · simp only [has_node, hr.has]
    constructor
    · rintro (rfl | hk' | ⟨hk', hne'⟩)
      · exact ⟨Or.inl rfl, hne⟩
      · exact ⟨Or.inr (Or.inl hk'), hvalid.ne_of_sides hk' hs⟩
      · exact ⟨Or.inr (Or.inr hk'), hne'⟩
    · rintro ⟨rfl | hk' | hk', hne'⟩
      · exact Or.inl rfl
      · exact Or.inr (Or.inl hk')
      · exact Or.inr (Or.inr ⟨hk', hne'⟩)
  · rw [ring_node, ring_node, hr.ring]
    by_cases heq : k' = s
    · subst heq
      rw [if_neg hne.symm, if_pos rfl, if_pos rfl, hvalid.ring_one (hone k' hs).2.2]
      rfl
    · rw [if_neg heq, if_neg heq]

theorem Valid.removed_left (h : (node k xs l r).Valid bit d) (hs : l.Has s)
    (hl : Removed bit (d + 1) l l' s) : Removed bit d (node k xs l r) (node k xs l' r) s := by
  have hvalid := h
  obtain ⟨hxs, hzero, hone, -, hvr⟩ := h
  have hne : k ≠ s := (hzero s hs).1.symm
  refine ⟨⟨hxs, fun k' hk' => hzero k' ((hl.has k').mp hk').1, hone, hl.valid, hvr⟩, fun k' => ?_,
    fun k' => ?_⟩
  · simp only [has_node, hl.has]
    constructor
    · rintro (rfl | ⟨hk', hne'⟩ | hk')
      · exact ⟨Or.inl rfl, hne⟩
      · exact ⟨Or.inr (Or.inl hk'), hne'⟩
      · exact ⟨Or.inr (Or.inr hk'), (hvalid.ne_of_sides hs hk').symm⟩
    · rintro ⟨rfl | hk' | hk', hne'⟩
      · exact Or.inl rfl
      · exact Or.inr (Or.inl ⟨hk', hne'⟩)
      · exact Or.inr (Or.inr hk')
  · rw [ring_node, ring_node, hl.ring]
    by_cases heq : k' = s
    · subst heq
      rw [if_neg hne.symm, if_pos rfl, if_pos rfl, hvalid.ring_zero (hzero k' hs).2.2]
      rfl
    · rw [if_neg heq, if_neg heq]

theorem Valid.takeLeaf (h : t.Valid bit d) {leaf : κ × List α} (hleaf : t.takeLeaf = some (leaf, t')) :
    t.Has leaf.1 ∧ leaf.2 = t.ring leaf.1 ∧ Removed bit d t t' leaf.1 := by
  induction t generalizing d leaf t' with
  | nil => cases hleaf
  | node k xs l r ihl ihr =>
    rw [Trie.takeLeaf] at hleaf
    cases hr : r.takeLeaf with
    | some y =>
      rw [hr] at hleaf
      cases hleaf
      obtain ⟨hhas, hring, hremoved⟩ := ihr h.2.2.2.2 hr
      exact ⟨Or.inr (Or.inr hhas), by rw [h.ring_right hhas, hring], h.removed_right hhas hremoved⟩
    | none =>
      cases hl : l.takeLeaf with
      | some y =>
        rw [hr, hl] at hleaf
        cases hleaf
        obtain ⟨hhas, hring, hremoved⟩ := ihl h.2.2.2.1 hl
        exact ⟨Or.inr (Or.inl hhas), by rw [h.ring_left hhas, hring], h.removed_left hhas hremoved⟩
      | none =>
        rw [hr, hl] at hleaf
        cases hleaf
        rw [takeLeaf_eq_none] at hl hr
        subst hl hr
        refine ⟨Or.inl rfl, by simp [ring_node], trivial, fun k' => ?_, fun k' => ?_⟩
        · simp
        · by_cases hk : k' = k <;> simp [ring_node, hk]

/-- A key from below takes the place of the root. -/
theorem Valid.removed_root (h : (node k xs l r).Valid bit d) (l' r' : Trie κ α) {s : κ}
    (hs : l.Has s ∨ r.Has s) (hl : ∀ k', l'.Has k' ↔ l.Has k' ∧ k' ≠ s)
    (hr : ∀ k', r'.Has k' ↔ r.Has k' ∧ k' ≠ s)
    (hlring : ∀ k', l'.ring k' = if k' = s then [] else l.ring k')
    (hrring : ∀ k', r'.ring k' = if k' = s then [] else r.ring k')
    (hvl : l'.Valid bit (d + 1)) (hvr : r'.Valid bit (d + 1)) :
    Removed bit d (node k xs l r) (node s (l.ring s ++ r.ring s) l' r') k := by
  have hvalid := h
  obtain ⟨hxs, hzero, hone, -, -⟩ := h
  have hroot : s ≠ k ∧ Agree bit d k s :=
    hs.elim (fun hs => ⟨(hzero s hs).1, (hzero s hs).2.1⟩) fun hs => ⟨(hone s hs).1, (hone s hs).2.1⟩
  have hsame : (node k xs l r).ring s = l.ring s ++ r.ring s := by
    rw [ring_node, if_neg hroot.1]
  refine ⟨⟨?_, fun k' hk' => ?_, fun k' hk' => ?_, hvl, hvr⟩, fun k' => ?_, fun k' => ?_⟩
  · rw [← hsame, ← hvalid.has_iff]
    exact Or.inr hs
  · obtain ⟨hk', hne⟩ := (hl k').mp hk'
    exact ⟨hne, hroot.2.symm.trans (hzero k' hk').2.1, (hzero k' hk').2.2⟩
  · obtain ⟨hk', hne⟩ := (hr k').mp hk'
    exact ⟨hne, hroot.2.symm.trans (hone k' hk').2.1, (hone k' hk').2.2⟩
  · simp only [has_node, hl, hr]
    constructor
    · rintro (rfl | ⟨hk', -⟩ | ⟨hk', -⟩)
      · exact ⟨Or.inr hs, hroot.1⟩
      · exact ⟨Or.inr (Or.inl hk'), (hzero k' hk').1⟩
      · exact ⟨Or.inr (Or.inr hk'), (hone k' hk').1⟩
    · rintro ⟨hk', hne⟩
      by_cases heq : k' = s
      · exact Or.inl heq
      · exact Or.inr ((hk'.resolve_left hne).imp (fun h => ⟨h, heq⟩) fun h => ⟨h, heq⟩)
  · rw [ring_node, ring_node, hlring, hrring]
    by_cases heq : k' = s
    · subst heq
      rw [if_pos rfl, if_neg hroot.1, if_neg hroot.1]
    · rw [if_neg heq, if_neg heq, if_neg heq]
      split_ifs with hk
      · rw [ring_of_not_has fun hl => (hzero k' hl).1 hk, ring_of_not_has fun hr => (hone k' hr).1 hk]
        rfl
      · rfl

theorem Valid.replaceRoot (h : (node k xs l r).Valid bit d) :
    Removed bit d (node k xs l r) (l.replaceRoot r) k := by
  have hvl := h.2.2.2.1
  have hvr := h.2.2.2.2
  rw [Trie.replaceRoot]
  cases hr : r.takeLeaf with
  | some y =>
    obtain ⟨hhas, hring, hremoved⟩ := hvr.takeLeaf hr
    have hleft : l.ring y.1.1 = [] := h.ring_one (h.2.2.1 _ hhas).2.2
    have hgone : ¬ l.Has y.1.1 := fun hl => h.ne_of_sides hl hhas rfl
    have hroot := h.removed_root l y.2 (Or.inr hhas) (fun k' => ?_) hremoved.has (fun k' => ?_)
      hremoved.ring hvl hremoved.valid
    · rw [hleft, List.nil_append, ← hring] at hroot
      exact hroot
    · refine ⟨fun hk' => ⟨hk', ?_⟩, And.left⟩
      rintro rfl
      exact hgone hk'
    · split_ifs with heq
      · rw [heq, hleft]
      · rfl
  | none =>
    rw [takeLeaf_eq_none] at hr
    subst hr
    cases hl : l.takeLeaf with
    | some y =>
      obtain ⟨hhas, hring, hremoved⟩ := hvl.takeLeaf hl
      have hroot := h.removed_root y.2 nil (Or.inl hhas) hremoved.has (by simp) hremoved.ring
        (by simp) hremoved.valid trivial
      rw [ring_nil, List.append_nil, ← hring] at hroot
      exact hroot
    | none =>
      rw [takeLeaf_eq_none] at hl
      subst hl
      refine ⟨trivial, fun k' => ?_, fun k' => ?_⟩
      · simp
      · by_cases hk : k' = k <;> simp [ring_node, hk]

/-- An entry that only one key has is taken out of the ring of this key. -/
theorem Valid.unlink [DecidableEq α] (h : t.Valid bit d) (hone : ∀ k, x ∈ t.ring k → k = s) :
    (t.unlink x).Valid bit d ∧ (∀ k, (t.unlink x).Has k → t.Has k) ∧
      ∀ k, (t.unlink x).ring k = (t.ring k).erase x := by
  induction t generalizing d with
  | nil => exact ⟨trivial, fun _ => id, fun _ => rfl⟩
  | node k' xs l r ihl ihr =>
    have hvalid := h
    obtain ⟨hxs, hl, hr, hvl, hvr⟩ := h
    rw [Trie.unlink]
    by_cases hmem : x ∈ xs
    · have hk' : k' = s := hone k' (by simpa [ring_node] using hmem)
      have hother : ∀ k, k ≠ k' → ((node k' xs l r).ring k).erase x = (node k' xs l r).ring k :=
        fun k hk => List.erase_of_not_mem fun hx => hk ((hone k hx).trans hk'.symm)
      rw [if_pos hmem]
      split_ifs with hlast
      · have hremoved := hvalid.replaceRoot
        refine ⟨hremoved.valid, fun k hk => ((hremoved.has k).mp hk).1, fun k => ?_⟩
        rw [hremoved.ring]
        split_ifs with hk
        · rw [hk, ring_node, if_pos rfl, hlast]
        · exact (hother k hk).symm
      · refine ⟨⟨hlast, hl, hr, hvl, hvr⟩, fun k hk => hk, fun k => ?_⟩
        by_cases hk : k = k'
        · rw [hk, ring_node, ring_node, if_pos rfl, if_pos rfl]
        · rw [hother k hk, ring_node, ring_node, if_neg hk, if_neg hk]
    · have hbelow : ∀ k, x ∈ l.ring k ++ r.ring k → k = s := by
        intro k hx
        by_cases hk : k = k'
        · have hno : l.ring k = [] ∧ r.ring k = [] :=
            ⟨ring_of_not_has fun h => (hl k h).1 hk, ring_of_not_has fun h => (hr k h).1 hk⟩
          rw [hno.1, hno.2] at hx
          cases hx
        · exact hone k (by rw [ring_node, if_neg hk]; exact hx)
      obtain ⟨hvl', hhasl, hringl⟩ := ihl hvl fun k hx => hbelow k (List.mem_append_left _ hx)
      obtain ⟨hvr', hhasr, hringr⟩ := ihr hvr fun k hx => hbelow k (List.mem_append_right _ hx)
      rw [if_neg hmem]
      refine ⟨⟨hxs, fun k hk => hl k (hhasl k hk), fun k hk => hr k (hhasr k hk), hvl', hvr'⟩,
        fun k hk => hk.imp_right fun hk => hk.imp (hhasl k) (hhasr k), fun k => ?_⟩
      rw [ring_node, ring_node, hringl, hringr]
      split_ifs with hk
      · exact (List.erase_of_not_mem hmem).symm
      · by_cases hleft : l.Has k
        · rw [hvalid.ring_zero (hl k hleft).2.2, List.append_nil]
          simp
        · rw [ring_of_not_has hleft]
          simp

end Trie

/-- Among the keys that satisfy `P`, the first bit that differs decides the order. -/
structure Radix (bit : κ → ℕ → Bool) (val : κ → ℕ) (P : κ → Prop) : Prop where
  lt : ∀ {k k' : κ} {d : ℕ}, P k → P k' → Agree bit d k k' → bit k d = false → bit k' d = true →
    val k < val k'

namespace Trie

variable {bit : κ → ℕ → Bool} {val : κ → ℕ} {P : κ → Prop} {d : ℕ} {t l r rest : Trie κ α} {k q : κ}
  {xs : List α}

theorem leftPath_node :
    (node k xs l r).leftPath = k :: if l.isNil then r.leftPath else l.leftPath := by
  cases l <;> rfl

theorem has_of_mem_leftPath (h : k ∈ t.leftPath) : t.Has k := by
  induction t with
  | nil => cases h
  | node k' xs l r ihl ihr =>
    rw [leftPath_node, List.mem_cons] at h
    rcases h with rfl | h
    · exact Or.inl rfl
    · split_ifs at h
      · exact Or.inr (Or.inr (ihr h))
      · exact Or.inr (Or.inl (ihl h))

theorem exists_has (h : t.isNil = false) : ∃ k, t.Has k := by
  cases t with
  | nil => cases h
  | node k xs l r => exact ⟨k, Or.inl rfl⟩

/-- The keys to the left of a node are less than those to the right. -/
theorem Valid.lt (h : (node k xs l r).Valid bit d) (hradix : Radix bit val P) {k₁ k₂ : κ}
    (hl : l.Has k₁) (hr : r.Has k₂) (h₁ : P k₁) (h₂ : P k₂) : val k₁ < val k₂ := by
  obtain ⟨-, hagree₁, hbit₁⟩ := h.2.1 k₁ hl
  obtain ⟨-, hagree₂, hbit₂⟩ := h.2.2.1 k₂ hr
  exact hradix.lt h₁ h₂ (hagree₁.symm.trans hagree₂) hbit₁ hbit₂

theorem Valid.least_on_leftPath (h : t.Valid bit d) (hradix : Radix bit val P)
    (hP : ∀ k, t.Has k → P k) (hk : t.Has k) : ∃ k' ∈ t.leftPath, val k' ≤ val k := by
  induction t generalizing d k with
  | nil => exact hk.elim
  | node k₀ xs l r ihl ihr =>
    have hPl : ∀ k, l.Has k → P k := fun k hk => hP k (Or.inr (Or.inl hk))
    have hPr : ∀ k, r.Has k → P k := fun k hk => hP k (Or.inr (Or.inr hk))
    simp only [leftPath_node, List.mem_cons, exists_eq_or_imp]
    rcases hk with rfl | hk | hk
    · exact Or.inl (le_refl _)
    · have hne : l.isNil = false := by
        cases l with
        | nil => exact hk.elim
        | node => rfl
      rw [hne]
      exact Or.inr (ihl h.2.2.2.1 hPl hk)
    · right
      by_cases hnil : l.isNil = true
      · rw [if_pos hnil]
        exact ihr h.2.2.2.2 hPr hk
      · rw [if_neg hnil]
        obtain ⟨k₁, hk₁⟩ := exists_has (Bool.not_eq_true _ ▸ hnil)
        obtain ⟨k', hk', -⟩ := ihl h.2.2.2.1 hPl hk₁
        have hl := has_of_mem_leftPath hk'
        exact ⟨k', hk', (h.lt hradix hl hk (hPl k' hl) (hPr k hk)).le⟩

theorem has_of_mem_pathTo (h : k ∈ t.pathTo bit q d) : t.Has k := by
  induction t generalizing d with
  | nil => cases h
  | node k' xs l r ihl ihr =>
    rw [pathTo, List.mem_cons] at h
    rcases h with rfl | h
    · exact Or.inl rfl
    · split_ifs at h
      · exact Or.inr (Or.inr (ihr h))
      · exact Or.inr (Or.inl (ihl h))

theorem rightOf_eq : t.rightOf bit q d rest =
    if (t.rightOf bit q d nil).isNil then rest else t.rightOf bit q d nil := by
  induction t generalizing d rest with
  | nil => rfl
  | node k xs l r ihl ihr =>
    rw [rightOf, rightOf]
    by_cases hbit : bit q d = true
    · rw [if_pos hbit, if_pos hbit]
      exact ihr
    rw [if_neg hbit, if_neg hbit]
    by_cases hr : r.isNil = true
    · rw [if_pos hr, if_pos hr]
      exact ihl
    · have hne : ¬ (l.rightOf bit q (d + 1) r).isNil = true := by
        rw [ihl]
        split_ifs with hl
        · exact hr
        · exact hl
      rw [if_neg hr, if_neg hr, if_neg hne]

theorem has_rightOf (h : (t.rightOf bit q d nil).Has k) : t.Has k := by
  induction t generalizing d with
  | nil => exact h
  | node k₀ xs l r ihl ihr =>
    rw [rightOf] at h
    split_ifs at h with hbit hnil
    · exact Or.inr (Or.inr (ihr h))
    · exact Or.inr (Or.inl (ihl h))
    · rw [rightOf_eq] at h
      split_ifs at h
      · exact Or.inr (Or.inr h)
      · exact Or.inr (Or.inl (ihl h))

theorem Valid.ring_rightOf [DecidableEq κ] (h : t.Valid bit d)
    (hk : (t.rightOf bit q d nil).Has k) : (t.rightOf bit q d nil).ring k = t.ring k := by
  induction t generalizing d with
  | nil => exact hk.elim
  | node k₀ xs l r ihl ihr =>
    rw [Trie.rightOf] at hk ⊢
    split_ifs at hk ⊢ with hbit hnil
    · rw [h.ring_right (has_rightOf hk)]
      exact ihr h.2.2.2.2 hk
    · rw [h.ring_left (has_rightOf hk)]
      exact ihl h.2.2.2.1 hk
    · rw [rightOf_eq] at hk ⊢
      split_ifs at hk ⊢
      · rw [h.ring_right hk]
      · rw [h.ring_left (has_rightOf hk)]
        exact ihl h.2.2.2.1 hk

/-- The subtree to the right of the path holds keys that are greater than `q`. -/
theorem Valid.rightOf (h : t.Valid bit d) (hradix : Radix bit val P) (hq : P q)
    (hP : ∀ k, t.Has k → P k ∧ Agree bit d q k) :
    (∃ e, (t.rightOf bit q d nil).Valid bit e) ∧
      ∀ k, (t.rightOf bit q d nil).Has k → t.Has k ∧ val q < val k := by
  induction t generalizing d with
  | nil => exact ⟨⟨0, trivial⟩, fun _ hk => hk.elim⟩
  | node k₀ xs l r ihl ihr =>
    obtain ⟨-, hzero, hone, hvl, hvr⟩ := h
    rw [Trie.rightOf]
    split_ifs with hbit hnil
    · obtain ⟨hvalid, hkeys⟩ := ihr hvr fun k hk => ⟨(hP k (Or.inr (Or.inr hk))).1,
        (hP k (Or.inr (Or.inr hk))).2.succ (hbit.trans (hone k hk).2.2.symm)⟩
      exact ⟨hvalid, fun k hk => ⟨Or.inr (Or.inr (hkeys k hk).1), (hkeys k hk).2⟩⟩
    · obtain ⟨hvalid, hkeys⟩ := ihl hvl fun k hk => ⟨(hP k (Or.inr (Or.inl hk))).1,
        (hP k (Or.inr (Or.inl hk))).2.succ ((Bool.not_eq_true _ ▸ hbit).trans (hzero k hk).2.2.symm)⟩
      exact ⟨hvalid, fun k hk => ⟨Or.inr (Or.inl (hkeys k hk).1), (hkeys k hk).2⟩⟩
    · obtain ⟨hvalid, hkeys⟩ := ihl hvl fun k hk => ⟨(hP k (Or.inr (Or.inl hk))).1,
        (hP k (Or.inr (Or.inl hk))).2.succ ((Bool.not_eq_true _ ▸ hbit).trans (hzero k hk).2.2.symm)⟩
      rw [rightOf_eq]
      split_ifs
      · refine ⟨⟨d + 1, hvr⟩, fun k hk => ⟨Or.inr (Or.inr hk), ?_⟩⟩
        obtain ⟨hPk, hagree⟩ := hP k (Or.inr (Or.inr hk))
        exact hradix.lt hq hPk hagree (Bool.not_eq_true _ ▸ hbit) (hone k hk).2.2
      · exact ⟨hvalid, fun k hk => ⟨Or.inr (Or.inl (hkeys k hk).1), (hkeys k hk).2⟩⟩

/-- The least key from `q` on is on the path of `q` or in the subtree to its right. -/
theorem Valid.least_from (h : t.Valid bit d) (hradix : Radix bit val P) (hq : P q)
    (hP : ∀ k, t.Has k → P k ∧ Agree bit d q k) (hk : t.Has k) (hle : val q ≤ val k) :
    (∃ k' ∈ t.pathTo bit q d, val q ≤ val k' ∧ val k' ≤ val k) ∨
      ∃ k', (t.rightOf bit q d nil).Has k' ∧ val k' ≤ val k := by
  induction t generalizing d k with
  | nil => exact hk.elim
  | node k₀ xs l r ihl ihr =>
    have hvalid := h
    obtain ⟨-, hzero, hone, hvl, hvr⟩ := h
    simp only [pathTo, List.mem_cons, exists_eq_or_imp]
    rcases hk with rfl | hk | hk
    · exact Or.inl (Or.inl ⟨hle, le_refl _⟩)
    · obtain ⟨hPk, hagree⟩ := hP k (Or.inr (Or.inl hk))
      have hbit : ¬ bit q d = true := fun hbit => by
        have := hradix.lt hPk hq hagree.symm (hzero k hk).2.2 hbit
        omega
      rw [if_neg hbit, Trie.rightOf, if_neg hbit]
      have hPl : ∀ k, l.Has k → P k ∧ Agree bit (d + 1) q k := fun k hk =>
        ⟨(hP k (Or.inr (Or.inl hk))).1, (hP k (Or.inr (Or.inl hk))).2.succ
          ((Bool.not_eq_true _ ▸ hbit).trans (hzero k hk).2.2.symm)⟩
      rcases ihl hvl hPl hk hle with hpath | ⟨k', hk', hle'⟩
      · exact Or.inl (Or.inr hpath)
      · refine Or.inr ⟨k', ?_, hle'⟩
        have hne : ¬ (l.rightOf bit q (d + 1) nil).isNil = true := by
          rw [isNil_iff]
          intro hnil
          rw [hnil] at hk'
          exact hk'
        rw [rightOf_eq, if_neg hne]
        exact hk'
    · obtain ⟨hPk, hagree⟩ := hP k (Or.inr (Or.inr hk))
      by_cases hbit : bit q d = true
      · rw [if_pos hbit, Trie.rightOf, if_pos hbit]
        have hPr : ∀ k, r.Has k → P k ∧ Agree bit (d + 1) q k := fun k hk =>
          ⟨(hP k (Or.inr (Or.inr hk))).1, (hP k (Or.inr (Or.inr hk))).2.succ
            (hbit.trans (hone k hk).2.2.symm)⟩
        exact (ihr hvr hPr hk hle).imp_left Or.inr
      · right
        have hnil : ¬ r.isNil = true := by
          rw [isNil_iff]
          rintro rfl
          exact hk
        have hPl : ∀ k, l.Has k → P k ∧ Agree bit (d + 1) q k := fun k hk =>
          ⟨(hP k (Or.inr (Or.inl hk))).1, (hP k (Or.inr (Or.inl hk))).2.succ
            ((Bool.not_eq_true _ ▸ hbit).trans (hzero k hk).2.2.symm)⟩
        rw [Trie.rightOf, if_neg hbit, if_neg hnil, rightOf_eq]
        split_ifs with hleft
        · exact ⟨k, hk, le_refl _⟩
        · obtain ⟨k', hk'⟩ := exists_has (Bool.not_eq_true _ ▸ hleft)
          have hl := ((hvl.rightOf hradix hq hPl).2 k' hk').1
          exact ⟨k', hk', (hvalid.lt hradix hl hk (hPl k' hl).1 hPk).le⟩

end Trie

end WasmCxxShim.BitwiseTries
