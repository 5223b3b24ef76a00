import Mathlib

/-!
# Bit maps and scans for the lowest bit

A word is read as the set of the positions of its bits. `x &&& -x` keeps the lowest of them,
`x ||| -x` fills in all positions from the lowest on, and `ctz` finds it.
-/
namespace WasmCxxShim.BitScans

variable {w : ℕ}

/-- `k` is the lowest position of `x`. -/
def IsLowest (x : BitVec w) (k : ℕ) : Prop :=
  x.getLsbD k = true ∧ ∀ j < k, x.getLsbD j = false

theorem getLsbD_and_neg (x : BitVec w) (j : ℕ) : (x &&& -x).getLsbD j = true ↔ IsLowest x j := by
  rw [BitVec.getLsbD_and, BitVec.getLsbD_neg, IsLowest]
  by_cases hj : x.getLsbD j = true
  · have hlt : j < w := BitVec.lt_of_getLsbD hj
    simp only [hj, hlt, Bool.true_and, decide_true, Bool.true_bne, Bool.not_eq_true',
      decide_eq_false_iff_not, not_exists, not_and, Bool.not_eq_true, true_and]
  · simp [hj]

theorem getLsbD_or_neg (x : BitVec w) (j : ℕ) :
    (x ||| -x).getLsbD j = true ↔ j < w ∧ ∃ k ≤ j, x.getLsbD k = true := by
  rw [BitVec.getLsbD_or, BitVec.getLsbD_neg]
  by_cases hlt : j < w
  · by_cases hj : x.getLsbD j = true
    · simp only [hj, Bool.true_or, hlt, true_and, true_iff]
      exact ⟨j, le_refl j, hj⟩
    · simp only [Bool.not_eq_true _ ▸ hj, Bool.false_or, hlt, decide_true, Bool.true_and,
        Bool.false_bne, decide_eq_true_eq, true_and]
      constructor
      · rintro ⟨k, hk, hbit⟩
        exact ⟨k, hk.le, hbit⟩
      · rintro ⟨k, hk, hbit⟩
        refine ⟨k, lt_of_le_of_ne hk ?_, hbit⟩
        rintro rfl
        exact hj hbit
  · have hj : x.getLsbD j = false := BitVec.getLsbD_of_ge x j (by omega)
    simp [hlt, hj]

theorem exists_getLsbD {x : BitVec w} (hx : x ≠ 0) : ∃ k, x.getLsbD k = true := by
  by_contra hno
  apply hx
  apply BitVec.eq_of_getLsbD_eq
  intro i _
  have hi := not_exists.mp hno i
  simpa using hi

theorem exists_isLowest {x : BitVec w} (hx : x ≠ 0) : ∃ k, IsLowest x k := by
  classical
  have h := exists_getLsbD hx
  exact ⟨Nat.find h, Nat.find_spec h, fun j hj => Bool.not_eq_true _ ▸ Nat.find_min h hj⟩

/-- Scanning the lowest bit of a map finds its lowest position. -/
theorem isLowest_ctz {x : BitVec w} (hx : x ≠ 0) : IsLowest x (x &&& -x).ctz.toNat := by
  rw [← getLsbD_and_neg]
  apply BitVec.getLsbD_true_ctz_of_ne_zero
  obtain ⟨k, hk⟩ := exists_isLowest hx
  intro hzero
  have hbit := (getLsbD_and_neg x k).mpr hk
  rw [hzero] at hbit
  simp at hbit

theorem IsLowest.lt {x : BitVec w} {k : ℕ} (h : IsLowest x k) : k < w := BitVec.lt_of_getLsbD h.1

theorem IsLowest.le {x : BitVec w} {j k : ℕ} (h : IsLowest x k) (hj : x.getLsbD j = true) :
    k ≤ j := by
  by_contra hlt
  rw [h.2 j (by omega)] at hj
  cases hj

/-- The map of a list: a position for the index of every entry. -/
theorem getLsbD_foldr_or {α : Type*} (bit : α → BitVec w) (xs : List α) (j : ℕ) :
    (xs.foldr (fun x map => map ||| bit x) 0).getLsbD j = true ↔
      ∃ x ∈ xs, (bit x).getLsbD j = true := by
  induction xs with
  | nil => simp
  | cons x xs ih =>
    rw [List.foldr_cons, BitVec.getLsbD_or, Bool.or_eq_true, ih]
    simp only [List.mem_cons, exists_eq_or_imp]
    exact or_comm

end WasmCxxShim.BitScans
