import WasmCxxShim.IeeeBits

/-!
# Equality within four units in the last place

`float_eq_4ulp` and `double_eq_4ulp` are one comparison at two formats. On numbers of one sign
it is the distance of the ordinals. On numbers of different signs it is false unless both are
zero, also next to zero, where the distance is small.
-/
namespace WasmCxxShim.Harness
open IeeeBits

/-- The result of a comparison, and whether a signed subtraction in it overflowed. -/
structure Comparison where
  equal : Bool
  overflowed : Bool
  deriving DecidableEq, Repr

variable {e f : ℕ}

def eq4ulp (a b : Bits e f) : Comparison :=
  if equal a b then ⟨true, false⟩
  else if !equal a a || !equal b b then ⟨false, false⟩
  else if a.slt 0 != b.slt 0 then ⟨false, false⟩
  else if b.slt a then ⟨(a - b).sle 4, a.ssubOverflow b⟩
  else ⟨(b - a).sle 4, b.ssubOverflow a⟩

def floatEq4ulp (a b : Bits 8 23) : Comparison := eq4ulp a b

def doubleEq4ulp (a b : Bits 11 52) : Comparison := eq4ulp a b

/-- What a comparison of two patterns owes: true exactly for numbers at most four apart, the same
the other way round, no overflow. -/
structure FourUlp (compare : Bits e f → Bits e f → Comparison) (a b : Bits e f) : Prop where
  verdict : (compare a b).equal = true ↔
    ¬ IsNaN a ∧ ¬ IsNaN b ∧ (ordinal a - ordinal b).natAbs ≤ 4
  symmetric : (compare a b).equal = (compare b a).equal
  noOverflow : (compare a b).overflowed = false

/-- Patterns on opposite sides of zero, not both zero, whose magnitudes add up to at most 4. -/
def Straddles (a b : Bits e f) : Prop :=
  a.msb ≠ b.msb ∧ 1 ≤ magnitude a + magnitude b ∧ magnitude a + magnitude b ≤ 4

theorem toInt_four (h4 : 4 < 2 ^ (e + f)) : (4 : Bits e f).toInt = 4 := by
  have hpow : 2 ^ (e + f + 1) = 2 ^ (e + f) * 2 := pow_succ 2 (e + f)
  have hlt : 4 < 2 ^ (e + f + 1) := by omega
  have hnat : (4 : Bits e f).toNat = 4 := Nat.mod_eq_of_lt hlt
  rw [BitVec.toInt_eq_toNat_of_lt (by omega), hnat]
  rfl

/-- On patterns of one sign the raw difference does not overflow and is the distance of the
ordinals. -/
theorem toInt_sub_of_msb_eq {a b : Bits e f} (h : a.msb = b.msb) (hle : b.toInt ≤ a.toInt) :
    a.ssubOverflow b = false ∧ (a - b).toInt = (ordinal a - ordinal b).natAbs := by
  have ha : (magnitude a : ℤ) < 2 ^ (e + f) := by exact_mod_cast magnitude_lt a
  have hb : (magnitude b : ℤ) < 2 ^ (e + f) := by exact_mod_cast magnitude_lt b
  have hta := toInt_eq a
  have htb := toInt_eq b
  have hno : a.ssubOverflow b = false := by
    simp only [BitVec.ssubOverflow, Nat.add_sub_cancel, Bool.or_eq_false_iff,
      decide_eq_false_iff_not]
    rw [h] at hta
    split_ifs at hta htb <;> omega
  refine ⟨hno, ?_⟩
  rw [BitVec.toInt_sub_of_not_ssubOverflow (by simp [hno]), ordinal, ordinal, h]
  rw [h] at hta
  cases hsign : b.msb <;> simp only [hsign, Bool.false_eq_true, ↓reduceIte] at hta htb ⊢ <;> omega

theorem sle_four_iff (h4 : 4 < 2 ^ (e + f)) {a b : Bits e f} (h : a.msb = b.msb)
    (hle : b.toInt ≤ a.toInt) :
    (a - b).sle 4 = true ↔ (ordinal a - ordinal b).natAbs ≤ 4 := by
  rw [BitVec.sle, decide_eq_true_eq, toInt_four h4, (toInt_sub_of_msb_eq h hle).2]
  omega

/-- The comparison: equal ordinals, or one sign and ordinals at most four apart. -/
theorem eq4ulp_spec (h4 : 4 < 2 ^ (e + f)) (a b : Bits e f) :
    ((eq4ulp a b).equal = true ↔ ¬ IsNaN a ∧ ¬ IsNaN b ∧
      (ordinal a = ordinal b ∨ a.msb = b.msb ∧ (ordinal a - ordinal b).natAbs ≤ 4)) ∧
    (eq4ulp a b).overflowed = false := by
  have hnan : (!equal a a || !equal b b) = true ↔ IsNaN a ∨ IsNaN b := by
    simp [← Bool.not_eq_true]
  have hslt (x : Bits e f) : x.slt 0 = x.msb := BitVec.slt_zero_eq_msb
  unfold eq4ulp
  rw [hslt, hslt]
  by_cases heq : equal a b
  · have := equal_iff.mp heq
    simp [heq, this]
  rw [if_neg heq]
  by_cases hnum : IsNaN a ∨ IsNaN b
  · rw [if_pos (hnan.mpr hnum)]
    refine ⟨iff_of_false (by simp) ?_, rfl⟩
    rintro ⟨ha, hb, -⟩
    exact hnum.elim ha hb
  rw [if_neg (mt hnan.mp hnum)]
  push Not at hnum
  have hord : ordinal a ≠ ordinal b := fun h => heq (equal_iff.mpr ⟨hnum.1, hnum.2, h⟩)
  by_cases hsign : a.msb = b.msb
  · simp only [hsign, bne_self_eq_false, Bool.false_eq_true, ↓reduceIte]
    by_cases hlt : b.slt a
    · rw [if_pos hlt]
      have hle : b.toInt ≤ a.toInt := le_of_lt (by simpa [BitVec.slt] using hlt)
      refine ⟨?_, (toInt_sub_of_msb_eq hsign hle).1⟩
      simp only [sle_four_iff h4 hsign hle, hnum, hord, not_false_eq_true, true_and, false_or]
    · rw [if_neg hlt]
      have hle : a.toInt ≤ b.toInt := by simpa [BitVec.slt] using hlt
      refine ⟨?_, (toInt_sub_of_msb_eq hsign.symm hle).1⟩
      simp only [sle_four_iff h4 hsign.symm hle, hnum, hord, not_false_eq_true, true_and, false_or]
      omega
  · rw [if_pos (by simpa using hsign)]
    refine ⟨iff_of_false (by simp) ?_, rfl⟩
    rintro ⟨-, -, h | ⟨h, -⟩⟩
    · exact hord h
    · exact hsign h

theorem ordinal_sub_of_msb_ne {a b : Bits e f} (h : a.msb ≠ b.msb) :
    (ordinal a - ordinal b).natAbs = magnitude a + magnitude b := by
  unfold ordinal
  cases ha : a.msb <;> cases hb : b.msb <;> simp [ha, hb] at h ⊢ <;> omega

theorem eq4ulp_symm (h4 : 4 < 2 ^ (e + f)) {a b : Bits e f} (h : (eq4ulp a b).equal = true) :
    (eq4ulp b a).equal = true := by
  obtain ⟨ha, hb, hnear⟩ := (eq4ulp_spec h4 a b).1.mp h
  refine (eq4ulp_spec h4 b a).1.mpr ⟨hb, ha, ?_⟩
  rcases hnear with hord | ⟨hsign, hle⟩
  · exact Or.inl hord.symm
  · exact Or.inr ⟨hsign.symm, by omega⟩

/-- Patterns as close to zero as those that straddle it are numbers. -/
theorem Straddles.not_isNaN (h4 : 4 ≤ 2 ^ f * (2 ^ e - 1)) {a b : Bits e f}
    (h : Straddles a b) : ¬ IsNaN a ∧ ¬ IsNaN b := by
  obtain ⟨-, -, hle⟩ := h
  constructor
  · intro ha
    have := ha.magnitude_gt
    omega
  · intro hb
    have := hb.magnitude_gt
    omega

/-- Away from zero the signs decide nothing that the distance does not. -/
theorem near_iff_of_not_straddles {a b : Bits e f} (h : ¬ Straddles a b) :
    (ordinal a = ordinal b ∨ a.msb = b.msb ∧ (ordinal a - ordinal b).natAbs ≤ 4) ↔
      (ordinal a - ordinal b).natAbs ≤ 4 := by
  constructor
  · rintro (hord | ⟨-, hle⟩)
    · omega
    · exact hle
  · intro hle
    by_cases hsign : a.msb = b.msb
    · exact Or.inr ⟨hsign, hle⟩
    · have hdist := ordinal_sub_of_msb_ne hsign
      have hzero : magnitude a + magnitude b = 0 := by
        by_contra hne
        exact h ⟨hsign, by omega, by omega⟩
      exact Or.inl (by omega)

/-- The comparison owes and gives the same on every pair except across zero. -/
theorem eq4ulp_fourUlp_iff (h4 : 4 ≤ 2 ^ f * (2 ^ e - 1)) (a b : Bits e f) :
    FourUlp eq4ulp a b ↔ ¬ Straddles a b := by
  have hpow : 4 < 2 ^ (e + f) := by
    have hlt : 2 ^ f * (2 ^ e - 1) < 2 ^ f * 2 ^ e :=
      Nat.mul_lt_mul_of_pos_left (Nat.sub_lt (Nat.two_pow_pos e) Nat.one_pos) (Nat.two_pow_pos f)
    rw [pow_add, mul_comm]
    omega
  obtain ⟨hverdict, hover⟩ := eq4ulp_spec hpow a b
  constructor
  · intro h hstraddles
    obtain ⟨ha, hb⟩ := hstraddles.not_isNaN h4
    obtain ⟨hsign, hpos, hle⟩ := hstraddles
    have hdist := ordinal_sub_of_msb_ne hsign
    obtain ⟨-, -, hord | ⟨heq, -⟩⟩ := hverdict.mp (h.verdict.mpr ⟨ha, hb, by omega⟩)
    · omega
    · exact hsign heq
  · intro h
    refine ⟨?_, Bool.eq_iff_iff.mpr ⟨eq4ulp_symm hpow, eq4ulp_symm hpow⟩, hover⟩
    rw [hverdict, near_iff_of_not_straddles h]

/-- Both comparisons agree with the distance of the ordinals on exactly the pairs that do not
lie across zero. -/
theorem fourUlp_iff (a b : Bits 8 23) (c d : Bits 11 52) :
    (FourUlp floatEq4ulp a b ↔ ¬ Straddles a b) ∧ (FourUlp doubleEq4ulp c d ↔ ¬ Straddles c d) :=
  ⟨eq4ulp_fourUlp_iff (by norm_num) a b, eq4ulp_fourUlp_iff (by norm_num) c d⟩

/-- The two least subnormals are two apart and compare unequal. -/
theorem not_fourUlp_leastSubnormals :
    ¬ FourUlp floatEq4ulp 0x00000001#32 0x80000001#32 ∧
      ¬ FourUlp doubleEq4ulp 0x0000000000000001#64 0x8000000000000001#64 := by
  constructor
  · intro h
    have := h.verdict
    revert this
    decide +kernel
  · intro h
    have := h.verdict
    revert this
    decide +kernel

end WasmCxxShim.Harness
