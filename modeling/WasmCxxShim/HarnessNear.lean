import WasmCxxShim.HarnessMacros
import WasmCxxShim.MachineWords

/-!
# `EXPECT_NEAR` on integers

The macro is two comparisons in the arithmetic of its operand types. Signed operands and reals
give the distance. The difference of unsigned operands wraps, and so does the negated unsigned
`eps`, which then is the upper end of an interval and not its lower end.
-/
namespace WasmCxxShim.Harness
open CallByName MachineWords

variable {R : Type*} [Field R] [LinearOrder R]

/-- A value of type `int`, `unsigned int` or of a real type. The reals are an ordered field. -/
inductive CValue (R : Type*)
  | int (v : Word)
  | uint (v : Word)
  | real (x : R)

/-- The number that a value stands for. -/
def CValue.toReal : CValue R → R
  | int v => v.toInt
  | uint v => v.toNat
  | real x => x

/-- The operands of a binary operator after the usual arithmetic conversions. -/
inductive Converted (R : Type*)
  | int (x y : Word)
  | uint (x y : Word)
  | real (x y : R)

def convert : CValue R → CValue R → Converted R
  | .int x, .int y => .int x y
  | .int x, .uint y | .uint x, .int y | .uint x, .uint y => .uint x y
  | .real x, y => .real x y.toReal
  | x, .real y => .real x.toReal y

def CValue.sub (x y : CValue R) : CValue R :=
  match convert x y with
  | .int x y => .int (x - y)
  | .uint x y => .uint (x - y)
  | .real x y => .real (x - y)

def CValue.neg : CValue R → CValue R
  | int v => .int (-v)
  | uint v => .uint (-v)
  | real x => .real (-x)

def CValue.less (x y : CValue R) : Bool :=
  match convert x y with
  | .int x y => x.slt y
  | .uint x y => x.ult y
  | .real x y => decide (x < y)

def CValue.equal (x y : CValue R) : Bool :=
  match convert x y with
  | .int x y | .uint x y => decide (x = y)
  | .real x y => decide (x = y)

def CValue.isTrue : CValue R → Bool
  | int v | uint v => decide (v ≠ 0)
  | real x => decide (x ≠ 0)

/-- The operators on C values. The comparisons that convert to a floating-point format, and so
round, are a parameter. -/
def cInterp (fourUlp : Relation → CValue R → CValue R → Bool) :
    Interp Operator Relation (CValue R) where
  unary _ x := x.neg
  binary _ x y := x.sub y
  truth x := x.isTrue
  compare r x y :=
    match r with
    | .eq => x.equal y
    | .ne => !x.equal y
    | .lt => x.less y
    | .le => x.less y || x.equal y
    | .gt => y.less x
    | .ge => y.less x || x.equal y
    | .floatEq4ulp | .doubleEq4ulp => fourUlp r x y

variable (fourUlp : Relation → CValue R → CValue R → Bool)

/-- The verdict of `EXPECT_NEAR(a, b, eps)` and `ASSERT_NEAR(a, b, eps)` on three values. -/
def checkNear (a b eps : CValue R) : Bool :=
  let operands : Operands Param Unit (CValue R) := fun p s =>
    match p with
    | .a => (a, s)
    | .b => (b, s)
    | .eps => (eps, s)
  (Macro.near.expansion.eval (cInterp fourUlp) operands ()).holds

/-- The check passes exactly for distances below `eps`, in either order of the operands. -/
structure MeasuresDistance (a b eps : CValue R) : Prop where
  verdict : checkNear fourUlp a b eps = true ↔ |a.toReal - b.toReal| < eps.toReal
  symmetric : checkNear fourUlp a b eps = checkNear fourUlp b a eps

/-- The 32-bit integer types. -/
inductive IntType
  | int
  | uint

def IntType.value : IntType → Word → CValue R
  | int, v => .int v
  | uint, v => .uint v

def IntType.number : IntType → Word → ℤ
  | int, v => v.toInt
  | uint, v => v.toNat

def IntType.distance (t : IntType) (x y : Word) : ℤ := |t.number x - t.number y|

/-- `eps` is given as a real number or as an integer of the type of the operands. -/
inductive Tolerance (R : Type*)
  | real (x : R)
  | integer (v : Word)

def Tolerance.value (t : IntType) : Tolerance R → CValue R
  | real x => .real x
  | integer v => t.value v

/-- For unsigned operands and a real `eps` the distance and its complement are on the same side of
`eps`; for an unsigned `eps` the distance is not below it, or the two together exceed 2^32. -/
def WrapAgrees : IntType → Word → Word → Tolerance R → Prop
  | .int, _, _, _ => True
  | .uint, x, y, .real eps =>
    x = y ∨ ((IntType.uint.distance x y : R) < eps ↔ (2 ^ 32 - IntType.uint.distance x y : R) < eps)
  | .uint, x, y, .integer eps =>
    eps.toNat ≤ IntType.uint.distance x y ∨ 2 ^ 32 < IntType.uint.distance x y + eps.toNat

theorem checkNear_eq (a b eps : CValue R) :
    checkNear fourUlp a b eps = (eps.neg.less (a.sub b) && (a.sub b).less eps) := by
  rw [checkNear, near_eval]
  cases h : eps.neg.less (a.sub b) <;> simp [nearRun, cInterp, h]

theorem checkNear_int_int (x y eps : Word) :
    checkNear fourUlp (.int x : CValue R) (.int y) (.int eps) = true ↔
      (-eps).toInt < (x - y).toInt ∧ (x - y).toInt < eps.toInt := by
  simp [checkNear_eq, CValue.sub, CValue.neg, CValue.less, convert, BitVec.slt]

theorem checkNear_int_real (x y : Word) (eps : R) :
    checkNear fourUlp (.int x) (.int y) (.real eps) = true ↔
      -eps < ((x - y).toInt : R) ∧ ((x - y).toInt : R) < eps := by
  simp [checkNear_eq, CValue.sub, CValue.neg, CValue.less, convert, CValue.toReal]

theorem checkNear_uint_uint (x y eps : Word) :
    checkNear fourUlp (.uint x : CValue R) (.uint y) (.uint eps) = true ↔
      (-eps).toNat < (x - y).toNat ∧ (x - y).toNat < eps.toNat := by
  simp [checkNear_eq, CValue.sub, CValue.neg, CValue.less, convert, BitVec.ult]

theorem checkNear_uint_real (x y : Word) (eps : R) :
    checkNear fourUlp (.uint x) (.uint y) (.real eps) = true ↔
      -eps < ((x - y).toNat : R) ∧ ((x - y).toNat : R) < eps := by
  simp [checkNear_eq, CValue.sub, CValue.neg, CValue.less, convert, CValue.toReal]

/-- The check reads its integer operands only through their wrapped difference. -/
theorem checkNear_congr (t : IntType) {x y x' y' : Word} (h : x - y = x' - y') (eps : CValue R) :
    checkNear fourUlp (t.value x) (t.value y) eps =
      checkNear fourUlp (t.value x') (t.value y') eps := by
  cases t <;> simp [checkNear_eq, IntType.value, CValue.sub, convert, h]

variable [IsStrictOrderedRing R]

theorem abs_toReal_sub (t : IntType) (x y : Word) :
    |((t.value x).toReal : R) - (t.value y).toReal| = (t.distance x y : R) := by
  cases t <;> simp [IntType.value, CValue.toReal, IntType.distance, IntType.number]

/-- Signed operands whose difference does not overflow are compared by their distance. -/
theorem checkNear_signed {x y : Word} (hlo : -2 ^ 31 ≤ x.toInt - y.toInt)
    (hhi : x.toInt - y.toInt < 2 ^ 31) (eps : Tolerance R) (hpos : 0 < (eps.value .int).toReal) :
    checkNear fourUlp (.int x) (.int y) (eps.value .int) = true ↔
      (IntType.int.distance x y : R) < (eps.value .int).toReal := by
  have hsub : (x - y).toInt = x.toInt - y.toInt := by
    apply BitVec.toInt_sub_of_not_ssubOverflow
    simp only [BitVec.ssubOverflow, Bool.or_eq_true, decide_eq_true_eq]
    omega
  cases eps with
  | real e =>
    change checkNear fourUlp (.int x) (.int y) (.real e) = true ↔ _ < e
    rw [checkNear_int_real, hsub, ← abs_lt, ← Int.cast_abs]
    rfl
  | integer e =>
    have hpos' : (0 : R) < (e.toInt : ℤ) := hpos
    have he : 0 < e.toInt := by exact_mod_cast hpos'
    have hneg : (-e).toInt = -e.toInt := by
      apply BitVec.toInt_neg_of_ne_intMin
      rintro rfl
      revert he
      decide
    change checkNear fourUlp (.int x) (.int y) (.int e) = true ↔ _ < ((e.toInt : ℤ) : R)
    rw [checkNear_int_int, hneg, hsub, ← abs_lt, Int.cast_lt]
    rfl

theorem signed_measuresDistance {x y : Word} (hlo : -2 ^ 31 ≤ x.toInt - y.toInt)
    (hhi : x.toInt - y.toInt < 2 ^ 31) (eps : Tolerance R) (hpos : 0 < (eps.value .int).toReal) :
    MeasuresDistance fourUlp (.int x) (.int y) (eps.value .int) := by
  have hverdict := checkNear_signed fourUlp hlo hhi eps hpos
  refine ⟨?_, ?_⟩
  · rw [hverdict]
    exact iff_of_eq (congrArg (· < _) (abs_toReal_sub .int x y).symm)
  · by_cases hmin : x.toInt - y.toInt = -2 ^ 31
    · -- the other difference wraps to the same word
      apply checkNear_congr fourUlp .int
      apply BitVec.eq_of_toInt_eq
      rw [BitVec.toInt_sub, BitVec.toInt_sub, hmin, show y.toInt - x.toInt = 2 ^ 31 by omega]
      decide
    · rw [Bool.eq_iff_iff, hverdict,
        checkNear_signed fourUlp (by omega) (by omega) eps hpos]
      simp only [IntType.distance, abs_sub_comm]

/-- One of the two wrapped differences is the distance, the other its complement. -/
theorem unsigned_sub_cases {x y : Word} (hne : x ≠ y) :
    ∃ d : ℕ, IntType.uint.distance x y = d ∧ 0 < d ∧ d < 2 ^ 32 ∧
      ((x - y).toNat = d ∧ (y - x).toNat = 2 ^ 32 - d ∨
        (x - y).toNat = 2 ^ 32 - d ∧ (y - x).toNat = d) := by
  have hx := x.isLt
  have hy := y.isLt
  simp only [IntType.distance, IntType.number]
  rcases Nat.lt_trichotomy x.toNat y.toNat with h | h | h
  · refine ⟨y.toNat - x.toNat, ?_, by omega, by omega, Or.inr ⟨by bv_omega, by bv_omega⟩⟩
    rw [abs_sub_comm, abs_of_nonneg] <;> omega
  · exact absurd (BitVec.eq_of_toNat_eq h) hne
  · refine ⟨x.toNat - y.toNat, ?_, by omega, by omega, Or.inl ⟨by bv_omega, by bv_omega⟩⟩
    rw [abs_of_nonneg] <;> omega

theorem measuresDistance_iff (t : IntType) (x y : Word) (eps : CValue R) :
    MeasuresDistance fourUlp (t.value x) (t.value y) eps ↔
      (checkNear fourUlp (t.value x) (t.value y) eps = true ↔ (t.distance x y : R) < eps.toReal) ∧
        (checkNear fourUlp (t.value x) (t.value y) eps = true ↔
          checkNear fourUlp (t.value y) (t.value x) eps = true) := by
  rw [← abs_toReal_sub, ← Bool.eq_iff_iff]
  exact ⟨fun h => ⟨h.verdict, h.symmetric⟩, fun h => ⟨h.1, h.2⟩⟩

theorem unsigned_integer_iff (x y eps : Word) (hpos : 0 < eps.toNat) :
    MeasuresDistance fourUlp (.uint x : CValue R) (.uint y) (.uint eps) ↔
      eps.toNat ≤ IntType.uint.distance x y ∨ 2 ^ 32 < IntType.uint.distance x y + eps.toNat := by
  have heps := eps.isLt
  have hneg : (-eps).toNat = 2 ^ 32 - eps.toNat := by bv_omega
  refine (measuresDistance_iff fourUlp .uint x y (.uint eps)).trans ?_
  have hcast : (IntType.uint.distance x y : R) < (CValue.uint eps : CValue R).toReal ↔
      IntType.uint.distance x y < eps.toNat := by
    rw [CValue.toReal]
    exact_mod_cast Iff.rfl
  rw [hcast]
  simp only [IntType.value, checkNear_uint_uint, hneg]
  by_cases hne : x = y
  · subst hne
    simp [IntType.distance]
    omega
  · obtain ⟨d, hd, hdpos, hdlt, ⟨h1, h2⟩ | ⟨h1, h2⟩⟩ := unsigned_sub_cases hne
    · rw [hd, h1, h2]
      omega
    · rw [hd, h1, h2]
      omega

theorem unsigned_real_iff (x y : Word) {eps : R} (hpos : 0 < eps) :
    MeasuresDistance fourUlp (.uint x) (.uint y) (.real eps) ↔
      (x = y ∨ ((IntType.uint.distance x y : R) < eps ↔
        (2 ^ 32 - IntType.uint.distance x y : R) < eps)) := by
  have hlower (w : Word) : -eps < (w.toNat : R) :=
    lt_of_lt_of_le (neg_lt_zero.mpr hpos) (Nat.cast_nonneg _)
  refine (measuresDistance_iff fourUlp .uint x y (.real eps)).trans ?_
  simp only [IntType.value, checkNear_uint_real, hlower, true_and, CValue.toReal]
  by_cases hne : x = y
  · subst hne
    simp [IntType.distance]
  · obtain ⟨d, hd, -, hdlt, hsub⟩ := unsigned_sub_cases hne
    have hcompl : ((2 ^ 32 - d : ℕ) : R) = 2 ^ 32 - d := by
      rw [Nat.cast_sub hdlt.le]
      norm_num
    rw [hd, Int.cast_natCast]
    rcases hsub with ⟨h1, h2⟩ | ⟨h1, h2⟩
    · rw [h1, h2, hcompl]
      simp [hne]
    · rw [h1, h2, hcompl]
      simp only [hne, false_or]
      exact ⟨fun h => h.1.symm, fun h => ⟨h.symm, h.symm⟩⟩

/-- `EXPECT_NEAR` and `ASSERT_NEAR` on integers measure the distance always for signed operands,
and for unsigned operands exactly where the wrapped difference agrees with it. A signed difference
of -2^31 fits, but that of the swapped operands does not: there the swapped check is undefined in C,
and the verdict compared is that of the wrapped difference. -/
theorem checkNear_measuresDistance_iff (t : IntType) (x y : Word) (eps : Tolerance R)
    (hpos : 0 < (eps.value t).toReal)
    (hfits : t = .int → -2 ^ 31 ≤ x.toInt - y.toInt ∧ x.toInt - y.toInt < 2 ^ 31) :
    MeasuresDistance fourUlp (t.value x) (t.value y) (eps.value t) ↔ WrapAgrees t x y eps := by
  cases t with
  | int =>
    obtain ⟨hlo, hhi⟩ := hfits rfl
    exact iff_of_true (signed_measuresDistance fourUlp hlo hhi eps hpos) trivial
  | uint =>
    cases eps with
    | real e => exact unsigned_real_iff fourUlp x y hpos
    | integer e =>
      have hpos' : (0 : R) < (e.toNat : R) := hpos
      exact unsigned_integer_iff fourUlp x y e (by exact_mod_cast hpos')

theorem checkNear_measuresDistance_iff_signed :
    MeasuresDistance (fun _ _ _ => false) (IntType.int.value (-5) : CValue ℝ) (IntType.int.value 4)
        (Tolerance.value .int (.real 9.5)) ↔
      WrapAgrees .int (-5) 4 (.real 9.5 : Tolerance ℝ) :=
  checkNear_measuresDistance_iff _ .int (-5) 4 (.real 9.5)
    (by norm_num [Tolerance.value, CValue.toReal]) (fun _ => by decide)

/-- Equal unsigned operands are not near within an unsigned 1. Within a real 3, the unsigned 3 is
not near 5, though 5 is near 3. -/
theorem checkNear_not_measuresDistance :
    ¬ MeasuresDistance (fun _ _ _ => false) (.uint 5 : CValue ℝ) (.uint 5) (.uint 1) ∧
      ¬ MeasuresDistance (fun _ _ _ => false) (.uint 3 : CValue ℝ) (.uint 5) (.real 3) := by
  constructor
  · rw [unsigned_integer_iff _ _ _ _ (by decide)]
    decide
  · have hdistance : IntType.uint.distance 3 5 = 2 := by decide
    rw [unsigned_real_iff _ _ _ (by norm_num), hdistance]
    exact not_or.mpr ⟨by decide, by norm_num⟩

end WasmCxxShim.Harness
