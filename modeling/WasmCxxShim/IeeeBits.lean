import Mathlib

/-!
# IEEE-754 bit patterns

A pattern is a sign bit, `e` exponent bits and `f` fraction bits. Its value is read as an integer
in units of the least subnormal, an infinity as the step above the greatest finite value. The
ordinal numbers the patterns by sign and magnitude, +0 and -0 alike, in the order of the values.
-/
namespace WasmCxxShim.IeeeBits

abbrev Bits (e f : ℕ) := BitVec (e + f + 1)

variable {e f : ℕ}

/-- The exponent and fraction fields, without the sign. -/
def magnitude (x : Bits e f) : ℕ := x.toNat % 2 ^ (e + f)

def exponent (x : Bits e f) : ℕ := magnitude x / 2 ^ f

def fraction (x : Bits e f) : ℕ := magnitude x % 2 ^ f

def IsNaN (x : Bits e f) : Prop := exponent x = 2 ^ e - 1 ∧ fraction x ≠ 0

instance (x : Bits e f) : Decidable (IsNaN x) := inferInstanceAs (Decidable (_ ∧ _))

/-- The absolute value of a number with the given exponent and fraction fields: subnormal at
exponent 0, with a leading one above it. -/
def absValue (f exponent fraction : ℕ) : ℕ :=
  if exponent = 0 then fraction else (2 ^ f + fraction) * 2 ^ (exponent - 1)

def value (x : Bits e f) : ℤ :=
  if x.msb then -absValue f (exponent x) (fraction x) else absValue f (exponent x) (fraction x)

/-- The place of a number in numeric order. -/
def ordinal (x : Bits e f) : ℤ := if x.msb then -magnitude x else magnitude x

/-- The `==` of floating-point numbers: NaN equals nothing, numbers are compared by value. -/
def equal (x y : Bits e f) : Bool := ¬ IsNaN x ∧ ¬ IsNaN y ∧ value x = value y

/-- The absolute value as a function of the magnitude. -/
def scaled (f m : ℕ) : ℕ := absValue f (m / 2 ^ f) (m % 2 ^ f)

theorem scaled_eq {f r : ℕ} (q : ℕ) (hr : r < 2 ^ f) :
    scaled f (2 ^ f * q + r) = absValue f q r := by
  rw [scaled, Nat.mul_add_div (Nat.two_pow_pos f), Nat.mul_add_mod, Nat.div_eq_of_lt hr,
    Nat.mod_eq_of_lt hr, Nat.add_zero]

/-- The next magnitude has the next fraction, or the next exponent and fraction 0. -/
theorem scaled_strictMono (f : ℕ) : StrictMono (scaled f) := by
  apply strictMono_nat_of_lt_succ
  intro m
  have hr : m % 2 ^ f < 2 ^ f := Nat.mod_lt m (Nat.two_pow_pos f)
  rw [← Nat.div_add_mod m (2 ^ f)]
  generalize m / 2 ^ f = q at *
  generalize m % 2 ^ f = r at *
  rw [scaled_eq q hr]
  rcases Nat.lt_or_eq_of_le (Nat.succ_le_of_lt hr) with hnext | hcarry
  · rw [Nat.add_assoc, scaled_eq q hnext]
    unfold absValue
    split_ifs with hq
    · exact Nat.lt_succ_self r
    · exact Nat.mul_lt_mul_of_pos_right (by omega) (Nat.two_pow_pos _)
  · have hstep : 2 ^ f * q + r + 1 = 2 ^ f * (q + 1) + 0 := by
      rw [Nat.mul_succ]
      omega
    rw [hstep, scaled_eq (q + 1) (Nat.two_pow_pos f)]
    unfold absValue
    rw [if_neg (Nat.succ_ne_zero q)]
    split_ifs with hq
    · subst hq
      simp
      omega
    · obtain ⟨k, rfl⟩ := Nat.exists_eq_succ_of_ne_zero hq
      simp only [Nat.succ_eq_add_one, Nat.add_sub_cancel, Nat.add_zero, pow_succ]
      have := Nat.two_pow_pos k
      nlinarith

theorem value_le_iff (x y : Bits e f) : value x ≤ value y ↔ ordinal x ≤ ordinal y := by
  have hle : scaled f (magnitude x) ≤ scaled f (magnitude y) ↔ magnitude x ≤ magnitude y :=
    (scaled_strictMono f).le_iff_le
  have hge : scaled f (magnitude y) ≤ scaled f (magnitude x) ↔ magnitude y ≤ magnitude x :=
    (scaled_strictMono f).le_iff_le
  have hzero : scaled f 0 = 0 := by simp [scaled, absValue]
  have hx : scaled f (magnitude x) ≤ scaled f 0 ↔ magnitude x ≤ 0 :=
    (scaled_strictMono f).le_iff_le
  have hy : scaled f (magnitude y) ≤ scaled f 0 ↔ magnitude y ≤ 0 :=
    (scaled_strictMono f).le_iff_le
  rw [hzero] at hx hy
  change (if x.msb then -(scaled f (magnitude x) : ℤ) else scaled f (magnitude x)) ≤
    (if y.msb then -(scaled f (magnitude y) : ℤ) else scaled f (magnitude y)) ↔ _
  unfold ordinal
  split_ifs <;> omega

theorem value_eq_iff (x y : Bits e f) : value x = value y ↔ ordinal x = ordinal y := by
  rw [le_antisymm_iff, value_le_iff, value_le_iff, ← le_antisymm_iff]

@[simp] theorem equal_iff {x y : Bits e f} :
    equal x y = true ↔ ¬ IsNaN x ∧ ¬ IsNaN y ∧ ordinal x = ordinal y := by
  simp only [equal, decide_eq_true_eq, value_eq_iff]

theorem magnitude_lt (x : Bits e f) : magnitude x < 2 ^ (e + f) :=
  Nat.mod_lt _ (Nat.two_pow_pos _)

theorem toInt_eq (x : Bits e f) :
    x.toInt = if x.msb then (magnitude x : ℤ) - 2 ^ (e + f) else magnitude x := by
  have hlt := x.isLt
  rw [pow_succ] at hlt
  rw [BitVec.toInt_eq_msb_cond, BitVec.msb_eq_decide, Nat.add_sub_cancel, magnitude]
  simp only [decide_eq_true_eq]
  split_ifs with h
  · rw [Nat.mod_eq_sub_mod h, Nat.mod_eq_of_lt (by omega), Nat.cast_sub h, pow_succ]
    push_cast
    ring
  · rw [Nat.mod_eq_of_lt (by omega)]

/-- The magnitude of a NaN lies above that of infinity. -/
theorem IsNaN.magnitude_gt {x : Bits e f} (h : IsNaN x) : 2 ^ f * (2 ^ e - 1) < magnitude x := by
  have := Nat.div_add_mod (magnitude x) (2 ^ f)
  obtain ⟨hexp, hfrac⟩ := h
  unfold exponent at hexp
  unfold fraction at hfrac
  rw [hexp] at this
  omega

end WasmCxxShim.IeeeBits
