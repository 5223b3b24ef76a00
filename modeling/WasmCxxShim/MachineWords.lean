import Mathlib

/-!
# 32-bit machine words

`Word` is the unsigned 32-bit word of a 32-bit target: arithmetic wraps, `<` and `≤` are
unsigned, and `toInt` is the two's complement reading. The lemmas read the usual mask idioms
for powers of two as natural number division.
-/
namespace WasmCxxShim.MachineWords

abbrev Word := BitVec 32

theorem word_le {a b : Word} : a ≤ b ↔ a.toNat ≤ b.toNat := Iff.rfl

theorem word_lt {a b : Word} : a < b ↔ a.toNat < b.toNat := Iff.rfl

theorem word_ne_zero {a : Word} : a ≠ 0 ↔ 0 < a.toNat := by
  bv_omega

theorem toNat_ofNat_of_lt {n : ℕ} (h : n < 2 ^ 32) : (BitVec.ofNat 32 n).toNat = n := by
  rw [BitVec.toNat_ofNat, Nat.mod_eq_of_lt h]

theorem toInt_of_lt {w : Word} (h : w.toNat < 2 ^ 31) : w.toInt = w.toNat :=
  BitVec.toInt_eq_toNat_of_lt (by omega)

theorem toInt_ofNat_of_lt {n : ℕ} (h : n < 2 ^ 31) : (BitVec.ofNat 32 n).toInt = n := by
  have hn : (BitVec.ofNat 32 n).toNat = n := toNat_ofNat_of_lt (by omega)
  rw [toInt_of_lt (by omega), hn]

/-- Masking with `m - 1` keeps the remainder by the power of two `m`. -/
theorem toNat_and_mask {k : ℕ} (hk : k < 32) (x : Word) :
    (x &&& (BitVec.ofNat 32 (2 ^ k) - 1)).toNat = x.toNat % 2 ^ k := by
  have hlt : 2 ^ k < 2 ^ 32 := Nat.pow_lt_pow_right (by omega) hk
  have hpos : 0 < 2 ^ k := Nat.two_pow_pos k
  have hmask : (BitVec.ofNat 32 (2 ^ k) - 1).toNat = 2 ^ k - 1 := by
    have hpow : (BitVec.ofNat 32 (2 ^ k)).toNat = 2 ^ k := toNat_ofNat_of_lt hlt
    bv_omega
  rw [BitVec.toNat_and, hmask, Nat.and_two_pow_sub_one_eq_mod]

/-- A word is its masked part plus the part kept by the complemented mask. -/
theorem and_not_add_and (x m : Word) : (x &&& ~~~m).toNat + (x &&& m).toNat = x.toNat := by
  have hdisjoint : (x &&& ~~~m) &&& (x &&& m) = 0#32 := by
    ext i hi
    simp only [BitVec.getElem_and, BitVec.getElem_not, BitVec.getElem_zero]
    cases m[i] <;> simp
  have hor : (x &&& ~~~m) + (x &&& m) = x := by
    rw [BitVec.add_eq_or_of_and_eq_zero _ _ hdisjoint]
    ext i hi
    simp only [BitVec.getElem_or, BitVec.getElem_and, BitVec.getElem_not]
    cases m[i] <;> simp
  rw [← BitVec.toNat_add_of_and_eq_zero hdisjoint, hor]

/-- Clearing the low bits rounds down to a multiple of the power of two. -/
theorem toNat_and_not_mask {k : ℕ} (hk : k < 32) (x : Word) :
    (x &&& ~~~(BitVec.ofNat 32 (2 ^ k) - 1)).toNat = x.toNat / 2 ^ k * 2 ^ k := by
  have hsplit := and_not_add_and x (BitVec.ofNat 32 (2 ^ k) - 1)
  rw [toNat_and_mask hk] at hsplit
  have hdiv := Nat.div_add_mod' x.toNat (2 ^ k)
  omega

/-- Clearing the low bits with a negated power of two. -/
theorem toNat_and_neg {k : ℕ} (hk : k < 32) (x : Word) :
    (x &&& -BitVec.ofNat 32 (2 ^ k)).toNat = x.toNat / 2 ^ k * 2 ^ k := by
  rw [← toNat_and_not_mask hk x, BitVec.not_eq_neg_add]
  congr 2
  bv_omega

/-- Adding `m - 1` and clearing the low bits rounds up to a multiple of the power of two `m`. -/
theorem roundUp_spec {k : ℕ} (hk : k < 32) {x : Word} (hroom : x.toNat + 2 ^ k < 2 ^ 32) :
    let m := ((x + BitVec.ofNat 32 (2 ^ k) - 1) &&& -BitVec.ofNat 32 (2 ^ k)).toNat
    x.toNat ≤ m ∧ m < x.toNat + 2 ^ k ∧ 2 ^ k ∣ m := by
  have hpos := Nat.two_pow_pos k
  have hpow : (BitVec.ofNat 32 (2 ^ k)).toNat = 2 ^ k :=
    toNat_ofNat_of_lt (Nat.pow_lt_pow_right (by omega) hk)
  have hsum : (x + BitVec.ofNat 32 (2 ^ k) - 1).toNat = x.toNat + 2 ^ k - 1 := by
    rw [BitVec.toNat_sub_of_le (by bv_omega), BitVec.toNat_add_of_lt (by omega), hpow]
    rfl
  dsimp only
  rw [toNat_and_neg hk, hsum]
  have hsplit := Nat.div_add_mod' (x.toNat + 2 ^ k - 1) (2 ^ k)
  have hmod := Nat.mod_lt (x.toNat + 2 ^ k - 1) hpos
  refine ⟨by omega, by omega, ?_⟩
  exact Nat.dvd_mul_left _ _

end WasmCxxShim.MachineWords
