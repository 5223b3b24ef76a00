import WasmCxxShim.MachineWords

/-!
# The bytes of a word

A word holds four bytes, the lowest at the lowest address. Reading a byte that was just put into a
word gives that byte, and the other bytes stay as they were.
-/
namespace WasmCxxShim.WordBytes
open MachineWords

abbrev Byte := BitVec 8

def byteOf (v : Word) (i : ℕ) : Byte := v.extractLsb' (8 * i) 8

def withByte (i : ℕ) (b : Byte) (v : Word) : Word :=
  (v &&& ~~~((255 : Word) <<< (8 * i))) ||| (b.setWidth 32 <<< (8 * i))

/-- The address of the word that holds the byte at `a`, and the place of the byte in it. -/
def wordAddr (a : Word) : Word := a &&& ~~~3

def lane (a : Word) : ℕ := a.toNat % 4

theorem lane_lt (a : Word) : lane a < 4 := Nat.mod_lt _ (by omega)

theorem toNat_wordAddr (a : Word) : (wordAddr a).toNat = a.toNat / 4 * 4 :=
  toNat_and_not_mask (k := 2) (by omega) a

theorem toNat_wordAddr_add (a : Word) : (wordAddr a).toNat + lane a = a.toNat := by
  rw [toNat_wordAddr, lane]
  omega

/-- An address is its word and its place there. -/
theorem addr_ext {a b : Word} (hword : wordAddr a = wordAddr b) (hlane : lane a = lane b) : a = b := by
  apply BitVec.eq_of_toNat_eq
  rw [← toNat_wordAddr_add a, ← toNat_wordAddr_add b, hword, hlane]

@[simp] theorem getElem_mask255 (i : ℕ) (hi : i < 32) : (255#32)[i] = decide (i < 8) := by
  have h : (255#32) = BitVec.ofNat 32 (2 ^ 8 - 1) := by decide
  rw [← BitVec.getLsbD_eq_getElem, h, BitVec.getLsbD_ofNat, Nat.testBit_two_pow_sub_one]
  simp [hi]

theorem byteOf_withByte (i : ℕ) (hi : i < 4) (b : Byte) (v : Word) :
    byteOf (withByte i b v) i = b := by
  apply BitVec.eq_of_getElem_eq
  intro k hk
  have hlt : 8 * i + k < 32 := by omega
  simp [byteOf, withByte, BitVec.getLsbD_eq_getElem, hlt, hk]

theorem byteOf_withByte_ne {i j : ℕ} (hj : j < 4) (hne : j ≠ i) (b : Byte) (v : Word) :
    byteOf (withByte i b v) j = byteOf v j := by
  apply BitVec.eq_of_getElem_eq
  intro k hk
  have hlt : 8 * j + k < 32 := by omega
  by_cases hlow : 8 * j + k < 8 * i
  · simp [byteOf, withByte, BitVec.getLsbD_eq_getElem, hlt, hlow]
  · have hhigh : ¬ 8 * j + k - 8 * i < 8 := by omega
    have hbyte : b.getLsbD (8 * j + k - 8 * i) = false := BitVec.getLsbD_of_ge _ _ (by omega)
    simp [byteOf, withByte, BitVec.getLsbD_eq_getElem, hlt, hlow, hhigh, hbyte]

end WasmCxxShim.WordBytes
