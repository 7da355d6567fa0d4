import Mathlib.Data.Int.Bitwise
import Mathlib.Logic.Function.Basic
import Flos.Mm.Types

/-!
# The frame bitmap

The bitmap routines take an `int` bit number, while every caller holds a 64-bit frame
index, so the model keeps the conversion. The byte array is indexed by an integer: a
converted index can be negative, and the code then addresses bytes before the array.
Below `2 ^ 31` the conversion is the identity and each index owns one bit.
-/

namespace Flos.Mm

/-- `bitmap_t`: the array's size, the physical address behind `map`, and the bytes there. -/
structure Bitmap where
  size : ℕ
  base : ℕ
  map : ℤ → BitVec 8

/-- The conversion of a 64-bit frame index to the parameter type `int`. -/
def toInt (index : ℕ) : ℤ := Int.bmod index (2 ^ 32)

/-- `1 << (bit % 8)` cut to a byte. A negative remainder is a shift count that C leaves undefined. The compiled
shift masks it to its low five bits, 25 to 31, which are out of the byte. -/
def bitMask (bit : ℤ) : BitVec 8 :=
  if 0 ≤ bit.tmod 8 then 1#8 <<< (bit.tmod 8).toNat else 0#8

/-- `bitmap_set_bit`. -/
def bitmapSetBit (bitmap : Bitmap) (bit : ℤ) : Bitmap :=
  { bitmap with
    map := Function.update bitmap.map (bit.tdiv 8) (bitmap.map (bit.tdiv 8) ||| bitMask bit) }

/-- `bitmap_unset_bit`. -/
def bitmapUnsetBit (bitmap : Bitmap) (bit : ℤ) : Bitmap :=
  { bitmap with
    map := Function.update bitmap.map (bit.tdiv 8) (bitmap.map (bit.tdiv 8) &&& ~~~bitMask bit) }

/-- `bitmap_check_bit`. -/
def bitmapCheckBit (bitmap : Bitmap) (bit : ℤ) : Bool :=
  bitmap.map (bit.tdiv 8) &&& bitMask bit != 0#8

/-- Setting a bit keeps the size. -/
@[simp] theorem bitmapSetBit_size (b : Bitmap) (i : ℤ) : (bitmapSetBit b i).size = b.size := rfl
@[simp] theorem bitmapSetBit_base (b : Bitmap) (i : ℤ) : (bitmapSetBit b i).base = b.base := rfl
@[simp] theorem bitmapUnsetBit_size (b : Bitmap) (i : ℤ) : (bitmapUnsetBit b i).size = b.size := rfl
@[simp] theorem bitmapUnsetBit_base (b : Bitmap) (i : ℤ) : (bitmapUnsetBit b i).base = b.base := rfl

/-- An index below `2 ^ 31` survives the conversion to `int`. -/
theorem toInt_eq {p : ℕ} (hp : p < 2 ^ 31) : toInt p = p :=
  Int.bmod_eq_of_le (by omega) (by omega)

/-- A non-negative bit number selects its own bit of its byte. -/
theorem bitMask_natCast (p : ℕ) : bitMask p = 1#8 <<< (p % 8) := by
  have hmod : (p : ℤ).tmod 8 = ((p % 8 : ℕ) : ℤ) := by
    rw [Int.tmod_eq_emod_of_nonneg (Int.natCast_nonneg p)]
    rfl
  rw [bitMask, hmod, if_pos (Int.natCast_nonneg _), Int.toNat_natCast]

/-- The byte of a non-negative bit number. -/
theorem tdiv_natCast (p : ℕ) : (p : ℤ).tdiv 8 = ((p / 8 : ℕ) : ℤ) := by
  rw [Int.tdiv_eq_ediv_of_nonneg (Int.natCast_nonneg p)]
  rfl

/-- A byte meets a one-bit mask exactly when that bit is set. -/
theorem byte_and_bit (x : BitVec 8) {k : ℕ} (hk : k < 8) :
    (x &&& 1#8 <<< k != 0#8) = x.getLsbD k := by
  cases hbit : x.getLsbD k with
  | true =>
    rw [bne_iff_ne]
    intro hzero
    have := congrArg (fun y => y.getLsbD k) hzero
    simp only [BitVec.getLsbD_and, BitVec.getLsbD_shiftLeft, BitVec.getLsbD_zero, hbit] at this
    simp [hk] at this
  | false =>
    rw [bne_eq_false_iff_eq]
    apply BitVec.eq_of_getLsbD_eq
    intro i hi
    simp only [BitVec.getLsbD_and, BitVec.getLsbD_shiftLeft, BitVec.getLsbD_zero, BitVec.getLsbD_one]
    by_cases hik : i = k
    · simp [hik, hbit]
    · simp; omega

/-- Checking frame `p` reads bit `p % 8` of byte `p / 8`. -/
theorem bitmapCheckBit_toInt (b : Bitmap) {p : ℕ} (hp : p < 2 ^ 31) :
    bitmapCheckBit b (toInt p) = (b.map ((p / 8 : ℕ) : ℤ)).getLsbD (p % 8) := by
  rw [bitmapCheckBit, toInt_eq hp, tdiv_natCast, bitMask_natCast,
    byte_and_bit _ (Nat.mod_lt _ (by decide))]

/-- Setting the bit of frame `p` marks exactly that frame as used. -/
theorem bitmapCheckBit_set (b : Bitmap) {p q : ℕ} (hp : p < 2 ^ 31) (hq : q < 2 ^ 31) :
    bitmapCheckBit (bitmapSetBit b (toInt p)) (toInt q) =
      (decide (q = p) || bitmapCheckBit b (toInt q)) := by
  rw [bitmapCheckBit_toInt _ hq, bitmapCheckBit_toInt _ hq, bitmapSetBit, toInt_eq hp,
    tdiv_natCast, bitMask_natCast]
  dsimp only
  by_cases hbyte : q / 8 = p / 8
  · rw [hbyte, Function.update_self]
    simp only [BitVec.getLsbD_or, BitVec.getLsbD_shiftLeft, BitVec.getLsbD_one]
    by_cases hpq : q = p
    · simp [hpq]; omega
    · have : ¬ (q % 8 = p % 8) := by omega
      simp [hpq]; omega
  · have hpq : q ≠ p := fun h => hbyte (h ▸ rfl)
    rw [Function.update_of_ne (by exact_mod_cast hbyte)]
    simp [hpq]

/-- Clearing the bit of frame `p` marks exactly that frame as free. -/
theorem bitmapCheckBit_unset (b : Bitmap) {p q : ℕ} (hp : p < 2 ^ 31) (hq : q < 2 ^ 31) :
    bitmapCheckBit (bitmapUnsetBit b (toInt p)) (toInt q) =
      (!decide (q = p) && bitmapCheckBit b (toInt q)) := by
  rw [bitmapCheckBit_toInt _ hq, bitmapCheckBit_toInt _ hq, bitmapUnsetBit, toInt_eq hp,
    tdiv_natCast, bitMask_natCast]
  dsimp only
  by_cases hbyte : q / 8 = p / 8
  · rw [hbyte, Function.update_self]
    simp only [BitVec.getLsbD_and, BitVec.getLsbD_not, BitVec.getLsbD_shiftLeft, BitVec.getLsbD_one]
    by_cases hpq : q = p
    · simp [hpq]
    · have : ¬ (q % 8 = p % 8) := by omega
      have hlt : q % 8 < 8 := Nat.mod_lt _ (by decide)
      simp [hpq, hlt]; omega
  · have hpq : q ≠ p := fun h => hbyte (h ▸ rfl)
    rw [Function.update_of_ne (by exact_mod_cast hbyte)]
    simp [hpq]

end Flos.Mm
