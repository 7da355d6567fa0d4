import Mathlib.Data.Nat.Bitwise
import Mathlib.Tactic.Ring

/-!
# Masks on 64-bit words

Words are natural numbers below `2 ^ 64`. A mask that keeps the bits from `low` up to
`high` is a contiguous block of ones; the lemmas turn such masks into division,
remainder and bit tests, so that later arithmetic goals are linear.
-/

namespace Flos.Lib

/-- The bits of a word from `low` up to, and not including, `high`. -/
def bitBlock (low high : ℕ) : ℕ := 2 ^ high - 2 ^ low

/-- A block mask has exactly the bits of its interval. -/
theorem testBit_bitBlock {low high : ℕ} (h : low ≤ high) (i : ℕ) :
    (bitBlock low high).testBit i = (decide (low ≤ i) && decide (i < high)) := by
  have hshift : bitBlock low high = (2 ^ (high - low) - 1) <<< low := by
    rw [bitBlock, Nat.shiftLeft_eq, Nat.sub_mul, ← pow_add, one_mul]
    congr 2
    omega
  rw [hshift, Nat.testBit_shiftLeft, Nat.testBit_two_pow_sub_one]
  by_cases hi : low ≤ i
  · simp only [ge_iff_le, hi, decide_true, Bool.true_and, decide_eq_decide]
    omega
  · simp [hi]

/-- Clearing the bits below `low` of a word rounds it down to a multiple of `2 ^ low`. -/
theorem and_bitBlock_eq {low high x : ℕ} (h : low ≤ high) (hx : x < 2 ^ high) :
    x &&& bitBlock low high = x / 2 ^ low * 2 ^ low := by
  apply Nat.eq_of_testBit_eq
  intro i
  rw [Nat.testBit_and, testBit_bitBlock h, ← Nat.shiftLeft_eq, Nat.testBit_shiftLeft,
    Nat.testBit_div_two_pow]
  by_cases hi : low ≤ i
  · simp only [ge_iff_le, hi, decide_true, Bool.true_and, Nat.sub_add_cancel]
    by_cases hih : i < high
    · simp [hih]
    · have : x.testBit i = false :=
        Nat.testBit_lt_two_pow (hx.trans_le (Nat.pow_le_pow_right (by decide) (by omega)))
      simp [hih, this]
  · simp [hi]

/-- A multiple of `2 ^ k` has no bit below `k`. -/
theorem testBit_of_dvd_two_pow {k x i : ℕ} (h : 2 ^ k ∣ x) (hi : i < k) : x.testBit i = false := by
  obtain ⟨y, rfl⟩ := h
  rw [Nat.testBit_two_pow_mul]
  simp [Nat.not_le.mpr hi]

/-- A word below `2 ^ k` has no bit from `k` on. -/
theorem testBit_of_lt_two_pow {k x i : ℕ} (h : x < 2 ^ k) (hi : k ≤ i) : x.testBit i = false :=
  Nat.testBit_lt_two_pow (h.trans_le (Nat.pow_le_pow_right (by decide) hi))

end Flos.Lib
