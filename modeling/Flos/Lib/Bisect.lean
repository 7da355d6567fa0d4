import Mathlib.Data.Int.Notation
import Mathlib.Data.Nat.Notation

/-!
# Binary search for the first index with a property

The closed-interval form with signed bounds: the search keeps the last index found to have the
property and continues below it. For a property that, once true, stays true, the result is the
first index that has it.
-/

namespace Flos.Lib

/-- Search `p` between `left` and `right`, with at most `fuel` iterations left; `result` is
returned when nothing is found. -/
def bisect (p : ℤ → Bool) : (fuel : ℕ) → (left right result : ℤ) → ℤ
  | 0, _, _, result => result
  | fuel + 1, left, right, result =>
    if left ≤ right then
      let mid := (left + right) / 2
      if p mid then bisect p fuel left (mid - 1) mid
      else bisect p fuel (mid + 1) right result
    else result

/-- The search finds the first index with a property that stays true, or there is none. -/
theorem bisect_spec {p : ℤ → Bool} {fuel : ℕ} {left right : ℤ} (result : ℤ)
    (hfuel : right < left + fuel)
    (hmono : ∀ i j, left ≤ i → i ≤ j → j ≤ right → p i = true → p j = true) :
    (bisect p fuel left right result = result ∧ ∀ i, left ≤ i → i ≤ right → p i = false) ∨
      (left ≤ bisect p fuel left right result ∧ bisect p fuel left right result ≤ right ∧
        p (bisect p fuel left right result) = true ∧
        ∀ i, left ≤ i → i < bisect p fuel left right result → p i = false) := by
  induction fuel generalizing left right result with
  | zero => exact .inl ⟨rfl, fun i h1 h2 => by omega⟩
  | succ fuel ih =>
    rw [bisect]
    by_cases hle : left ≤ right
    · rw [if_pos hle]
      cases hmid : p ((left + right) / 2) with
      | true =>
        simp only [hmid, if_true]
        have hfuel' : (left + right) / 2 - 1 < left + fuel := by omega
        rcases ih ((left + right) / 2) hfuel'
          fun i j h1 h2 h3 => hmono i j h1 h2 (by omega) with ⟨heq, hnone⟩ | ⟨h1, h2, h3, h4⟩
        · rw [heq]
          exact .inr ⟨by omega, by omega, hmid, fun i h1 h2 => hnone i h1 (by omega)⟩
        · exact .inr ⟨h1, by omega, h3, h4⟩
      | false =>
        have hbelow : ∀ i, left ≤ i → i ≤ (left + right) / 2 → p i = false := by
          intro i hlow hi
          cases hp : p i with
          | false => rfl
          | true => exact absurd (hmono i _ hlow hi (by omega) hp) (by simp [hmid])
        simp only [hmid, Bool.false_eq_true, if_false]
        have hfuel' : right < (left + right) / 2 + 1 + fuel := by omega
        rcases ih result hfuel'
          fun i j h1 h2 h3 => hmono i j (by omega) h2 h3 with ⟨heq, hnone⟩ | ⟨h1, h2, h3, h4⟩
        · refine .inl ⟨heq, fun i h1 h2 => ?_⟩
          by_cases hi : i ≤ (left + right) / 2
          · exact hbelow i h1 hi
          · exact hnone i (by omega) h2
        · refine .inr ⟨by omega, h2, h3, fun i h5 h6 => ?_⟩
          by_cases hi : i ≤ (left + right) / 2
          · exact hbelow i h5 hi
          · exact h4 i (by omega) h6
    · rw [if_neg hle]
      exact .inl ⟨rfl, fun i h1 h2 => by omega⟩

end Flos.Lib
