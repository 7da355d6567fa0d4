import Mathlib.Data.Nat.Notation
import Mathlib.Tactic.TypeStar

/-!
# Counted loops

`for (i = 0; i < n; i++)` over a state. The two rules are an invariant that every turn keeps, and one
that says how far the loop has come.
-/

namespace Flos.Lib

variable {S : Type*}

/-- The body runs for `0`, …, `n - 1` in turn. -/
def forRange (n : ℕ) (body : ℕ → S → S) (s : S) : S :=
  (List.range n).foldl (fun s i => body i s) s

/-- The last turn of a loop. -/
theorem forRange_succ (n : ℕ) (body : ℕ → S → S) (s : S) :
    forRange (n + 1) body s = body n (forRange n body s) := by
  rw [forRange, List.range_succ, List.foldl_append]
  rfl

/-- What holds after `i` turns holds after `i + 1`, so it holds after all of them. -/
theorem forRange_induction {n : ℕ} {body : ℕ → S → S} {s : S} (P : ℕ → S → Prop) (hzero : P 0 s)
    (hstep : ∀ i s, i < n → P i s → P (i + 1) (body i s)) : P n (forRange n body s) := by
  induction n with
  | zero => exact hzero
  | succ n ih =>
    rw [forRange_succ]
    exact hstep n _ (Nat.lt_succ_self n) (ih fun i s hi => hstep i s (Nat.lt_succ_of_lt hi))

/-- What every turn keeps, the loop keeps. -/
theorem forRange_invariant {n : ℕ} {body : ℕ → S → S} {s : S} (P : S → Prop)
    (hstep : ∀ i s, i < n → P s → P (body i s)) (h : P s) : P (forRange n body s) :=
  forRange_induction (fun _ => P) h hstep

end Flos.Lib
