import Mathlib.Data.List.Pairwise
import Mathlib.Logic.Function.Basic
import Mathlib.Tactic.TypeStar

/-!
# Moves along a list of indices

A store in which values are copied from one place to another, one index after the other. An index
reads what the earlier ones left behind, so the copies agree with a copy through a temporary as long
as no index writes what a later one reads or writes.
-/

namespace Flos.Lib

variable {ι A V : Type*} [DecidableEq A]

/-- Copy the value at `src i` to `dst i`, for each `i` of a list in turn. -/
def moveAlong (src dst : ι → A) : List ι → (A → V) → A → V
  | [], m => m
  | i :: l, m => moveAlong src dst l (Function.update m (dst i) (m (src i)))

/-- Moves change no place that they do not write. -/
theorem moveAlong_of_ne {src dst : ι → A} {l : List ι} {m : A → V} {a : A}
    (ha : ∀ i ∈ l, dst i ≠ a) : moveAlong src dst l m a = m a := by
  induction l generalizing m with
  | nil => rfl
  | cons k l ih =>
    rw [moveAlong, ih fun i hi => ha i (List.mem_cons_of_mem k hi),
      Function.update_of_ne (ha k List.mem_cons_self).symm]

/-- When no index writes a place that a later one writes or reads, each destination receives what its
source held at the start. -/
theorem moveAlong_dst {src dst : ι → A} {l : List ι} {m : A → V}
    (hdst : l.Pairwise fun i j => dst i ≠ dst j) (hsrc : l.Pairwise fun i j => dst i ≠ src j)
    {i : ι} (hi : i ∈ l) : moveAlong src dst l m (dst i) = m (src i) := by
  induction l generalizing m with
  | nil => cases hi
  | cons k l ih =>
    obtain ⟨hkdst, hdst⟩ := List.pairwise_cons.mp hdst
    obtain ⟨hksrc, hsrc⟩ := List.pairwise_cons.mp hsrc
    rcases List.mem_cons.mp hi with rfl | hi
    · -- no later index writes this destination again
      rw [moveAlong, moveAlong_of_ne fun j hj => (hkdst j hj).symm, Function.update_self]
    · -- the first move leaves the source of every later index alone
      rw [moveAlong, ih hdst hsrc hi, Function.update_of_ne (hksrc i hi).symm]

end Flos.Lib
