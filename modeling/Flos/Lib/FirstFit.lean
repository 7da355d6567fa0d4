import Flos.Lib.Spans
import Mathlib.Algebra.Order.Group.Nat
import Mathlib.Order.Bounds.Defs

/-!
# First fit between spans

A scan over spans in order looks for a gap of a given size: it raises its candidate to the end of
every span, until one starts behind the gap. For spans in order this finds the lowest gap from the
first candidate on. The scan can also be run with a wrapped comparison; as long as some gap ends
below the modulus the two agree, and otherwise the wrapped scan ends with a gap that wraps.
-/

namespace Flos.Lib

variable {α : Type*} (lo hi : α → ℕ)

/-- No span meets the `size` points from `a` on. -/
def Gap (l : List α) (a size : ℕ) : Prop := ∀ x ∈ l, hi x ≤ a ∨ a + size ≤ lo x

/-- Each span ends before all later ones start; spans may be empty. -/
structure InOrder (l : List α) : Prop where
  le : ∀ x ∈ l, lo x ≤ hi x
  sorted : l.Pairwise fun x y => hi x ≤ lo y

/-- The scan from candidate `c` on. -/
def firstFit (size : ℕ) : List α → ℕ → ℕ
  | [], c => c
  | x :: rest, c => if c + size ≤ lo x then c else firstFit size rest (max c (hi x))

/-- The scan with the end of the candidate reduced modulo `n`. -/
def firstFitMod (n size : ℕ) : List α → ℕ → ℕ
  | [], c => c
  | x :: rest, c => if (c + size) % n ≤ lo x then c else firstFitMod n size rest (max c (hi x))

variable {lo hi} {l : List α} {x : α} {size c n : ℕ}

/-- The spans behind the first one are in order, and start behind it. -/
theorem InOrder.tail (h : InOrder lo hi (x :: l)) :
    InOrder lo hi l ∧ ∀ y ∈ l, lo x ≤ lo y := by
  obtain ⟨hfirst, hrest⟩ := List.pairwise_cons.mp h.sorted
  refine ⟨⟨fun y hy => h.le y (List.mem_cons_of_mem x hy), hrest⟩, fun y hy => ?_⟩
  exact (h.le x List.mem_cons_self).trans (hfirst y hy)

/-- A chain is in order. -/
theorem SpanChain.inOrder (h : SpanChain lo hi l) : InOrder lo hi l :=
  ⟨fun x hx => (h.1 x hx).le, h.2⟩

/-- The candidate only grows. -/
theorem le_firstFit (size : ℕ) (l : List α) (c : ℕ) : c ≤ firstFit lo hi size l c := by
  induction l generalizing c with
  | nil => exact le_rfl
  | cons x rest ih =>
    rw [firstFit]
    split
    · exact le_rfl
    · exact (le_max_left _ _).trans (ih _)

/-- The candidate of the wrapped scan only grows. -/
theorem le_firstFitMod (n size : ℕ) (l : List α) (c : ℕ) : c ≤ firstFitMod lo hi n size l c := by
  induction l generalizing c with
  | nil => exact le_rfl
  | cons x rest ih =>
    rw [firstFitMod]
    split
    · exact le_rfl
    · exact (le_max_left _ _).trans (ih _)

/-- The scan ends at a gap. -/
theorem gap_firstFit (h : InOrder lo hi l) (size c : ℕ) : Gap lo hi l (firstFit lo hi size l c) size := by
  induction l generalizing c with
  | nil => simp [Gap]
  | cons x rest ih =>
    obtain ⟨hrest, hbehind⟩ := h.tail
    rw [firstFit]
    intro y hy
    split
    next hstop =>
      right
      rcases List.mem_cons.mp hy with rfl | hy
      · exact hstop
      · exact hstop.trans (hbehind y hy)
    next =>
      rcases List.mem_cons.mp hy with rfl | hy
      · exact .inl ((le_max_right _ _).trans (le_firstFit size rest _))
      · exact ih hrest _ y hy

/-- No gap from the candidate on is lower. -/
theorem firstFit_le {a : ℕ} (hc : c ≤ a) (hgap : Gap lo hi l a size) :
    firstFit lo hi size l c ≤ a := by
  induction l generalizing c with
  | nil => exact hc
  | cons x rest ih =>
    rw [firstFit]
    split
    next => exact hc
    next hnext =>
      refine ih (max_le hc ?_) fun y hy => hgap y (List.mem_cons_of_mem x hy)
      rcases hgap x List.mem_cons_self with hx | hx
      · exact hx
      · exact absurd ((Nat.add_le_add_right hc size).trans hx) hnext

/-- First fit finds the lowest gap. -/
theorem isLeast_firstFit (h : InOrder lo hi l) (size c : ℕ) :
    IsLeast {a | c ≤ a ∧ Gap lo hi l a size} (firstFit lo hi size l c) :=
  ⟨⟨le_firstFit size l c, gap_firstFit h size c⟩, fun _ ha => firstFit_le ha.1 ha.2⟩

/-- While the gap that first fit finds does not wrap, the wrapped scan finds it too. -/
theorem firstFitMod_eq (hfit : firstFit lo hi size l c + size < n) :
    firstFitMod lo hi n size l c = firstFit lo hi size l c := by
  induction l generalizing c with
  | nil => rfl
  | cons x rest ih =>
    have hle := @le_firstFit _ lo hi size (x :: rest) c
    rw [firstFit] at hfit hle ⊢
    rw [firstFitMod, Nat.mod_eq_of_lt ((Nat.add_le_add_right hle size).trans_lt hfit)]
    split at hfit
    next hstop => rw [if_pos hstop, if_pos hstop]
    next hnext =>
      rw [if_neg hnext, if_neg hnext]
      exact ih hfit

/-- If no gap ends below the modulus, the wrapped scan ends with a gap that wraps, and meets no span
where it has wrapped to. -/
theorem firstFitMod_wraps (h : InOrder lo hi l) (hwords : ∀ x ∈ l, hi x < n)
    (hfit : n ≤ firstFit lo hi size l c + size) :
    n ≤ firstFitMod lo hi n size l c + size ∧ ∀ x ∈ l,
      hi x ≤ firstFitMod lo hi n size l c ∨ (firstFitMod lo hi n size l c + size) % n ≤ lo x := by
  induction l generalizing c with
  | nil => exact ⟨hfit, by simp⟩
  | cons x rest ih =>
    obtain ⟨hrest, hbehind⟩ := h.tail
    have hx := (h.le x List.mem_cons_self).trans_lt (hwords x List.mem_cons_self)
    rw [firstFit] at hfit
    rw [firstFitMod]
    by_cases hstop : (c + size) % n ≤ lo x
    · rw [if_pos hstop]
      refine ⟨?_, fun y hy => .inr ?_⟩
      · -- an unwrapped candidate would have stopped the other scan
        by_contra hlt
        rw [Nat.mod_eq_of_lt (not_le.mp hlt)] at hstop
        rw [if_pos hstop] at hfit
        exact hlt hfit
      · rcases List.mem_cons.mp hy with rfl | hy
        · exact hstop
        · exact hstop.trans (hbehind y hy)
    · rw [if_neg hstop]
      have hnext : ¬ c + size ≤ lo x := by
        intro hle
        exact hstop (by rwa [Nat.mod_eq_of_lt (hle.trans_lt hx)])
      rw [if_neg hnext] at hfit
      obtain ⟨hwrap, hout⟩ := ih hrest (fun y hy => hwords y (List.mem_cons_of_mem x hy)) hfit
      refine ⟨hwrap, fun y hy => ?_⟩
      rcases List.mem_cons.mp hy with rfl | hy
      · exact .inl ((le_max_right _ _).trans (le_firstFitMod n size rest _))
      · exact hout y hy

end Flos.Lib
