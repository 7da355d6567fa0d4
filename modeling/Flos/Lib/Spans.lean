import Mathlib.Data.List.Sort
import Mathlib.Data.List.Pairwise
import Mathlib.Order.CompletePartialOrder
import Mathlib.Order.Interval.Set.Disjoint

/-!
# Lists of half-open spans

A span `a` covers the points from `lo a` up to, and without, `hi a`. A chain is a list of
non-empty spans in which each ends before every later one starts; non-empty spans that are
disjoint form a chain exactly when they are sorted. In a chain a point lies in at most one span,
so a linear search finds it.
-/

namespace Flos.Lib

variable {α β : Type*} [LinearOrder β] (lo hi : α → β)

/-- Two spans have no point in common. -/
def SpanDisjoint (a b : α) : Prop := hi a ≤ lo b ∨ hi b ≤ lo a

/-- Non-empty spans, each ending before all later ones start. -/
def SpanChain (l : List α) : Prop :=
  (∀ a ∈ l, lo a < hi a) ∧ l.Pairwise fun a b => hi a ≤ lo b

/-- The points covered by a list of spans. -/
def spanCover (l : List α) : Set β := {x | ∃ a ∈ l, x ∈ Set.Ico (lo a) (hi a)}

variable {lo hi}

/-- Non-empty spans are disjoint exactly when no point lies in both. -/
theorem spanDisjoint_iff {a b : α} (ha : lo a < hi a) (hb : lo b < hi b) :
    SpanDisjoint lo hi a b ↔ Disjoint (Set.Ico (lo a) (hi a)) (Set.Ico (lo b) (hi b)) := by
  rw [Set.Ico_disjoint_Ico, SpanDisjoint]
  constructor
  · rintro (h | h)
    · exact (min_le_left _ _).trans (h.trans (le_max_right _ _))
    · exact (min_le_right _ _).trans (h.trans (le_max_left _ _))
  · intro h
    rcases min_le_iff.mp h with h | h <;> rcases le_max_iff.mp h with h | h
    · exact absurd ha h.not_gt
    · exact .inl h
    · exact .inr h
    · exact absurd hb h.not_gt

/-- A chain is strictly sorted by the start of its spans. -/
theorem SpanChain.sorted {l : List α} (h : SpanChain lo hi l) : l.Pairwise fun a b => lo a < lo b :=
  h.2.imp_of_mem fun ha _ hab => (h.1 _ ha).trans_le hab

/-- The spans of a chain are pairwise disjoint. -/
theorem SpanChain.disjoint {l : List α} (h : SpanChain lo hi l) :
    l.Pairwise (SpanDisjoint lo hi) :=
  h.2.imp .inl

/-- Sorted and disjoint non-empty spans form a chain. -/
theorem SpanChain.of_sorted {l : List α} (hpos : ∀ a ∈ l, lo a < hi a)
    (hsorted : l.Pairwise fun a b => lo a ≤ lo b) (hdisjoint : l.Pairwise (SpanDisjoint lo hi)) :
    SpanChain lo hi l := by
  refine ⟨hpos, (hsorted.and hdisjoint).imp_of_mem ?_⟩
  rintro a b - hb ⟨hle, h | h⟩
  · exact h
  · exact absurd ((hpos b hb).trans_le h) hle.not_gt

/-- In disjoint spans a point lies in at most one. -/
theorem mem_span_unique {l : List α} (hdisjoint : l.Pairwise (SpanDisjoint lo hi)) {a b : α} {x : β}
    (ha : a ∈ l) (hb : b ∈ l) (hxa : lo a ≤ x ∧ x < hi a) (hxb : lo b ≤ x ∧ x < hi b) : a = b := by
  by_contra hne
  have hsymm : Std.Symm (SpanDisjoint lo hi) := ⟨fun _ _ => Or.symm⟩
  rcases hdisjoint.forall ha hb hne with h | h
  · exact absurd (hxa.2.trans_le h) hxb.1.not_gt
  · exact absurd (hxb.2.trans_le h) hxa.1.not_gt

/-- A linear search for a point finds the span that covers it, or there is none. -/
theorem find?_span {l : List α} (hdisjoint : l.Pairwise (SpanDisjoint lo hi)) (x : β) (a : α) :
    l.find? (fun a => decide (lo a ≤ x) && decide (x < hi a)) = some a ↔
      a ∈ l ∧ lo a ≤ x ∧ x < hi a := by
  constructor
  · intro h
    have hp := List.find?_some h
    simp only [Bool.and_eq_true, decide_eq_true_eq] at hp
    exact ⟨List.mem_of_find?_eq_some h, hp⟩
  · rintro ⟨ha, hx⟩
    cases hfind : l.find? (fun a => decide (lo a ≤ x) && decide (x < hi a)) with
    | none =>
      have hnone := List.find?_eq_none.mp hfind a ha
      simp [hx] at hnone
    | some b =>
      have hp := List.find?_some hfind
      simp only [Bool.and_eq_true, decide_eq_true_eq] at hp
      rw [mem_span_unique hdisjoint (List.mem_of_find?_eq_some hfind) ha hp hx]

end Flos.Lib
