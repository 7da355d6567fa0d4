import Mathlib.Data.List.Sort
import Mathlib.Data.Tree.Basic

/-!
# Search trees as stable sorted lists

A binary tree stands for the list of its values in order. The search that goes left below larger keys and
right otherwise ends at the place where a new value belongs: behind every value whose key is not
larger. Equal keys thus keep the order of their arrival.
-/

namespace Flos.Lib

variable {α κ : Type*} [LinearOrder κ] (key : α → κ)

/-- The values of a tree in order. -/
def inorder : BinaryTree α → List α
  | .nil => []
  | .node a l r => inorder l ++ a :: inorder r

/-- The way down to the empty place for a key: `false` goes left. -/
def descend (k : κ) : BinaryTree α → List Bool
  | .nil => []
  | .node a l r => if k < key a then false :: descend k l else true :: descend k r

/-- Put a value at an empty place of the tree. -/
def graft (a : α) : List Bool → BinaryTree α → BinaryTree α
  | _, .nil => .node a .nil .nil
  | false :: path, .node b l r => .node b (graft a path l) r
  | true :: path, .node b l r => .node b l (graft a path r)
  | [], .node b l r => .node b l r

/-- A list sorted by key. -/
def KeySorted (l : List α) : Prop := l.Pairwise fun a b => key a ≤ key b

/-- Insert behind every value whose key is not larger. -/
def insertStable (a : α) (l : List α) : List α := l.orderedInsert (fun a b => key a < key b) a

variable {key}

/-- The first value. -/
theorem insertStable_nil (a : α) : insertStable key a [] = [a] := rfl

/-- In front of a larger key. -/
theorem insertStable_append_of_lt {a b : α} (hlt : key a < key b) (l l' : List α) :
    insertStable key a (l ++ b :: l') = insertStable key a l ++ b :: l' := by
  induction l with
  | nil => simp only [insertStable, List.nil_append, List.orderedInsert, hlt, if_true,
      List.cons_append]
  | cons c l ih =>
    simp only [insertStable, List.cons_append, List.orderedInsert] at ih ⊢
    split
    next => rfl
    next => rw [ih, List.cons_append]

/-- Behind keys that are not larger. -/
theorem insertStable_append_of_le {a : α} {l : List α} (hle : ∀ b ∈ l, key b ≤ key a) (l' : List α) :
    insertStable key a (l ++ l') = l ++ insertStable key a l' := by
  induction l with
  | nil => rfl
  | cons c l ih =>
    simp only [insertStable, List.cons_append, List.orderedInsert] at ih ⊢
    rw [if_neg (not_lt.mpr (hle c List.mem_cons_self)),
      ih fun b hb => hle b (List.mem_cons_of_mem c hb)]

/-- A value with a key that is not smaller than any goes to the end. -/
theorem insertStable_of_le {a : α} {l : List α} (hle : ∀ b ∈ l, key b ≤ key a) :
    insertStable key a l = l ++ [a] := by
  have h := insertStable_append_of_le hle []
  rwa [List.append_nil, insertStable_nil] at h

/-- An insertion adds one value. -/
theorem insertStable_perm (a : α) (l : List α) : (insertStable key a l).Perm (a :: l) :=
  List.perm_orderedInsert _ a l

/-- The values behind an insertion. -/
theorem mem_insertStable {a b : α} {l : List α} : b ∈ insertStable key a l ↔ b = a ∨ b ∈ l :=
  List.mem_orderedInsert _

/-- The list stays sorted. -/
theorem KeySorted.insertStable {l : List α} (h : KeySorted key l) (a : α) :
    KeySorted key (insertStable key a l) := by
  induction l with
  | nil => exact List.pairwise_singleton _ a
  | cons b l ih =>
    simp only [Lib.insertStable, List.orderedInsert]
    split
    next hlt =>
      apply List.Pairwise.cons _ h
      intro c hc
      cases hc with
      | head => exact hlt.le
      | tail _ hc => exact hlt.le.trans (List.rel_of_pairwise_cons h hc)
    next hle =>
      apply List.Pairwise.cons _ (ih h.of_cons)
      intro c hc
      cases mem_insertStable.mp hc with
      | inl heq => exact heq ▸ not_lt.mp hle
      | inr hc => exact List.rel_of_pairwise_cons h hc

/-- The first value after an insertion: the new one only if its key is smaller than all others. -/
theorem head?_insertStable (a : α) (l : List α) :
    (insertStable key a l).head? =
      match l.head? with
      | none => some a
      | some b => if key a < key b then some a else some b := by
  cases l with
  | nil => rfl
  | cons b l =>
    simp only [insertStable, List.orderedInsert, List.head?_cons]
    split <;> rfl

/-- Grafting a value where the search for its key ends inserts it into the sorted list. -/
theorem inorder_graft_descend {t : BinaryTree α} (h : KeySorted key (inorder t)) (a : α) :
    inorder (graft a (descend key (key a) t) t) = insertStable key a (inorder t) := by
  induction t with
  | nil => rfl
  | node b l r ihl ihr =>
    have hl : KeySorted key (inorder l) := (List.pairwise_append.mp h).1
    have hr : KeySorted key (inorder r) := (List.pairwise_append.mp h).2.1.of_cons
    have hlb : ∀ c ∈ inorder l, key c ≤ key b := fun c hc =>
      (List.pairwise_append.mp h).2.2 c hc b List.mem_cons_self
    rw [descend]
    by_cases hlt : key a < key b
    · rw [if_pos hlt, graft, inorder, inorder, ihl hl, insertStable_append_of_lt hlt]
    · have hle : ∀ c ∈ inorder l ++ [b], key c ≤ key a := by
        intro c hc
        cases List.mem_append.mp hc with
        | inl hc => exact (hlb c hc).trans (not_lt.mp hlt)
        | inr hc => exact List.mem_singleton.mp hc ▸ not_lt.mp hlt
      rw [if_neg hlt, graft, inorder, inorder, ihr hr, List.append_cons _ b (inorder r),
        insertStable_append_of_le hle, ← List.append_cons]

/-- The tree of a list that goes right only. -/
def spine : List α → BinaryTree α
  | [] => .nil
  | a :: l => .node a .nil (spine l)

/-- A spine holds its list in order. -/
@[simp] theorem inorder_spine (l : List α) : inorder (spine l) = l := by
  induction l with
  | nil => rfl
  | cons a l ih => rw [spine, inorder, ih]; rfl

end Flos.Lib
