import Mathlib.Data.List.Nodup
import Mathlib.Data.Nat.Notation
import Mathlib.Tactic.TypeStar

/-!
# Ledgers of acquired and released resources

A ledger is a list of events, each acquiring or releasing one resource. It settles to a list of
outstanding resources when nothing is acquired while it is outstanding, and nothing released
while it is not. A ledger that settles to nothing has released everything exactly once for each
time it was acquired.
-/

namespace Flos.Lib

/-- A resource is acquired, or released. -/
inductive LedgerEvent (R : Type*)
  | acquire (r : R)
  | release (r : R)
  deriving DecidableEq, Repr

variable {R : Type*} [DecidableEq R]

/-- Play the events on the outstanding resources; `none` for an event out of order. -/
def settle : List (LedgerEvent R) → List R → Option (List R)
  | [], out => some out
  | .acquire r :: events, out => if r ∈ out then none else settle events (r :: out)
  | .release r :: events, out => if r ∈ out then settle events (out.erase r) else none

variable {events : List (LedgerEvent R)} {out out' : List R} {r : R}

/-- Ledgers are played one after the other. -/
theorem settle_append (events events' : List (LedgerEvent R)) (out : List R) :
    settle (events ++ events') out = (settle events out).bind (settle events') := by
  induction events generalizing out with
  | nil => rfl
  | cons e events ih =>
    cases e with
    | acquire r =>
      rw [List.cons_append, settle, settle, ih]
      split <;> rfl
    | release r =>
      rw [List.cons_append, settle, settle, ih]
      split <;> rfl

/-- Something that is not outstanding can be acquired next. -/
theorem settle_acquire (h : settle events out = some out') (hr : r ∉ out') :
    settle (events ++ [.acquire r]) out = some (r :: out') := by
  rw [settle_append, h, Option.bind_some, settle, if_neg hr, settle]

/-- Something that is outstanding can be released next. -/
theorem settle_release (h : settle events out = some out') (hr : r ∈ out') :
    settle (events ++ [.release r]) out = some (out'.erase r) := by
  rw [settle_append, h, Option.bind_some, settle, if_pos hr, settle]

/-- Everything is outstanding at most once. -/
theorem nodup_of_settle (h : settle events out = some out') (hout : out.Nodup) : out'.Nodup := by
  induction events generalizing out with
  | nil =>
    obtain rfl := Option.some.inj h
    exact hout
  | cons e events ih =>
    cases e with
    | acquire r =>
      rw [settle] at h
      split at h
      · cases h
      next hr => exact ih h (List.nodup_cons.mpr ⟨hr, hout⟩)
    | release r =>
      rw [settle] at h
      split at h
      next => exact ih h (hout.erase r)
      · cases h

/-- A settled ledger balances: what was outstanding or acquired is released or outstanding. -/
theorem count_of_settle (h : settle events out = some out') (r : R) :
    out.count r + events.count (.acquire r) = events.count (.release r) + out'.count r := by
  induction events generalizing out with
  | nil =>
    obtain rfl := Option.some.inj h
    simp
  | cons e events ih =>
    cases e with
    | acquire r' =>
      rw [settle] at h
      split at h
      · cases h
      next =>
        have hcount := ih h
        simp only [List.count_cons, beq_iff_eq, LedgerEvent.acquire.injEq, reduceCtorEq,
          if_false] at hcount ⊢
        omega
    | release r' =>
      rw [settle] at h
      split at h
      next hr =>
        have hcount := ih h
        have hpos := List.count_pos_iff.mpr hr
        simp only [List.count_cons, beq_iff_eq, LedgerEvent.release.injEq, reduceCtorEq,
          if_false, List.count_erase] at hcount ⊢
        by_cases hrr : r' = r
        · subst hrr
          simp only [if_true] at hcount ⊢
          omega
        · simp only [hrr, if_false] at hcount ⊢
          omega
      · cases h

/-- In a settled ledger, what is released has been acquired once more than it was released before,
unless it was outstanding from the start. -/
theorem count_of_settle_release {before after : List (LedgerEvent R)}
    (h : settle (before ++ .release r :: after) out = some out') (hout : out.Nodup) (hr : r ∉ out) :
    before.count (.acquire r) = before.count (.release r) + 1 := by
  rw [settle_append] at h
  obtain ⟨mid, hmid, hrest⟩ := Option.bind_eq_some_iff.mp h
  have hcount := count_of_settle hmid r
  have hnodup := nodup_of_settle hmid hout
  rw [settle] at hrest
  split at hrest
  next hmem =>
    rw [List.count_eq_one_of_mem hnodup hmem, List.count_eq_zero_of_not_mem hr, Nat.zero_add] at hcount
    exact hcount
  · cases hrest

end Flos.Lib
