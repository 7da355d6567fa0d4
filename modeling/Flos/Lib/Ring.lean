import Mathlib.Data.List.Basic
import Mathlib.Logic.Function.Basic
import Mathlib.Order.Nat

/-!
# Rings that drop the oldest element

A queue in a ring of cells, with an index where the next element is written and an index where the oldest
one is read. One cell stays free, so that the full ring differs from the empty one. Writing to a full ring
moves the reading index over the oldest element.
-/

namespace Flos.Lib

variable {α : Type*}

/-- A ring. Its elements lie from `tail` up to, and not including, `head`. -/
structure Ring (α : Type*) where
  cells : ℕ → α
  head : ℕ
  tail : ℕ

/-- An element is appended to a queue that holds at most `cap` elements; a full one first loses its
oldest. -/
def pushDropping (cap : ℕ) (q : List α) (a : α) : List α := (if q.length = cap then q.tail else q) ++ [a]

namespace Ring

/-- Write an element to a ring of `n` cells. -/
def push (n : ℕ) (r : Ring α) (a : α) : Ring α where
  cells := Function.update r.cells r.head a
  head := (r.head + 1) % n
  tail := if (r.head + 1) % n = r.tail then (r.tail + 1) % n else r.tail

/-- Move over the oldest element. -/
def advance (n : ℕ) (r : Ring α) : Ring α := { r with tail := (r.tail + 1) % n }

/-- Both indices are cells. -/
structure Valid (n : ℕ) (r : Ring α) : Prop where
  head : r.head < n
  tail : r.tail < n

/-- The number of elements. -/
def length (n : ℕ) (r : Ring α) : ℕ := if r.tail ≤ r.head then r.head - r.tail else r.head + n - r.tail

/-- The elements, oldest first. -/
def contents (n : ℕ) (r : Ring α) : List α :=
  (List.range (r.length n)).map fun i => r.cells ((r.tail + i) % n)

variable {n : ℕ} {r : Ring α}

/-- The index behind a cell. -/
theorem succ_mod {i : ℕ} (h : i < n) : (i + 1) % n = if i + 1 = n then 0 else i + 1 := by
  split
  next heq => rw [heq, Nat.mod_self]
  next hne => exact Nat.mod_eq_of_lt (by omega)

/-- An index that has wrapped at most once. -/
theorem add_mod {t i : ℕ} (h : t + i < 2 * n) : (t + i) % n = if t + i < n then t + i else t + i - n := by
  split
  next hlt => exact Nat.mod_eq_of_lt hlt
  next hge =>
    rw [Nat.mod_eq_sub_mod (by omega)]
    exact Nat.mod_eq_of_lt (by omega)

/-- As many values as the ring counts. -/
@[simp] theorem contents_length : (r.contents n).length = r.length n := by simp [contents]

/-- The values start at the tail. -/
theorem contents_get {i : ℕ} (h : i < (r.contents n).length) :
    (r.contents n)[i] = r.cells ((r.tail + i) % n) := by
  simp [contents]

/-- A valid ring keeps one cell free. -/
theorem Valid.length_lt (h : r.Valid n) : r.length n < n := by
  obtain ⟨h1, h2⟩ := h
  rw [length]
  split <;> omega

/-- The ring is empty exactly when the indices agree. -/
theorem Valid.contents_eq_nil (h : r.Valid n) : r.contents n = [] ↔ r.tail = r.head := by
  obtain ⟨h1, h2⟩ := h
  rw [← List.length_eq_zero_iff, contents_length, length]
  split <;> omega

/-- Moving over an element of a ring that is not empty removes the oldest. -/
theorem Valid.contents_advance (h : r.Valid n) (hne : r.tail ≠ r.head) :
    (r.advance n).Valid n ∧ r.contents n = r.cells r.tail :: (r.advance n).contents n := by
  obtain ⟨hhead, htail⟩ := h
  have hmod := succ_mod htail
  have hlen : r.length n = (r.advance n).length n + 1 := by
    simp only [length, advance, hmod]
    split_ifs <;> omega
  refine ⟨⟨hhead, Nat.mod_lt _ (by omega)⟩, List.ext_getElem ?_ fun i h1 h2 => ?_⟩
  · rw [contents_length, List.length_cons, contents_length, hlen]
  · rw [contents_get]
    cases i with
    | zero => rw [List.getElem_cons_zero, Nat.add_zero, Nat.mod_eq_of_lt htail]
    | succ i =>
      rw [List.getElem_cons_succ, contents_get]
      simp only [advance]
      rw [Nat.mod_add_mod, Nat.add_right_comm, Nat.add_assoc]

/-- The cells of the elements are not the next one that is written, and the cell behind them is. -/
theorem Valid.cell_eq_head (h : r.Valid n) {i : ℕ} (hi : i ≤ r.length n) :
    (r.tail + i) % n = r.head ↔ i = r.length n := by
  have hlt := h.length_lt
  obtain ⟨hhead, htail⟩ := h
  rw [add_mod (by omega)]
  simp only [length] at hi ⊢
  split_ifs at hi ⊢ <;> omega

/-- Writing to a ring with a cell to spare appends an element. -/
theorem Valid.contents_write (h : r.Valid n) (hroom : r.length n + 1 < n) (a : α) :
    contents n ⟨Function.update r.cells r.head a, (r.head + 1) % n, r.tail⟩ = r.contents n ++ [a] := by
  have hlen : length n (⟨Function.update r.cells r.head a, (r.head + 1) % n, r.tail⟩ : Ring α) =
      r.length n + 1 := by
    obtain ⟨hhead, htail⟩ := h
    simp only [length, succ_mod hhead] at hroom ⊢
    split_ifs at hroom ⊢ <;> omega
  rw [contents, hlen, List.range_succ, List.map_append, contents]
  congr 1
  · refine List.map_congr_left fun i hi => Function.update_of_ne ?_ _ _
    rw [List.mem_range] at hi
    rw [Ne, h.cell_eq_head hi.le]
    exact hi.ne
  · rw [List.map_singleton, (h.cell_eq_head le_rfl).mpr rfl]
    exact congrArg (fun x => [x]) (Function.update_self _ _ _)

/-- Writing an element appends it; if all cells but one were taken, the oldest element is dropped. -/
theorem Valid.contents_push (h : r.Valid n) (hn : 2 ≤ n) (a : α) :
    (r.push n a).Valid n ∧ (r.push n a).contents n = pushDropping (n - 1) (r.contents n) a := by
  have hlt := h.length_lt
  have hfull : (r.head + 1) % n = r.tail ↔ r.length n = n - 1 := by
    rw [succ_mod h.head, length]
    have hhead := h.head
    have htail := h.tail
    split_ifs <;> omega
  rw [pushDropping, contents_length]
  by_cases hlen : r.length n = n - 1
  · have hne : r.tail ≠ r.head := fun heq => by
      rw [length, heq, if_pos le_rfl] at hlen
      omega
    obtain ⟨hvalid, hcontents⟩ := h.contents_advance hne
    have hroom : (r.advance n).length n + 1 < n := by
      have := congrArg List.length hcontents
      rw [List.length_cons, contents_length, contents_length] at this
      omega
    have hpush : r.push n a =
        ⟨Function.update (r.advance n).cells (r.advance n).head a, ((r.advance n).head + 1) % n,
          (r.advance n).tail⟩ := by
      rw [push, if_pos (hfull.mpr hlen)]
      rfl
    rw [hpush, if_pos hlen, hcontents]
    exact ⟨⟨Nat.mod_lt _ (by omega), hvalid.tail⟩, hvalid.contents_write hroom a⟩
  · have hpush : r.push n a = ⟨Function.update r.cells r.head a, (r.head + 1) % n, r.tail⟩ := by
      rw [push, if_neg (mt hfull.mp hlen)]
    rw [hpush, if_neg hlen]
    exact ⟨⟨Nat.mod_lt _ (by omega), h.tail⟩, h.contents_write (by omega) a⟩

end Ring

end Flos.Lib
