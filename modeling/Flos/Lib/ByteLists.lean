import Mathlib.Data.Nat.Notation
import Mathlib.Data.List.Basic
import Mathlib.Algebra.Order.Group.Nat

/-!
# Bytes of numbers, and lists of bytes in memory

A number as a list of little-endian bytes, a list of bytes as the contents of memory from an address
on, and the number that memory then holds there.
-/

namespace Flos.Lib

/-- The `n` little-endian bytes of `v`. -/
def leBytes : ℕ → ℕ → List UInt8
  | 0, _ => []
  | n + 1, v => UInt8.ofNat v :: leBytes n (v / 256)

/-- The little-endian number in the `n` bytes at `off`. -/
def leNumber (mem : ℕ → UInt8) (off : ℕ) : ℕ → ℕ
  | 0 => 0
  | n + 1 => (mem off).toNat + 256 * leNumber mem (off + 1) n

/-- The memory from `off` on begins with a list of bytes. -/
def Spells (mem : ℕ → UInt8) : ℕ → List UInt8 → Prop
  | _, [] => True
  | off, b :: bs => mem off = b ∧ Spells mem (off + 1) bs

variable {mem : ℕ → UInt8} {off : ℕ}

/-- Memory filled from a list spells each part of it at its place. -/
theorem spells_getD (base : ℕ) (front bs : List UInt8) :
    Spells (fun x => (front ++ bs).getD (x - base) 0) (base + front.length) bs := by
  induction bs generalizing front with
  | nil => trivial
  | cons b bs ih =>
    constructor
    · simp only [Nat.add_sub_cancel_left, List.getD_eq_getElem?_getD, List.getElem?_append_right le_rfl,
        Nat.sub_self, List.getElem?_cons_zero, Option.getD_some]
    · have hrest := ih (front ++ [b])
      rwa [← List.append_cons, List.length_append, ← Nat.add_assoc] at hrest

/-- A number has as many bytes as asked for. -/
@[simp]
theorem leBytes_length (n v : ℕ) : (leBytes n v).length = n := by
  induction n generalizing v with
  | zero => rfl
  | succ n ih => rw [leBytes, List.length_cons, ih]

/-- Two lists one behind the other. -/
theorem spells_append {bs cs : List UInt8} :
    Spells mem off (bs ++ cs) ↔ Spells mem off bs ∧ Spells mem (off + bs.length) cs := by
  induction bs generalizing off with
  | nil => exact ⟨fun h => ⟨trivial, h⟩, fun h => h.2⟩
  | cons b bs ih =>
    rw [List.cons_append, Spells, Spells, ih, and_assoc, List.length_cons,
      Nat.add_assoc off 1, Nat.add_comm 1]

/-- Memory that spells the bytes of a number holds that number. -/
theorem leNumber_of_spells {n v : ℕ} (hv : v < 256 ^ n) (h : Spells mem off (leBytes n v)) :
    leNumber mem off n = v := by
  induction n generalizing off v with
  | zero => exact (Nat.lt_one_iff.mp hv).symm
  | succ n ih =>
    obtain ⟨hbyte, hrest⟩ := h
    have hv' : v / 256 < 256 ^ n := by
      rw [Nat.pow_succ] at hv
      exact Nat.div_lt_of_lt_mul (by omega)
    rw [leNumber, ih hv' hrest, hbyte, UInt8.toNat_ofNat']
    omega

end Flos.Lib
