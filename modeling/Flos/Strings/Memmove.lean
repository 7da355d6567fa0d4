import Flos.Lib.ByteMem
import Flos.Lib.Moves
import Flos.Mm.Types

/-!
# Memory moves

`memmove` copies upwards when the destination lies below the source and downwards otherwise. Either
way no byte is written that the loop still has to read, so the two ranges may overlap.
-/

namespace Flos.Strings

open Flos.Lib Flos.Mm

/-- `pdest[i] = psrc[i]`, with the address sums of the machine. -/
def copyByte (pdest psrc i : ℕ) (mem : ByteMem) : ByteMem :=
  Function.update mem ((pdest + i) % wordSize) (mem ((psrc + i) % wordSize))

/-- The loop for `i` up to `n`, with `k` bytes still to copy. -/
def copyUp (pdest psrc n : ℕ) : ℕ → ByteMem → ByteMem
  | 0, mem => mem
  | k + 1, mem => copyUp pdest psrc n k (copyByte pdest psrc (n - (k + 1)) mem)

/-- The loop for `i` down to `0`, which copies the byte before `i`. -/
def copyDown (pdest psrc : ℕ) : ℕ → ByteMem → ByteMem
  | 0, mem => mem
  | i + 1, mem => copyDown pdest psrc i (copyByte pdest psrc i mem)

/-- `memmove`: the returned pointer and the memory afterwards. -/
def memmove (dest src n : ℕ) (mem : ByteMem) : ℕ × ByteMem :=
  if dest < src then (dest, copyUp dest src n n mem) else (dest, copyDown dest src n mem)

/-- The upward loop moves the last `k` indices in increasing order. -/
theorem copyUp_eq_moveAlong {pdest psrc n k : ℕ} (hk : k ≤ n) (mem : ByteMem) :
    copyUp pdest psrc n k mem =
      moveAlong (fun i => (psrc + i) % wordSize) (fun i => (pdest + i) % wordSize)
        (List.range' (n - k) k) mem := by
  induction k generalizing mem with
  | zero => rfl
  | succ k ih =>
    rw [copyUp, ih (by omega), List.range'_succ, moveAlong,
      show n - (k + 1) + 1 = n - k by omega]
    rfl

/-- The downward loop moves the indices in decreasing order. -/
theorem copyDown_eq_moveAlong (pdest psrc n : ℕ) (mem : ByteMem) :
    copyDown pdest psrc n mem =
      moveAlong (fun i => (psrc + i) % wordSize) (fun i => (pdest + i) % wordSize)
        (List.range n).reverse mem := by
  induction n generalizing mem with
  | zero => rfl
  | succ n ih =>
    rw [copyDown, ih, List.range_succ, List.reverse_append, List.reverse_singleton,
      List.singleton_append, moveAlong]
    rfl

/-- Moves along the indices below `n`, in an order in which no index writes what a later one reads,
copy the source range to the destination range and change nothing else. -/
theorem moveAlong_range {dest src n : ℕ} {l : List ℕ} (mem : ByteMem) (hdest : dest + n ≤ wordSize)
    (hsrc : src + n ≤ wordSize) (hl : ∀ i, i ∈ l ↔ i < n) (hnodup : l.Nodup)
    (horder : l.Pairwise fun i j => dest + i ≠ src + j) :
    let mem' := moveAlong (fun i => (src + i) % wordSize) (fun i => (dest + i) % wordSize) l mem
    (∀ i < n, mem' (dest + i) = mem (src + i)) ∧
      ∀ a, a < dest ∨ dest + n ≤ a → mem' a = mem a := by
  have hdst {i : ℕ} (hi : i ∈ l) : (dest + i) % wordSize = dest + i :=
    Nat.mod_eq_of_lt (by have := (hl i).mp hi; omega)
  have hsrc {i : ℕ} (hi : i ∈ l) : (src + i) % wordSize = src + i :=
    Nat.mod_eq_of_lt (by have := (hl i).mp hi; omega)
  refine ⟨fun i hi => ?_, fun a ha => ?_⟩
  · have hi' := (hl i).mpr hi
    have hcopy := @moveAlong_dst _ _ _ _ (fun i => (src + i) % wordSize)
      (fun i => (dest + i) % wordSize) l mem
      (hnodup.imp_of_mem fun hi hj hij => by rw [hdst hi, hdst hj]; omega)
      (horder.imp_of_mem fun hi hj hij => by rw [hdst hi, hsrc hj]; exact hij) i hi'
    rwa [hdst hi', hsrc hi'] at hcopy
  · exact moveAlong_of_ne fun i hi => by
      have hlt := (hl i).mp hi
      rw [hdst hi]
      omega

/-- `memmove` copies as if through a temporary: whatever the overlap of the two ranges, each byte of
the destination receives what its source byte held before the call, and no other byte changes. -/
theorem memmove_copies {dest src n : ℕ} (mem : ByteMem) (hdest : dest + n ≤ wordSize)
    (hsrc : src + n ≤ wordSize) :
    (∀ i < n, (memmove dest src n mem).2 (dest + i) = mem (src + i)) ∧
      ∀ a, a < dest ∨ dest + n ≤ a → (memmove dest src n mem).2 a = mem a := by
  rw [memmove]
  split
  · -- upwards, a later source lies above every destination written so far
    rename_i hlt
    dsimp only
    rw [copyUp_eq_moveAlong le_rfl, Nat.sub_self]
    refine moveAlong_range mem hdest hsrc (by simp) List.nodup_range' ?_
    exact (List.pairwise_lt_range' (s := 0)).imp fun hij => by omega
  · -- downwards, a later source lies below every destination written so far
    rename_i hge
    dsimp only
    rw [copyDown_eq_moveAlong]
    refine moveAlong_range mem hdest hsrc (by simp) (List.nodup_reverse.mpr List.nodup_range) ?_
    exact List.pairwise_reverse.mpr (List.pairwise_lt_range.imp fun hij => by omega)

/-- Two moves of four bytes by one place, one in each direction. -/
theorem memmove_copies_overlapping :
    10 + 4 ≤ wordSize ∧ 11 + 4 ≤ wordSize ∧
      (memmove 10 11 4 fun a => Fin.ofNat 256 a).2 13 = 14 ∧
      (memmove 11 10 4 fun a => Fin.ofNat 256 a).2 14 = 13 :=
  ⟨by decide, by decide,
    (@memmove_copies 10 11 4 _ (by decide) (by decide)).1 3 (by decide),
    (@memmove_copies 11 10 4 _ (by decide) (by decide)).1 3 (by decide)⟩

end Flos.Strings
