import Mathlib.Data.Set.Basic
import Mathlib.Data.Set.BooleanAlgebra
import Mathlib.Data.Set.Insert
import Mathlib.Order.CompletePartialOrder
import Flos.Lib.Scan
import Flos.Mm.Bitmap

/-!
# The physical memory manager

The four allocation routines over the frame bitmap and the search cursor `cached_index`.
Addresses returned are `0` on failure, as in the source. Each routine has one
specification lemma in terms of the set of free frames; later modules use only those.
-/

namespace Flos.Mm

open Flos.Lib

/-- `pmm_map` together with the static `cached_index`. -/
structure Pmm where
  maxAddressable : ℕ
  bitmap : Bitmap
  totalPages : ℕ
  cachedIndex : ℕ

/-- The bit of frame `i` is clear. -/
def Pmm.isClear (s : Pmm) (i : ℕ) : Bool := !bitmapCheckBit s.bitmap (toInt i)

/-- `pmm_free_page`. -/
def pmmFreePage (s : Pmm) (physAddr : ℕ) : Pmm :=
  let index := physAddr / pageSize
  if index ≥ s.totalPages then s
  else
    { s with
      bitmap := bitmapUnsetBit s.bitmap (toInt index)
      cachedIndex := if index < s.cachedIndex then index else s.cachedIndex }

/-- The loop of `pmm_free_pages`: clear `n` bits from frame `i` on. -/
def unsetRange (bitmap : Bitmap) : (n i : ℕ) → Bitmap
  | 0, _ => bitmap
  | n + 1, i => unsetRange (bitmapUnsetBit bitmap (toInt i)) n (i + 1)

/-- The inner loop of `pmm_alloc_pages`: set `n` bits from frame `i` on. -/
def setRange (bitmap : Bitmap) : (n i : ℕ) → Bitmap
  | 0, _ => bitmap
  | n + 1, i => setRange (bitmapSetBit bitmap (toInt i)) n (i + 1)

/-- `pmm_free_pages`: the end index is a 64-bit sum. -/
def pmmFreePages (s : Pmm) (physAddr count : ℕ) : Pmm :=
  if count = 0 then s
  else
    let index := physAddr / pageSize
    let last := (index + count) % wordSize
    if index ≥ s.totalPages then s
    else
      let last := if last > s.totalPages then s.totalPages else last
      { s with
        bitmap := unsetRange s.bitmap (last - index) index
        cachedIndex := if index < s.cachedIndex then index else s.cachedIndex }

/-- The success branch of both loops of `pmm_alloc_page`. -/
def Pmm.takeFrame (s : Pmm) (i : ℕ) : Pmm :=
  { s with bitmap := bitmapSetBit s.bitmap (toInt i), cachedIndex := i + 1 }

/-- `pmm_alloc_page`: scan from the cursor to the end, then from the start to the cursor. -/
def pmmAllocPage (s : Pmm) : ℕ × Pmm :=
  match findFree s.isClear (s.totalPages - s.cachedIndex) s.cachedIndex with
  | some i => (i * pageSize, s.takeFrame i)
  | none =>
    match findFree s.isClear s.cachedIndex 0 with
    | some i => (i * pageSize, s.takeFrame i)
    | none => (0, s)

/-- `pmm_alloc_pages`: one scan from the cursor to the end, counting the current free run. -/
def pmmAllocPages (s : Pmm) (count : ℕ) : ℕ × Pmm :=
  if count = 0 then (0, s)
  else
    match findRun s.isClear count (s.totalPages - s.cachedIndex) s.cachedIndex 0 0 with
    | some runStart =>
      (runStart * pageSize,
        { s with
          bitmap := setRange s.bitmap count runStart
          cachedIndex := runStart + count })
    | none => (0, s)

/-- Frame `p` is managed and marked free. -/
def Pmm.Free (s : Pmm) (p : ℕ) : Prop := p < s.totalPages ∧ s.isClear p = true

/-- The managed frames that are marked free. -/
def Pmm.freeSet (s : Pmm) : Set ℕ := {p | s.Free p}

/-- The frames from `p` up to, and not including, `p + n`. -/
def frameRange (p n : ℕ) : Set ℕ := {q | p ≤ q ∧ q < p + n}

/-- Every frame of the range is managed and free. -/
def Pmm.FreeRange (s : Pmm) (p count : ℕ) : Prop := ∀ q ∈ frameRange p count, s.Free q

/-- The free frames, by their bits. -/
@[simp] theorem Pmm.mem_freeSet {s : Pmm} {p : ℕ} : p ∈ s.freeSet ↔ s.Free p := Iff.rfl

/-- The frames of a range. -/
@[simp] theorem mem_frameRange {p n q : ℕ} : q ∈ frameRange p n ↔ p ≤ q ∧ q < p + n := Iff.rfl

/-- What the four routines never change. -/
structure SameLayout (s t : Pmm) : Prop where
  maxAddressable : t.maxAddressable = s.maxAddressable
  size : t.bitmap.size = s.bitmap.size
  base : t.bitmap.base = s.bitmap.base
  totalPages : t.totalPages = s.totalPages

/-- Nothing moves. -/
theorem SameLayout.refl (s : Pmm) : SameLayout s s := ⟨rfl, rfl, rfl, rfl⟩

/-- Steps that keep the layout compose. -/
theorem SameLayout.trans {s t u : Pmm} (h : SameLayout s t) (h' : SameLayout t u) :
    SameLayout s u :=
  ⟨h'.1.trans h.1, h'.2.trans h.2, h'.3.trans h.3, h'.4.trans h.4⟩

/-- Clearing a range of bits keeps the array in place. -/
theorem unsetRange_layout (b : Bitmap) (n i : ℕ) :
    (unsetRange b n i).size = b.size ∧ (unsetRange b n i).base = b.base := by
  induction n generalizing b i with
  | zero => exact ⟨rfl, rfl⟩
  | succ n ih => exact ih _ _

/-- Setting a range of bits keeps the array in place. -/
theorem setRange_layout (b : Bitmap) (n i : ℕ) :
    (setRange b n i).size = b.size ∧ (setRange b n i).base = b.base := by
  induction n generalizing b i with
  | zero => exact ⟨rfl, rfl⟩
  | succ n ih => exact ih _ _

/-- The clearing loop clears exactly the bits of its range. -/
theorem bitmapCheckBit_unsetRange (b : Bitmap) {n i q : ℕ} (hn : i + n ≤ 2 ^ 31) (hq : q < 2 ^ 31) :
    bitmapCheckBit (unsetRange b n i) (toInt q) =
      (!decide (i ≤ q ∧ q < i + n) && bitmapCheckBit b (toInt q)) := by
  induction n generalizing b i with
  | zero =>
    have : decide (i ≤ q ∧ q < i + 0) = false := by rw [decide_eq_false_iff_not]; omega
    rw [unsetRange, this]
    rfl
  | succ n ih =>
    rw [unsetRange, ih _ (by omega), bitmapCheckBit_unset _ (by omega) hq, ← Bool.and_assoc,
      ← Bool.not_or, ← Bool.decide_or]
    congr 2
    rw [decide_eq_decide]
    omega

/-- The setting loop sets exactly the bits of its range. -/
theorem bitmapCheckBit_setRange (b : Bitmap) {n i q : ℕ} (hn : i + n ≤ 2 ^ 31) (hq : q < 2 ^ 31) :
    bitmapCheckBit (setRange b n i) (toInt q) =
      (decide (i ≤ q ∧ q < i + n) || bitmapCheckBit b (toInt q)) := by
  induction n generalizing b i with
  | zero =>
    have : decide (i ≤ q ∧ q < i + 0) = false := by rw [decide_eq_false_iff_not]; omega
    rw [setRange, this]
    rfl
  | succ n ih =>
    rw [setRange, ih _ (by omega), bitmapCheckBit_set _ (by omega) hq, ← Bool.or_assoc,
      ← Bool.decide_or]
    congr 1
    rw [decide_eq_decide]
    omega

/-- The two possible outcomes of `pmm_alloc_page`.

Either it takes one free frame and leaves the cursor just behind it, or no managed frame is
free and nothing changes. -/
theorem pmmAllocPage_cases {s : Pmm} (hcursor : s.cachedIndex ≤ s.totalPages) :
    (∃ i, s.Free i ∧ pmmAllocPage s = (i * 4096, s.takeFrame i)) ∨
      (s.freeSet = ∅ ∧ pmmAllocPage s = (0, s)) := by
  unfold pmmAllocPage
  split
  · next i hfound =>
    obtain ⟨_, hhigh, hclear, _⟩ := findFree_some hfound
    exact Or.inl ⟨i, ⟨by omega, hclear⟩, rfl⟩
  · next hnone =>
    split
    · next i hfound =>
      obtain ⟨_, hhigh, hclear, _⟩ := findFree_some hfound
      exact Or.inl ⟨i, ⟨by omega, hclear⟩, rfl⟩
    · next hnone' =>
      refine Or.inr ⟨Set.eq_empty_of_forall_notMem fun p ⟨hp, hclear⟩ => ?_, rfl⟩
      have hused : s.isClear p = false := by
        by_cases hlow : p < s.cachedIndex
        · exact findFree_none hnone' p (Nat.zero_le _) (by omega)
        · exact findFree_none hnone p (by omega) (by omega)
      simp [hused] at hclear

section Specifications

variable {s : Pmm} (hsmall : s.totalPages < 2 ^ 31)

include hsmall

/-- `pmm_free_page` adds the frame that contains the address, if it is managed. -/
theorem pmmFreePage_freeSet (phys : ℕ) :
    (pmmFreePage s phys).freeSet = s.freeSet ∪ {p | p = phys / 4096 ∧ p < s.totalPages} := by
  ext p
  simp only [pmmFreePage, pageSize, Pmm.mem_freeSet, Set.mem_union, Set.mem_ofPred_eq]
  by_cases hlt : phys / 4096 ≥ s.totalPages
  · rw [if_pos hlt]
    constructor
    · exact Or.inl
    · rintro (h | ⟨h, h'⟩)
      · exact h
      · omega
  · rw [if_neg hlt]
    by_cases hp : p < s.totalPages
    · simp only [Pmm.Free, Pmm.isClear, bitmapCheckBit_unset s.bitmap
        (show phys / 4096 < 2 ^ 31 by omega) (show p < 2 ^ 31 by omega), hp, true_and, and_true]
      by_cases hpe : p = phys / 4096 <;> simp [hpe]
    · simp [Pmm.Free, hp]

/-- `pmm_free_pages` adds its range of frames when the range is managed. -/
theorem pmmFreePages_freeSet {phys count : ℕ} (hrange : phys / 4096 + count ≤ s.totalPages) :
    (pmmFreePages s phys count).freeSet = s.freeSet ∪ frameRange (phys / 4096) count := by
  ext p
  have hmod : (phys / 4096 + count) % wordSize = phys / 4096 + count :=
    Nat.mod_eq_of_lt (by simp only [wordSize]; omega)
  simp only [pmmFreePages, pageSize, Pmm.mem_freeSet, Set.mem_union, mem_frameRange, hmod]
  by_cases hzero : count = 0
  · rw [if_pos hzero]
    constructor
    · exact Or.inl
    · rintro (h | ⟨h, h'⟩)
      · exact h
      · omega
  · rw [if_neg hzero, if_neg (by omega), if_neg (by omega)]
    by_cases hp : p < s.totalPages
    · simp only [Pmm.Free, Pmm.isClear, bitmapCheckBit_unsetRange s.bitmap
        (show phys / 4096 + (phys / 4096 + count - phys / 4096) ≤ 2 ^ 31 by omega)
        (show p < 2 ^ 31 by omega), hp, true_and]
      rw [show phys / 4096 + (phys / 4096 + count - phys / 4096) = phys / 4096 + count by omega]
      by_cases hpe : phys / 4096 ≤ p ∧ p < phys / 4096 + count <;> simp [hpe]
    · have : ¬ p < phys / 4096 + count := by omega
      simp [Pmm.Free, hp, this]

/-- Marking one frame as used removes exactly that frame. -/
theorem takeFrame_freeSet {i : ℕ} (hi : i < 2 ^ 31) :
    (s.takeFrame i).freeSet = s.freeSet \ {i} := by
  ext p
  simp only [Pmm.takeFrame, Pmm.mem_freeSet, Set.mem_sdiff, Set.mem_singleton_iff, Pmm.Free]
  by_cases hp : p < s.totalPages
  · simp only [Pmm.isClear, bitmapCheckBit_set s.bitmap hi (show p < 2 ^ 31 by omega), hp,
      true_and]
    by_cases hpe : p = i <;> simp [hpe]
  · simp [hp]

/-- The two possible outcomes of `pmm_alloc_pages`.

Either it takes a free range that starts at or behind the cursor, or no such range starts
there and nothing changes. Ranges that start before the cursor are not looked at. -/
theorem pmmAllocPages_cases {count : ℕ} (hcount : 0 < count)
    (hcursor : s.cachedIndex ≤ s.totalPages) :
    (∃ i, s.cachedIndex ≤ i ∧ i + count ≤ s.totalPages ∧ s.FreeRange i count ∧
        (pmmAllocPages s count).1 = i * 4096 ∧
        (pmmAllocPages s count).2.freeSet = s.freeSet \ frameRange i count ∧
        (pmmAllocPages s count).2.cachedIndex = i + count) ∨
      ((∀ i, s.cachedIndex ≤ i → ¬ s.FreeRange i count) ∧ pmmAllocPages s count = (0, s)) := by
  unfold pmmAllocPages
  rw [if_neg (by omega)]
  split
  · next i hfound =>
    obtain ⟨hrun, hhigh, _, hlow⟩ := findRun_some (Or.inl rfl) hfound
    refine Or.inl ⟨i, by omega, by omega, fun q hq => ⟨?_, hrun q hq.1 hq.2⟩, rfl, ?_, rfl⟩
    · have := hq.2
      omega
    · ext p
      simp only [Pmm.mem_freeSet, Set.mem_sdiff, mem_frameRange, Pmm.Free]
      by_cases hp : p < s.totalPages
      · simp only [Pmm.isClear, bitmapCheckBit_setRange s.bitmap
          (show i + count ≤ 2 ^ 31 by omega) (show p < 2 ^ 31 by omega), hp, true_and]
        by_cases hpe : i ≤ p ∧ p < i + count <;> simp [hpe]
      · simp [hp]
  · next hnone =>
    refine Or.inr ⟨fun i hi hrange => ?_, rfl⟩
    have hlast := (hrange (i + count - 1) ⟨by omega, by omega⟩).1
    exact findRun_none_of_start hcount hnone i hi (by omega)
      fun q hq hq' => (hrange q ⟨hq, hq'⟩).2

end Specifications

/-- Freeing a page moves nothing but bits and the cursor, and the cursor only down. -/
theorem pmmFreePage_layout (s : Pmm) (phys : ℕ) :
    SameLayout s (pmmFreePage s phys) ∧ (pmmFreePage s phys).cachedIndex ≤ s.cachedIndex := by
  simp only [pmmFreePage]
  split
  · exact ⟨SameLayout.refl s, Nat.le_refl _⟩
  · refine ⟨⟨rfl, rfl, rfl, rfl⟩, ?_⟩
    dsimp only
    split <;> omega

/-- Freeing a range moves nothing but bits and the cursor, and the cursor only down. -/
theorem pmmFreePages_layout (s : Pmm) (phys count : ℕ) :
    SameLayout s (pmmFreePages s phys count) ∧
      (pmmFreePages s phys count).cachedIndex ≤ s.cachedIndex := by
  simp only [pmmFreePages]
  split
  · exact ⟨SameLayout.refl s, Nat.le_refl _⟩
  · split
    · exact ⟨SameLayout.refl s, Nat.le_refl _⟩
    · refine ⟨⟨rfl, (unsetRange_layout _ _ _).1, (unsetRange_layout _ _ _).2, rfl⟩, ?_⟩
      dsimp only
      split <;> omega

/-- Allocating a page moves nothing but bits and the cursor. -/
theorem pmmAllocPage_layout (s : Pmm) : SameLayout s (pmmAllocPage s).2 := by
  unfold pmmAllocPage
  split
  · exact ⟨rfl, rfl, rfl, rfl⟩
  · split
    · exact ⟨rfl, rfl, rfl, rfl⟩
    · exact SameLayout.refl s

/-- Allocating a range moves nothing but bits and the cursor. -/
theorem pmmAllocPages_layout (s : Pmm) (count : ℕ) : SameLayout s (pmmAllocPages s count).2 := by
  unfold pmmAllocPages
  split
  · exact SameLayout.refl s
  · split
    · exact ⟨rfl, (setRange_layout _ _ _).1, (setRange_layout _ _ _).2, rfl⟩
    · exact SameLayout.refl s

end Flos.Mm
