import Mathlib.Data.Nat.Notation
import Mathlib.Data.List.Pairwise

/-!
# Areas of length-prefixed records

An area holds records one behind another. Each begins with a header that gives the length of the whole
record. A reader stops at the first record that does not fit: one whose header is cut off by the end of
the area, that is shorter than a header, or that runs over the end.
-/

namespace Flos.Lib

/-- The record at `pos` fits into an area that ends at `fin`. -/
def RecordFits (len : ℕ → ℕ) (hdr fin pos : ℕ) : Prop :=
  pos + hdr ≤ fin ∧ hdr ≤ len pos ∧ pos + len pos ≤ fin

instance (len : ℕ → ℕ) (hdr fin pos : ℕ) : Decidable (RecordFits len hdr fin pos) :=
  inferInstanceAs (Decidable (_ ∧ _))

/-- The offsets of the records of an area, up to the first one that does not fit. A header is not
empty, so the offsets grow. -/
def recordOffsets (len : ℕ → ℕ) (hdr fin pos : ℕ) : List ℕ :=
  if RecordFits len hdr fin pos ∧ 0 < hdr then
    pos :: recordOffsets len hdr fin (pos + len pos)
  else []
termination_by fin - pos
decreasing_by
  next h =>
    obtain ⟨⟨hheader, hlen, -⟩, hpos⟩ := h
    omega

end Flos.Lib
