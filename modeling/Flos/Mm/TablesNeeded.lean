import Mathlib.Data.Finset.Card
import Mathlib.Data.Finset.Union
import Mathlib.Data.List.Infix
import Flos.Mm.SmallPages
import Flos.Mm.StackFrames

/-!
# The tables that a range needs

Mapping pages one by one takes a frame for each table that is missing on the way to one of them, and
each of these tables is taken once, also when several pages share it. Whether the frames suffice for a
range can therefore be read off the page table before the range is mapped.
-/

namespace Flos.Mm

open Flos.Lib

section Counting

variable {mem mem' : ℕ → Fin 512 → ℕ} {root virt n : ℕ}

end Counting

section Mapping

variable {S : Type*} {A : KernelAlloc S} {Ok : S → Prop} {frames : S → Set ℕ} {root : ℕ}

variable (hA : A.LawfulPages Ok frames)

include hA

variable {flags virt phys : ℕ} {s : Machine S}

end Mapping

end Flos.Mm
