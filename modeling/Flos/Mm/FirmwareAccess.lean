import Flos.Mm.TablesNeeded
import Flos.Mm.VmMapSearch

/-!
# Access to firmware memory

`uacpi_kernel_map` asks the area list for addresses and maps physical memory there without looking at the
result. The area list knows nothing of the mappings that `init_pmap` has put into the lower half, so a huge
page of the identity map may be in the way, and the tables of the range may find no frames. Both can be read
off the page table before the call.
-/

namespace Flos.Mm

open Flos.Lib

section Pages

variable {S : Type*} {A : KernelAlloc S} {root virt phys n lo hi : ℕ}

end Pages

section Call

variable {S : Type*} (A : KernelAlloc S) (kernel : VmMap) (addr len : ℕ) (s : Machine S)

/-- The number of bytes of the pages that hold the requested memory. -/
def firmwareSize (addr len : ℕ) : ℕ := alignUp (addr % 4096 + len) pageSize

/-- Whole pages end where the areas of an address space do. -/
def EndsAligned (areas : List VmArea) : Prop := ∀ v ∈ areas, 4096 ∣ v.endAddr ∧ v.endAddr < wordSize

variable {A kernel addr len s}

end Call

end Flos.Mm
