import Flos.Lib.RadixWalk
import Flos.Mm.KernelAlloc

/-!
# The x86-64 page tables

The page-table routines over physical memory. A table is named by the physical address of its
frame; the code reaches it through the higher-half mapping, which is a fixed bijection and is
left out. Flags, masks and index arithmetic are those of the source, as are the results: `0`
for a failed step, else the size of the page that was mapped.
-/

namespace Flos.Mm

open Flos.Lib

/-- `PAGE_PRESENT`: the entry is in use. -/
abbrev pagePresent : ℕ := 1 <<< 0

/-- `PAGE_RW`: writes are allowed. -/
abbrev pageRw : ℕ := 1 <<< 1

/-- `PAGE_USER`: user mode may use the entry. -/
abbrev pageUser : ℕ := 1 <<< 2

/-- `PAGE_PWT`. -/
abbrev pagePwt : ℕ := 1 <<< 3

/-- `PAGE_PCD`: not cached. -/
abbrev pagePcd : ℕ := 1 <<< 4

/-- `PAGE_XD`: no execution. -/
abbrev pageXd : ℕ := 1 <<< 63

/-- `PDE_PS`: a page of 2 MiB. -/
abbrev pdePs : ℕ := 1 <<< 7

/-- `PDPTE_PS`: a page of 1 GiB. -/
abbrev pdptePs : ℕ := 1 <<< 7

/-- `MMU_FLAG_PRESENT`. -/
abbrev mmuFlagPresent : ℕ := 1 <<< 0

/-- `MMU_FLAG_WRITE`. -/
abbrev mmuFlagWrite : ℕ := 1 <<< 1

/-- `MMU_FLAG_USER`. -/
abbrev mmuFlagUser : ℕ := 1 <<< 2

/-- `MMU_FLAG_NO_EXEC`. -/
abbrev mmuFlagNoExec : ℕ := 1 <<< 3

/-- `MMU_FLAG_UC`: not cached. -/
abbrev mmuFlagUc : ℕ := 1 <<< 4

/-- `MMU_FLAG_HUGE_OK`: larger pages may be used. -/
abbrev mmuFlagHugeOk : ℕ := 1 <<< 5

/-- `PAGE_PHYS_MASK`. -/
abbrev pagePhysMask : ℕ := 0x000FFFFFFFFFF000

/-- Nine address bits from `shift` on: the `GET_*_IDX` macros. -/
def tableIdx (shift vaddr : ℕ) : Fin 512 := Fin.ofNat 512 (vaddr >>> shift)

/-- `GET_PML4_IDX`. -/
def pml4Idx (vaddr : ℕ) : Fin 512 := tableIdx 39 vaddr

/-- `GET_PDPT_IDX`. -/
def pdptIdx (vaddr : ℕ) : Fin 512 := tableIdx 30 vaddr

/-- `GET_PD_IDX`. -/
def pdIdx (vaddr : ℕ) : Fin 512 := tableIdx 21 vaddr

/-- `GET_PT_IDX`. -/
def ptIdx (vaddr : ℕ) : Fin 512 := tableIdx 12 vaddr

/-- `struct page_table_t`: the object's own address and the frame of its PML4. -/
structure PageTable where
  obj : ℕ
  pml4Phy : ℕ
  deriving DecidableEq, Repr

section Walks

variable {S : Type*} (A : KernelAlloc S)

/-- `get_next_level`. -/
def getNextLevel (currentTable : ℕ) (index : Fin 512) (allocate : Bool) (s : Machine S) :
    Option ℕ × Machine S :=
  let entry := s.mem currentTable index
  if entry &&& pagePresent ≠ 0 then
    if entry &&& pdePs ≠ 0 ∨ entry &&& pdptePs ≠ 0 then (none, s)
    else (some (entry &&& pagePhysMask), s)
  else if !allocate then (none, s)
  else
    let r := s.allocPage A
    if r.1 = 0 then (none, r.2)
    else
      let s := r.2.zeroFrame r.1
      (some r.1,
        { s with mem := writeSlot s.mem currentTable index (r.1 ||| pagePresent ||| pageRw ||| pageUser) })

/-- The chain of `get_next_level` calls at the head of every walk: stop at the first `NULL`. -/
def descend (allocate : Bool) : ℕ → List (Fin 512) → Machine S → Option ℕ × Machine S
  | table, [], s => (some table, s)
  | table, index :: path, s =>
    match getNextLevel A table index allocate s with
    | (none, s) => (none, s)
    | (some next, s) => descend allocate next path s

/-- `parse_common_flags`. -/
def parseCommonFlags (flags : ℕ) : ℕ :=
  let archFlags := pagePresent
  let archFlags := if flags &&& mmuFlagWrite ≠ 0 then archFlags ||| pageRw else archFlags
  let archFlags := if flags &&& mmuFlagUser ≠ 0 then archFlags ||| pageUser else archFlags
  let archFlags :=
    if flags &&& mmuFlagUc ≠ 0 then (archFlags ||| pagePcd) &&& (wordSize - 1 - pagePwt) else archFlags
  if flags &&& mmuFlagNoExec ≠ 0 then archFlags ||| pageXd else archFlags

/-- The common body of `map`, `map_2m` and `map_1g`: walk, allocating tables, and write a leaf. -/
def mapLeaf (table : ℕ) (path : List (Fin 512)) (index : Fin 512) (entry size : ℕ) (s : Machine S) :
    ℕ × Machine S :=
  match descend A true table path s with
  | (none, s) => (0, s)
  | (some t, s) => (size, { s with mem := writeSlot s.mem t index entry })

/-- `map`: install a 4 KiB leaf. -/
def map (table virt phys archFlags : ℕ) (s : Machine S) : ℕ × Machine S :=
  mapLeaf A table [pml4Idx virt, pdptIdx virt, pdIdx virt] (ptIdx virt) (phys ||| archFlags)
    pageSize s

/-- `map_2m`: install a 2 MiB leaf. -/
def map2m (table virt phys archFlags : ℕ) (s : Machine S) : ℕ × Machine S :=
  mapLeaf A table [pml4Idx virt, pdptIdx virt] (pdIdx virt) (phys ||| archFlags) pageSize2M s

/-- `map_1g`: install a 1 GiB leaf. -/
def map1g (table virt phys archFlags : ℕ) (s : Machine S) : ℕ × Machine S :=
  mapLeaf A table [pml4Idx virt] (pdptIdx virt) (phys ||| archFlags) pageSize1G s

/-- `map_huge_ok`: the largest leaf that alignment and the remaining length allow. -/
def mapHugeOk (table virt phys archFlags remain : ℕ) (s : Machine S) : ℕ × Machine S :=
  if phys % pageSize1G = 0 ∧ virt % pageSize1G = 0 ∧ remain ≥ pageSize1G then
    map1g A table virt phys (archFlags ||| pdptePs) s
  else if phys % pageSize2M = 0 ∧ virt % pageSize2M = 0 ∧ remain ≥ pageSize2M then
    map2m A table virt phys (archFlags ||| pdePs) s
  else map A table virt phys archFlags s

/-- The loop of `pmap_map_range`, with at most `fuel` iterations left. -/
def mapRangeLoop (table flags archFlags : ℕ) :
    (fuel virt phys remain mapped : ℕ) → Machine S → ℕ × Machine S
  | 0, _, _, _, mapped, s => (mapped, s)
  | fuel + 1, virt, phys, remain, mapped, s =>
    if remain = 0 then (mapped, s)
    else
      let r :=
        if flags &&& mmuFlagHugeOk ≠ 0 then mapHugeOk A table virt phys archFlags remain s
        else map A table virt phys archFlags s
      if r.1 = 0 then (mapped, r.2)
      else
        mapRangeLoop table flags archFlags fuel ((virt + r.1) % wordSize) ((phys + r.1) % wordSize)
          (remain - r.1) (mapped + r.1) r.2

/-- The length that `pmap_map_range` computes from a range, in 64-bit arithmetic. -/
def roundedLength (virt remain : ℕ) : ℕ :=
  (alignUp ((virt + remain) % wordSize) pageSize + wordSize - alignDown virt pageSize) % wordSize

/-- `pmap_map_range`. Each iteration maps at least one page, so a fuel of one per page is enough. -/
def pmapMapRange (table virt phys flags remain : ℕ) (s : Machine S) : ℕ × Machine S :=
  let remain := roundedLength virt remain
  mapRangeLoop A table flags (parseCommonFlags flags) (remain / pageSize)
    (alignDown virt pageSize) (alignDown phys pageSize) remain 0 s

/-- `pmap_map_page`. -/
def pmapMapPage (table virt phys flags : ℕ) (s : Machine S) : ℕ × Machine S :=
  map A table (alignDown virt pageSize) (alignDown phys pageSize) (parseCommonFlags flags) s

/-- `pmap_unmap_page`. -/
def pmapUnmapPage (table virt : ℕ) (s : Machine S) : ℕ × Machine S :=
  match descend A false table [pml4Idx virt, pdptIdx virt, pdIdx virt] s with
  | (none, s) => (0, s)
  | (some pt, s) =>
    (s.mem pt (ptIdx virt) &&& pagePhysMask,
      { s with mem := writeSlot s.mem pt (ptIdx virt) 0 })

/-- `pmap_copy_kernel_mappings`, also the copy loop of `pmap_create_table`: share the upper half
of the kernel's PML4. -/
def pmapCopyKernelMappings (kernel : Option PageTable) (table : ℕ) (s : Machine S) : Machine S :=
  match kernel with
  | none => s
  | some k =>
    { s with
      mem := Function.update s.mem table fun i =>
        if 256 ≤ i.val then s.mem k.pml4Phy i else s.mem table i }

/-- `pmap_create_table`; `kernel` is the kernel's own page table once it exists. -/
def pmapCreateTable (kernel : Option PageTable) (s : Machine S) : Option PageTable × Machine S :=
  let r := s.allocPage A
  if r.1 = 0 then (none, r.2)
  else
    let s := pmapCopyKernelMappings kernel r.1 (r.2.zeroFrame r.1)
    let o := s.cacheAlloc A .pageTableCache
    if o.1 = 0 then (none, o.2.freePage A r.1)
    else (some ⟨o.1, r.1⟩, o.2)

/-- All slots of a table, in order. -/
def allSlots : List (Fin 512) := List.finRange 512

/-- The slots of the user half of a PML4, in order. -/
def userSlots : List (Fin 512) := allSlots.filter fun i => i.val < 256

/-- One teardown loop of `pmap_destroy_table`: for each present entry first the loop below it,
then the frame it names. The loop over a page directory has no loop below. -/
def freeTables : (depth : ℕ) → (table : ℕ) → List (Fin 512) → Machine S → Machine S
  | 0, _, _, s => s
  | depth + 1, table, slots, s =>
    slots.foldl
      (fun s index =>
        let entry := s.mem table index
        if entry &&& pagePresent = 0 then s
        else
          (freeTables depth (entry &&& pagePhysMask) allSlots s).freePage A (entry &&& pagePhysMask))
      s

/-- `pmap_destroy_table`: three nested loops, the outermost over the user half only. -/
def pmapDestroyTable (table : PageTable) (s : Machine S) : Machine S :=
  let s := freeTables A 3 table.pml4Phy userSlots s
  (s.freePage A table.pml4Phy).cacheFree A .pageTableCache table.obj

end Walks

end Flos.Mm
