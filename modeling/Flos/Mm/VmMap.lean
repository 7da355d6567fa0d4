import Flos.Mm.Pmap

/-!
# Address spaces

An address space has a page table and a list of areas. The list is linked through nodes of the
area cache, which are pairwise distinct objects, so it is a list of records here, each with the
address of its node; the surgery on `next` pointers becomes the corresponding list operation.
Sums of addresses and sizes are reduced to 64 bits as in the source.
-/

namespace Flos.Mm

/-- `VM_ALLOC_BASE`. -/
abbrev vmAllocBase : ℕ := 0x1000

/-- `vm_area_t` without its unused object; `node` is its own address. -/
structure VmArea where
  node : ℕ
  start : ℕ
  endAddr : ℕ
  flags : ℕ
  deriving DecidableEq, Repr

/-- `vm_map_t`; `addr` is its own address. -/
structure VmMap where
  addr : ℕ
  pageTable : PageTable
  areas : List VmArea
  deriving DecidableEq, Repr

/-- `vma_overlaps`. -/
def vmaOverlaps (areas : List VmArea) (start size : ℕ) : Bool :=
  let endAddr := (start + size) % wordSize
  areas.any fun vma => start < vma.endAddr && endAddr > vma.start

/-- `insert_vma`: in front of the first area that does not start below the new one. -/
def insertVma : List VmArea → VmArea → List VmArea
  | [], newVma => [newVma]
  | vma :: rest, newVma =>
    if vma.start < newVma.start then vma :: insertVma rest newVma else newVma :: vma :: rest

/-- The scan of `vm_map_allocate`: the candidate it stops with. -/
def findCandidate (size : ℕ) : List VmArea → ℕ → ℕ
  | [], candidate => candidate
  | vma :: rest, candidate =>
    if vma.start ≥ (candidate + size) % wordSize then candidate
    else findCandidate size rest (if vma.endAddr > candidate then vma.endAddr else candidate)

/-- `vm_map_lookup`. -/
def vmMapLookup (areas : List VmArea) (addr : ℕ) : Option VmArea :=
  areas.find? fun vma => addr ≥ vma.start && addr < vma.endAddr

/-- `map_user_vm_area_code_and_stack`: the areas of a user image, put in front of the list; `code`
and `stack` are the addresses of their nodes. -/
def mapUserVmAreaCodeAndStack (code stack : ℕ) (areas : List VmArea) : List VmArea :=
  let codeArea : VmArea := ⟨code, 0x1000, 0x1000 + 2 * pageSize, mmuFlagUser ||| mmuFlagPresent⟩
  let stackArea : VmArea :=
    ⟨stack, 0x3000, 0x5000, mmuFlagUser ||| mmuFlagWrite ||| mmuFlagPresent⟩
  stackArea :: codeArea :: areas

section Operations

variable {S : Type*} (A : KernelAlloc S)

/-- `vma_alloc`. -/
def vmaAlloc (start endAddr flags : ℕ) (s : Machine S) : Option VmArea × Machine S :=
  let r := s.cacheAlloc A .vmAreaCache
  if r.1 = 0 then (none, r.2) else (some ⟨r.1, start, endAddr, flags⟩, r.2)

/-- `vm_map_create`; `kernel` is the kernel's own page table once it exists. -/
def vmMapCreate (kernel : Option PageTable) (s : Machine S) : Option VmMap × Machine S :=
  let r := s.cacheAlloc A .vmMapCache
  if r.1 = 0 then (none, r.2)
  else
    match pmapCreateTable A kernel r.2 with
    | (none, s) => (none, s.cacheFree A .vmMapCache r.1)
    | (some table, s) => (some ⟨r.1, table, []⟩, pmapCopyKernelMappings kernel table.pml4Phy s)

/-- `vm_map_allocate_region`: the start of the new area, or `0`. -/
def vmMapAllocateRegion (space : VmMap) (start size flags : ℕ) (s : Machine S) :
    ℕ × VmMap × Machine S :=
  let size := alignUp size pageSize
  if vmaOverlaps space.areas start size then (0, space, s)
  else
    match vmaAlloc A start ((start + size) % wordSize) flags s with
    | (none, s) => (0, space, s)
    | (some vma, s) => (vma.start, { space with areas := insertVma space.areas vma }, s)

/-- `vm_map_allocate`: the start of the new area, or `0`. -/
def vmMapAllocate (space : VmMap) (size flags : ℕ) (s : Machine S) : ℕ × VmMap × Machine S :=
  if size = 0 then (0, space, s)
  else
    let size := alignUp size pageSize
    let candidate := findCandidate size space.areas vmAllocBase
    let r := vmMapAllocateRegion A space candidate size flags s
    if r.1 = 0 then (0, r.2) else (candidate, r.2)

/-- The loop that unmaps the pages from `va` below `endAddr` and frees what they mapped, with at
most `fuel` iterations left. -/
def unmapPages (table endAddr : ℕ) : (fuel va : ℕ) → Machine S → Machine S
  | 0, _, s => s
  | fuel + 1, va, s =>
    if va < endAddr then
      let r := pmapUnmapPage A table va s
      let s := if r.1 ≠ 0 then r.2.freePage A r.1 else r.2
      unmapPages table endAddr fuel ((va + 0x1000) % wordSize) s
    else s

/-- The number of pages from `va` below `endAddr`. -/
def pagesBetween (va endAddr : ℕ) : ℕ := (endAddr - va + 0xFFF) / 0x1000

/-- The area loop of `vm_map_free_region`: skip, drop, split, trim at the end, trim at the start. -/
def freeAreas (start endAddr : ℕ) : List VmArea → Machine S → List VmArea × Machine S
  | [], s => ([], s)
  | vma :: rest, s =>
    if vma.endAddr ≤ start ∨ vma.start ≥ endAddr then
      let r := freeAreas start endAddr rest s
      (vma :: r.1, r.2)
    else if vma.start ≥ start ∧ vma.endAddr ≤ endAddr then
      freeAreas start endAddr rest (s.cacheFree A .vmAreaCache vma.node)
    else if vma.start < start ∧ vma.endAddr > endAddr then
      match vmaAlloc A endAddr vma.endAddr vma.flags s with
      | (some tail, s) =>
        let r := freeAreas start endAddr rest s
        ({ vma with endAddr := start } :: tail :: r.1, r.2)
      | (none, s) =>
        -- no node for the tail: the area is truncated
        let r := freeAreas start endAddr rest s
        ({ vma with endAddr := start } :: r.1, r.2)
    else if vma.start < start then
      let r := freeAreas start endAddr rest s
      ({ vma with endAddr := start } :: r.1, r.2)
    else
      let r := freeAreas start endAddr rest s
      ({ vma with start := endAddr } :: r.1, r.2)

/-- `vm_map_free_region`. -/
def vmMapFreeRegion (space : VmMap) (start size : ℕ) (s : Machine S) : VmMap × Machine S :=
  if size = 0 then (space, s)
  else
    let size := alignUp size pageSize
    let endAddr := (start + size) % wordSize
    let s := unmapPages A space.pageTable.pml4Phy endAddr (pagesBetween start endAddr) start s
    let r := freeAreas A start endAddr space.areas s
    ({ space with areas := r.1 }, r.2)

/-- The loop of `vm_map_destroy` over the areas. -/
def destroyAreas (table : ℕ) : List VmArea → Machine S → Machine S
  | [], s => s
  | vma :: rest, s =>
    let s := unmapPages A table vma.endAddr (pagesBetween vma.start vma.endAddr) vma.start s
    destroyAreas table rest (s.cacheFree A .vmAreaCache vma.node)

/-- `vm_map_destroy`. -/
def vmMapDestroy (space : VmMap) (s : Machine S) : Machine S :=
  let s := destroyAreas A space.pageTable.pml4Phy space.areas s
  (pmapDestroyTable A space.pageTable s).cacheFree A .vmMapCache space.addr

/-- How a page fault ends. -/
inductive FaultOutcome
  | handled
  | segfault
  deriving DecidableEq, Repr

/-- `vm_fault_handler`, up to the report and the end of the task after a segmentation fault. -/
def vmFaultHandler (space : VmMap) (faultAddress errorCode : ℕ) (s : Machine S) :
    FaultOutcome × Machine S :=
  match vmMapLookup space.areas faultAddress with
  | none => (.segfault, s)
  | some _ =>
    if errorCode &&& 1 <<< 0 ≠ 0 then (.handled, s)
    else
      let va := alignDown faultAddress pageSize
      match vmMapLookup space.areas va with
      | none => (.segfault, s)
      | some vma =>
        let r := s.allocPage A
        if r.1 = 0 then (.segfault, r.2)
        else
          let s := r.2.zeroFrame r.1
          (.handled, (pmapMapPage A space.pageTable.pml4Phy va r.1 vma.flags s).2)

end Operations

end Flos.Mm
