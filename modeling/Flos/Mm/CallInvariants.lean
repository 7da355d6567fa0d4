import Flos.Mm.PmapRange
import Flos.Mm.VmMapAreas

/-!
# What all allocator calls keep

The page-table and address-space code changes the machine through memory writes and calls of the
allocators only. A property that every write and every call keeps is therefore kept by each of its
functions; where a function frees frames, the rule asks for the frames that the page table names.
-/

namespace Flos.Mm

open Flos.Lib

/-- A property of the machine that memory writes and allocator calls keep; `free` are the frames
that may be freed. -/
structure CallInvariant {S : Type*} (A : KernelAlloc S) (free : ℕ → Prop) (P : Machine S → Prop) :
    Prop where
  setMem : ∀ s mem, P s → P ⟨mem, s.alloc, s.log⟩
  allocPage : ∀ s, P s → P (s.allocPage A).2
  freePage : ∀ s f, free f → P s → P (s.freePage A f)
  cacheAlloc : ∀ s c, P s → P (s.cacheAlloc A c).2
  cacheFree : ∀ s c a, P s → P (s.cacheFree A c a)

/-- Every call extends the log. -/
theorem callInvariant_log {S : Type*} (A : KernelAlloc S) (log : List MemEvent) :
    CallInvariant A (fun _ => True) fun s => log <+: s.log where
  setMem _ _ h := h
  allocPage _ h := h.trans (List.prefix_append _ _)
  freePage _ _ _ h := h.trans (List.prefix_append _ _)
  cacheAlloc _ _ h := h.trans (List.prefix_append _ _)
  cacheFree _ _ _ h := h.trans (List.prefix_append _ _)

/-- The unmapping loop keeps what unmapping a page and freeing certain frames keep, when the pages of its
range name only such frames. -/
theorem unmapPages_keeps {S : Type*} {A : KernelAlloc S} {free : ℕ → Prop} {P : Machine S → Prop}
    {s : Machine S} {table endAddr : ℕ} (hunmap : ∀ s va, P s → P (pmapUnmapPage A table va s).2)
    (hrelease : ∀ s f, free f → P s → P (s.freePage A f)) (hend : endAddr + 4096 ≤ wordSize) (fuel : ℕ)
    {va : ℕ} (hfree : ∀ x f, va ≤ x → x < endAddr → PageLeaf s.mem table x f → f ≠ 0 → free f)
    (hs : P s) : P (unmapPages A table endAddr fuel va s) := by
  induction fuel generalizing va s with
  | zero => exact hs
  | succ fuel ih =>
    rw [Mm.unmapPages]
    split
    next hva =>
      have hnext : (va + 0x1000) % wordSize = va + 0x1000 := Nat.mod_eq_of_lt (by omega)
      have hclear := hunmap s va hs
      rw [hnext]
      rcases pmapUnmapPage_cases A table va s with ⟨-, hr⟩ | ⟨t, ht, hr⟩
      · simp only [hr, ne_eq, not_true, if_false]
        exact ih (fun x f hx => hfree x f (by omega)) hs
      · rw [hr] at hclear
        have hrest : ∀ x f, va + 0x1000 ≤ x → x < endAddr →
            PageLeaf (writeSlot s.mem t (ptIdx va) 0) table x f → f ≠ 0 → free f :=
          fun x f hx hlt hleaf hne => hfree x f (by omega) hlt (hleaf.of_clear hne) hne
        simp only [hr]
        split
        next hne =>
          exact ih hrest (hrelease _ _ (hfree va _ le_rfl hva ⟨t, ht, rfl⟩ hne) hclear)
        next => exact ih hrest hclear
    next => exact hs

namespace CallInvariant

variable {S : Type*} {A : KernelAlloc S} {free : ℕ → Prop} {P : Machine S → Prop} {s : Machine S}
  (h : CallInvariant A free P)

include h

/-! ## The page tables -/

/-- One level of a walk keeps it. -/
theorem getNextLevel (t : ℕ) (i : Fin 512) (hs : P s) : P (getNextLevel A t i true s).2 := by
  have halloc := h.allocPage s hs
  rcases getNextLevel_cases A t i s with ⟨f, -, hr⟩ | ⟨-, hr⟩ | ⟨-, -, hr⟩ | ⟨-, -, hr⟩
  · rwa [hr]
  · rwa [hr]
  · rwa [hr]
  · rw [hr]
    exact h.setMem _ _ halloc

/-- A walk keeps it. -/
theorem descend (path : List (Fin 512)) (t : ℕ) (hs : P s) : P (descend A true t path s).2 := by
  induction path generalizing t s with
  | nil => exact hs
  | cons i path ih =>
    have hlevel := h.getNextLevel t i hs
    rw [Mm.descend]
    rcases hr : Mm.getNextLevel A t i true s with ⟨_ | g, s'⟩
    · rwa [hr] at hlevel
    · rw [hr] at hlevel
      exact ih g hlevel

/-- Writing a leaf keeps it. -/
theorem mapLeaf (table : ℕ) (path : List (Fin 512)) (index : Fin 512) (entry size : ℕ) (hs : P s) :
    P (mapLeaf A table path index entry size s).2 := by
  have hwalk := h.descend path table hs
  rw [Mm.mapLeaf]
  rcases hr : Mm.descend A true table path s with ⟨_ | t, s'⟩
  · rwa [hr] at hwalk
  · rw [hr] at hwalk
    exact h.setMem _ _ hwalk

/-- Mapping a page keeps it. -/
theorem pmapMapPage (table virt phys flags : ℕ) (hs : P s) :
    P (pmapMapPage A table virt phys flags s).2 :=
  h.mapLeaf _ _ _ _ _ hs

/-- An iteration of `pmap_map_range` keeps it. -/
theorem mapStep (table flags archFlags virt phys remain : ℕ) (hs : P s) :
    P (mapStep A table flags archFlags virt phys remain s).2 := by
  rw [Mm.mapStep]
  split
  · rw [mapHugeOk]
    split
    · exact h.mapLeaf _ _ _ _ _ hs
    · split
      · exact h.mapLeaf _ _ _ _ _ hs
      · exact h.mapLeaf _ _ _ _ _ hs
  · exact h.mapLeaf _ _ _ _ _ hs

/-- The loop of `pmap_map_range` keeps it. -/
theorem mapRangeLoop (table flags archFlags fuel virt phys remain mapped : ℕ) (hs : P s) :
    P (mapRangeLoop A table flags archFlags fuel virt phys remain mapped s).2 := by
  induction fuel generalizing virt phys remain mapped s with
  | zero => exact hs
  | succ fuel ih =>
    have hstep := h.mapStep table flags archFlags virt phys remain hs
    rw [mapRangeLoop_succ]
    split
    · exact hs
    · split
      · exact hstep
      · exact ih _ _ _ _ hstep

/-- Mapping a range keeps it. -/
theorem pmapMapRange (table virt phys flags remain : ℕ) (hs : P s) :
    P (pmapMapRange A table virt phys flags remain s).2 :=
  h.mapRangeLoop _ _ _ _ _ _ _ _ hs

/-- Unmapping a page keeps it. -/
theorem pmapUnmapPage (table va : ℕ) (hs : P s) : P (pmapUnmapPage A table va s).2 := by
  rcases pmapUnmapPage_cases A table va s with ⟨-, hr⟩ | ⟨t, -, hr⟩
  · rwa [hr]
  · rw [hr]
    exact h.setMem _ _ hs

/-! ## Address spaces -/

/-- Sharing the kernel's mappings keeps it. -/
theorem pmapCopyKernelMappings (kernel : Option PageTable) (table : ℕ) (hs : P s) :
    P (pmapCopyKernelMappings kernel table s) := by
  cases kernel with
  | none => exact hs
  | some k => exact h.setMem _ _ hs

/-- Creating an address space keeps it. -/
theorem vmMapCreate {kernel : Option PageTable} {space : VmMap} {s' : Machine S}
    (hcreate : vmMapCreate A kernel s = (some space, s')) (hs : P s) : P s' := by
  have hrecord := h.cacheAlloc s .vmMapCache hs
  rw [Mm.vmMapCreate] at hcreate
  split at hcreate
  · cases hcreate
  split at hcreate
  · cases hcreate
  next table s₁ htable =>
    cases hcreate
    refine h.pmapCopyKernelMappings kernel table.pml4Phy ?_
    have hframe := h.allocPage _ hrecord
    simp only [Mm.pmapCreateTable] at htable
    split at htable
    · cases htable
    split at htable
    · cases htable
    · cases htable
      exact h.cacheAlloc _ _ (h.pmapCopyKernelMappings _ _ (h.setMem _ _ hframe))

/-- Allocating a region keeps it. -/
theorem vmMapAllocateRegion (space : VmMap) (start size flags : ℕ) (hs : P s) :
    P (vmMapAllocateRegion A space start size flags s).2.2 := by
  have hnode := h.cacheAlloc s .vmAreaCache hs
  rw [Mm.vmMapAllocateRegion]
  split
  · exact hs
  · rw [vmaAlloc]
    by_cases hfail : (s.cacheAlloc A .vmAreaCache).1 = 0
    · simpa only [hfail, if_true] using hnode
    · simpa only [hfail, if_false] using hnode

/-- Allocating anywhere keeps it. -/
theorem vmMapAllocate (space : VmMap) (size flags : ℕ) (hs : P s) :
    P (vmMapAllocate A space size flags s).2.2 := by
  rw [Mm.vmMapAllocate]
  split
  · exact hs
  · simp only [apply_ite Prod.snd, ite_self]
    exact h.vmMapAllocateRegion _ _ _ _ hs

/-- The unmapping loop keeps it when the frames named by the pages of its range may be freed. -/
theorem unmapPages {table endAddr : ℕ} (hend : endAddr + 4096 ≤ wordSize) (fuel : ℕ) {va : ℕ}
    (hfree : ∀ x f, va ≤ x → x < endAddr → PageLeaf s.mem table x f → f ≠ 0 → free f) (hs : P s) :
    P (unmapPages A table endAddr fuel va s) :=
  unmapPages_keeps (fun s va => h.pmapUnmapPage table va (s := s)) (fun s f => h.freePage s f) hend fuel
    hfree hs

/-- The area loop keeps it. -/
theorem freeAreas (start endAddr : ℕ) (areas : List VmArea) (hs : P s) :
    P (freeAreas A start endAddr areas s).2 := by
  induction areas generalizing s with
  | nil => exact hs
  | cons vma rest ih =>
    obtain ⟨pieces, s', hstep, heq⟩ := freeAreas_cons A start endAddr vma rest s
    rw [heq]
    refine ih ?_
    cases hstep
    case skip => exact hs
    case drop => exact h.cacheFree _ _ _ hs
    case split => exact h.cacheAlloc _ _ hs
    case truncate => exact h.cacheAlloc _ _ hs
    case trimEnd => exact hs
    case trimStart => exact hs

/-- Freeing a region keeps it when the frames named by the pages of the region may be freed. -/
theorem vmMapFreeRegion {space : VmMap} {start size : ℕ}
    (hend : (start + alignUp size pageSize) % wordSize + 4096 ≤ wordSize)
    (hfree : ∀ x f, start ≤ x → x < (start + alignUp size pageSize) % wordSize →
      PageLeaf s.mem space.pageTable.pml4Phy x f → f ≠ 0 → free f) (hs : P s) :
    P (vmMapFreeRegion A space start size s).2 := by
  rw [Mm.vmMapFreeRegion]
  split
  · exact hs
  · exact h.freeAreas _ _ _ (h.unmapPages hend _ hfree hs)

/-- A page fault keeps it. -/
theorem vmFaultHandler (space : VmMap) (faultAddress errorCode : ℕ) (hs : P s) :
    P (vmFaultHandler A space faultAddress errorCode s).2 := by
  have halloc := h.allocPage s hs
  simp only [Mm.vmFaultHandler]
  split
  · exact hs
  · split
    · exact hs
    · split
      · exact hs
      · split
        · exact halloc
        · exact h.pmapMapPage _ _ _ _ (h.setMem _ _ halloc)

end CallInvariant

end Flos.Mm
