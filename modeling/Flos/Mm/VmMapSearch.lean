import Flos.Lib.FirstFit
import Flos.Mm.VmMapAreas
import Mathlib.Data.Multiset.AddSub

/-!
# Choosing addresses

`vm_map_allocate` is a first-fit scan over the area list followed by an insertion at a fixed place.
Where the scan finds a gap that ends below `2 ^ 64`, this gap is the lowest one and the insertion
succeeds there. Otherwise its sums wrap, the overlap test sees nothing, and an area that ends before
it starts is inserted; the insertion at a fixed place goes wrong in the same way, and also for an
empty range, and its result cannot tell an area at address `0` from a failure.
-/

namespace Flos.Mm

open Flos.Lib

/-- Areas in order; an area may be empty. -/
def AreasInOrder (areas : List VmArea) : Prop := InOrder VmArea.start VmArea.endAddr areas

/-- The fields of the areas are words. -/
def AreasWords (areas : List VmArea) : Prop := ∀ v ∈ areas, v.endAddr < wordSize

/-- No area meets the `size` bytes from `addr` on. -/
def AreaGap (areas : List VmArea) (addr size : ℕ) : Prop :=
  Gap VmArea.start VmArea.endAddr areas addr size

/-- One area is inserted, with the others as before. -/
def Inserted (areas areas' : List VmArea) (new : VmArea) : Prop :=
  ∃ before after, areas = before ++ after ∧ areas' = before ++ new :: after

/-- A result of an allocation of `size` bytes: `0` and nothing done, or the start of a new area that
is as large as asked for and disjoint from the others. -/
def AtomicResult (areas : List VmArea) (size : ℕ) {S : Type*} (r : ℕ × VmMap × Machine S) : Prop :=
  (r.1 = 0 ∧ r.2.1.areas = areas) ∨
    0 < r.1 ∧ ∃ new, Inserted areas r.2.1.areas new ∧ new.start = r.1 ∧ new.start < new.endAddr ∧
      size ≤ new.endAddr - new.start ∧
      ∀ v ∈ areas, Disjoint (Set.Ico new.start new.endAddr) (Set.Ico v.start v.endAddr)

/-- No node is left for an area. -/
def NodeFails {S : Type*} (A : KernelAlloc S) (s : Machine S) : Prop := (s.cacheAlloc A .vmAreaCache).1 = 0

instance {S : Type*} (A : KernelAlloc S) (s : Machine S) : Decidable (NodeFails A s) :=
  inferInstanceAs (Decidable (_ = 0))

/-! ## Rounding -/

/-- Rounding in the code, with its wrap. -/
theorem alignUp_eq_pageCeil_mod (size : ℕ) : alignUp size pageSize = pageCeil size % wordSize := by
  rw [alignUp_page, pageCeil]
  simp only [wordSize]
  omega

/-- Rounding up makes no size smaller. -/
theorem le_pageCeil (size : ℕ) : size ≤ pageCeil size := by
  simp only [pageCeil]
  omega

/-! ## The scan -/

/-- The scan of `vm_map_allocate` is the wrapped first-fit scan. -/
theorem findCandidate_eq (size : ℕ) (areas : List VmArea) (c : ℕ) :
    findCandidate size areas c = firstFitMod VmArea.start VmArea.endAddr wordSize size areas c := by
  induction areas generalizing c with
  | nil => rfl
  | cons v rest ih =>
    rw [findCandidate, firstFitMod, ih]
    congr 2
    by_cases h : v.endAddr > c
    · rw [if_pos h, max_eq_right h.le]
    · rw [if_neg h, max_eq_left (not_lt.mp h)]

/-- The overlap test, unfolded. -/
theorem vmaOverlaps_eq_false_iff {areas : List VmArea} {start size : ℕ} :
    vmaOverlaps areas start size = false ↔
      ∀ v ∈ areas, v.endAddr ≤ start ∨ (start + size) % wordSize ≤ v.start := by
  simp only [vmaOverlaps, List.any_eq_false, Bool.and_eq_true, decide_eq_true_eq, not_and_or, not_lt]

/-- The scan finds the lowest gap, or wraps; the overlap test accepts its candidate either way. -/
theorem findCandidate_spec {areas : List VmArea} (horder : AreasInOrder areas)
    (hwords : AreasWords areas) (size c : ℕ) :
    vmaOverlaps areas (findCandidate size areas c) size = false ∧
      c ≤ findCandidate size areas c ∧
      (findCandidate size areas c + size < wordSize ↔
        ∃ a, c ≤ a ∧ a + size < wordSize ∧ AreaGap areas a size) ∧
      (findCandidate size areas c + size < wordSize →
        IsLeast {a | c ≤ a ∧ AreaGap areas a size} (findCandidate size areas c)) := by
  rw [findCandidate_eq]
  by_cases hfit : firstFit VmArea.start VmArea.endAddr size areas c + size < wordSize
  · rw [firstFitMod_eq hfit]
    have hleast := isLeast_firstFit horder size c
    refine ⟨vmaOverlaps_eq_false_iff.mpr fun v hv => ?_, hleast.1.1, ?_, fun _ => hleast⟩
    · rw [Nat.mod_eq_of_lt hfit]
      exact hleast.1.2 v hv
    · refine iff_of_true hfit ⟨_, hleast.1.1, hfit, hleast.1.2⟩
  · obtain ⟨hwrap, hout⟩ := firstFitMod_wraps horder hwords (not_lt.mp hfit)
    refine ⟨vmaOverlaps_eq_false_iff.mpr hout, le_firstFitMod _ _ _ _,
      iff_of_false hwrap.not_gt ?_, fun h => absurd h hwrap.not_gt⟩
    rintro ⟨a, hc, ha, hgap⟩
    exact hfit ((Nat.add_le_add_right (firstFit_le hc hgap) size).trans_lt ha)

/-- The scan ends at its first candidate or at the end of an area. -/
theorem findCandidate_cases (size : ℕ) (areas : List VmArea) (c : ℕ) :
    findCandidate size areas c = c ∨ ∃ v ∈ areas, findCandidate size areas c = v.endAddr := by
  induction areas generalizing c with
  | nil => exact .inl rfl
  | cons v rest ih =>
    rw [findCandidate]
    split_ifs
    · exact .inl rfl
    · right
      rcases ih v.endAddr with h | ⟨w, hw, h⟩
      · exact ⟨v, List.mem_cons_self, h⟩
      · exact ⟨w, List.mem_cons_of_mem v hw, h⟩
    · exact (ih c).imp_right fun ⟨w, hw, h⟩ => ⟨w, List.mem_cons_of_mem v hw, h⟩

/-- A bound on all sums that the scan can make bounds its last one. -/
theorem findCandidate_add_lt {areas : List VmArea} {size c extra bound : ℕ} (hc : c + extra < bound)
    (hsums : ∀ v ∈ areas, v.endAddr + extra < bound) : findCandidate size areas c + extra < bound := by
  rcases findCandidate_cases size areas c with h | ⟨v, hv, h⟩
  · rwa [h]
  · rw [h]
    exact hsums v hv

/-! ## Insertion -/

/-- `insert_vma` inserts the area it is given. -/
theorem inserted_insertVma (areas : List VmArea) (new : VmArea) :
    Inserted areas (insertVma areas new) new := by
  induction areas with
  | nil => exact ⟨[], [], rfl, rfl⟩
  | cons v rest ih =>
    obtain ⟨before, after, hold, hnew⟩ := ih
    rw [insertVma]
    split
    · exact ⟨v :: before, after, by rw [hold]; rfl, by rw [hnew]; rfl⟩
    · exact ⟨[], v :: rest, rfl, rfl⟩

/-- An insertion is a permutation. -/
theorem Inserted.perm {areas areas' : List VmArea} {new : VmArea} (h : Inserted areas areas' new) :
    areas'.Perm (new :: areas) := by
  obtain ⟨before, after, rfl, rfl⟩ := h
  exact List.perm_middle

/-- The inserted area is determined by the two lists. -/
theorem Inserted.unique {areas areas' : List VmArea} {new new' : VmArea}
    (h : Inserted areas areas' new) (h' : Inserted areas areas' new') : new = new' := by
  have hperm := Multiset.coe_eq_coe.mpr (h.perm.symm.trans h'.perm)
  rw [← Multiset.cons_coe, ← Multiset.cons_coe] at hperm
  exact (Multiset.cons_inj_left _).mp hperm

/-- An insertion changes the list. -/
theorem Inserted.ne {areas areas' : List VmArea} {new : VmArea} (h : Inserted areas areas' new) :
    areas' ≠ areas := by
  rintro rfl
  have hlength := h.perm.length_eq
  simp only [List.length_cons] at hlength
  omega

/-! ## Both calls -/

section Calls

variable {S : Type*} (A : KernelAlloc S) (space : VmMap) (flags : ℕ) (s : Machine S)

/-- The node that the next area gets. -/
def nextArea (start size : ℕ) : VmArea :=
  ⟨(s.cacheAlloc A .vmAreaCache).1, start, (start + alignUp size pageSize) % wordSize, flags⟩

/-- `vm_map_allocate_region` where nothing overlaps. -/
theorem vmMapAllocateRegion_of_not_overlaps (start size : ℕ)
    (hover : vmaOverlaps space.areas start (alignUp size pageSize) = false)
    (hnode : ¬ NodeFails A s) :
    vmMapAllocateRegion A space start size flags s =
      (start, { space with areas := insertVma space.areas (nextArea A flags s start size) },
        (s.cacheAlloc A .vmAreaCache).2) := by
  rw [vmMapAllocateRegion, hover]
  simp only [Bool.false_eq_true, if_false, vmaAlloc, show (s.cacheAlloc A .vmAreaCache).1 ≠ 0 from hnode]
  rfl

/-- `vm_map_allocate_region` where no area is inserted. -/
theorem vmMapAllocateRegion_of_fails (start size : ℕ)
    (h : vmaOverlaps space.areas start (alignUp size pageSize) = true ∨ NodeFails A s) :
    (vmMapAllocateRegion A space start size flags s).1 = 0 ∧
      (vmMapAllocateRegion A space start size flags s).2.1 = space := by
  rw [vmMapAllocateRegion]
  split
  · exact ⟨rfl, rfl⟩
  next hover =>
    have hnode : (s.cacheAlloc A .vmAreaCache).1 = 0 := h.resolve_left hover
    simp [vmaAlloc, hnode]

/-- An allocation at a fixed place changes the machine by a call for a node at most. -/
theorem vmMapAllocateRegion_machine (start size : ℕ) :
    (vmMapAllocateRegion A space start size flags s).2.1.pageTable = space.pageTable ∧
      ((vmMapAllocateRegion A space start size flags s).2.2 = s ∨
        (vmMapAllocateRegion A space start size flags s).2.2 = (s.cacheAlloc A .vmAreaCache).2) := by
  simp only [vmMapAllocateRegion, vmaAlloc]
  split_ifs
  · exact ⟨rfl, .inl rfl⟩
  · exact ⟨rfl, .inr rfl⟩
  · exact ⟨rfl, .inr rfl⟩

/-- An allocation of addresses changes the machine by a call for a node at most. -/
theorem vmMapAllocate_machine (size : ℕ) :
    (vmMapAllocate A space size flags s).2.1.pageTable = space.pageTable ∧
      ((vmMapAllocate A space size flags s).2.2 = s ∨
        (vmMapAllocate A space size flags s).2.2 = (s.cacheAlloc A .vmAreaCache).2) := by
  simp only [vmMapAllocate]
  split_ifs
  · exact ⟨rfl, .inl rfl⟩
  · exact vmMapAllocateRegion_machine A space flags s _ _
  · exact vmMapAllocateRegion_machine A space flags s _ _

/-- An allocation of addresses leaves memory and the page table as they are. -/
theorem vmMapAllocate_frame (size : ℕ) :
    (vmMapAllocate A space size flags s).2.2.mem = s.mem ∧
      (vmMapAllocate A space size flags s).2.1.pageTable = space.pageTable := by
  obtain ⟨htable, hmachine⟩ := vmMapAllocate_machine A space flags s size
  refine ⟨?_, htable⟩
  rcases hmachine with h | h <;> rw [h]
  rfl

/-- Spans that the overlap test accepts are disjoint as sets. -/
theorem disjoint_Ico_of_le {a b c d : ℕ} (h : d ≤ a ∨ b ≤ c) : Disjoint (Set.Ico a b) (Set.Ico c d) := by
  rw [Set.disjoint_left]
  rintro x ⟨h1, h2⟩ ⟨h3, h4⟩
  omega

/-- An area that the overlap test accepted is inserted as it should be exactly when neither its start is
`0` nor its length, and its end is a word. -/
theorem atomicResult_insertVma_iff {start size : ℕ} (hstart : start < wordSize) (hsize : size < wordSize)
    (hover : vmaOverlaps space.areas start (alignUp size pageSize) = false) (s' : Machine S) :
    AtomicResult space.areas size (start,
        ({ space with areas := insertVma space.areas (nextArea A flags s start size) } : VmMap), s') ↔
      0 < start ∧ 0 < size ∧ start + pageCeil size < wordSize := by
  have hins := inserted_insertVma space.areas (nextArea A flags s start size)
  have hout := vmaOverlaps_eq_false_iff.mp hover
  have hend : (nextArea A flags s start size).endAddr =
      (start + pageCeil size % wordSize) % wordSize := by rw [nextArea, alignUp_eq_pageCeil_mod]
  rw [alignUp_eq_pageCeil_mod] at hout
  constructor
  · rintro (⟨-, hsame⟩ | ⟨hpos, new, hins', hnew, hlt, -, -⟩)
    · exact absurd hsame hins.ne
    · obtain rfl := hins.unique hins'
      rw [hend, hnew] at hlt
      simp only [pageCeil, wordSize] at *
      omega
  · rintro ⟨hpos, hsize', hfit⟩
    have hceil := le_pageCeil size
    rw [Nat.mod_eq_of_lt (by omega : pageCeil size < wordSize), Nat.mod_eq_of_lt hfit] at hend hout
    have hlt : start < start + pageCeil size := Nat.lt_add_of_pos_right (pageCeil_pos hsize')
    refine .inr ⟨hpos, _, hins, rfl, ?_, ?_, fun v hv => ?_⟩
    · rw [hend]
      exact hlt
    · rw [hend]
      exact hceil.trans (Nat.le_sub_of_add_le' le_rfl)
    · rw [hend]
      exact disjoint_Ico_of_le (hout v hv)

/-- The insertion at a fixed place is atomic exactly when the range meets an area, no node is left, or
the range is not empty, does not start at `0` and ends below `2 ^ 64`. -/
theorem vmMapAllocateRegion_atomic_iff {start size : ℕ} (hstart : start < wordSize)
    (hsize : size < wordSize) :
    AtomicResult space.areas size (vmMapAllocateRegion A space start size flags s) ↔
      vmaOverlaps space.areas start (alignUp size pageSize) = true ∨ NodeFails A s ∨
        0 < start ∧ 0 < size ∧ start + pageCeil size < wordSize := by
  by_cases hover : vmaOverlaps space.areas start (alignUp size pageSize) = true
  · obtain ⟨hzero, hsame⟩ := vmMapAllocateRegion_of_fails A space flags s start size (.inl hover)
    exact iff_of_true (.inl ⟨hzero, by rw [hsame]⟩) (.inl hover)
  by_cases hnode : NodeFails A s
  · obtain ⟨hzero, hsame⟩ := vmMapAllocateRegion_of_fails A space flags s start size (.inr hnode)
    exact iff_of_true (.inl ⟨hzero, by rw [hsame]⟩) (.inr (.inl hnode))
  · have hfree := Bool.eq_false_iff.mpr hover
    rw [vmMapAllocateRegion_of_not_overlaps A space flags s start size hfree hnode,
      atomicResult_insertVma_iff A space flags s hstart hsize hfree]
    simp only [hover, hnode, false_or, Bool.false_eq_true]

/-- `vm_map_allocate` where no node is left. -/
theorem vmMapAllocate_of_fails {size : ℕ} (h : size = 0 ∨ NodeFails A s) :
    (vmMapAllocate A space size flags s).1 = 0 ∧ (vmMapAllocate A space size flags s).2.1 = space := by
  rw [vmMapAllocate]
  split
  · exact ⟨rfl, rfl⟩
  next hsize =>
    obtain ⟨hzero, hsame⟩ := vmMapAllocateRegion_of_fails A space flags s
      (findCandidate (alignUp size pageSize) space.areas vmAllocBase) (alignUp size pageSize)
      (.inr (h.resolve_left hsize))
    simp only [hzero, if_true]
    exact ⟨trivial, hsame⟩

variable {space}

/-- `vm_map_allocate` where a node is left: an area is inserted at the candidate of the scan. -/
theorem vmMapAllocate_of_node (horder : AreasInOrder space.areas) (hwords : AreasWords space.areas)
    {size : ℕ} (hsize : size ≠ 0) (hnode : ¬ NodeFails A s) :
    vmMapAllocate A space size flags s =
      (findCandidate (alignUp size pageSize) space.areas vmAllocBase,
        { space with areas := insertVma space.areas (nextArea A flags s
          (findCandidate (alignUp size pageSize) space.areas vmAllocBase) size) },
        (s.cacheAlloc A .vmAreaCache).2) := by
  obtain ⟨hover, hbase, -, -⟩ :=
    findCandidate_spec horder hwords (alignUp size pageSize) vmAllocBase
  have htwice : alignUp (alignUp size pageSize) pageSize = alignUp size pageSize :=
    alignUp_page_of_dvd (alignUp_page_lt size) (dvd_alignUp_page size)
  have hne : findCandidate (alignUp size pageSize) space.areas vmAllocBase ≠ 0 :=
    (Nat.lt_of_lt_of_le (by decide) hbase).ne'
  have hregion := vmMapAllocateRegion_of_not_overlaps A space flags s
    (findCandidate (alignUp size pageSize) space.areas vmAllocBase) (alignUp size pageSize)
    (by rw [htwice]; exact hover) hnode
  rw [vmMapAllocate, if_neg hsize]
  simp only [hregion, hne, if_false, nextArea, htwice]

/-- `vm_map_allocate` is atomic exactly when it has nothing to do, no node is left, or some gap from
`VM_ALLOC_BASE` on is large enough and ends below `2 ^ 64`. -/
theorem vmMapAllocate_atomic_iff (horder : AreasInOrder space.areas) (hwords : AreasWords space.areas)
    {size : ℕ} (hsize : size < wordSize) :
    AtomicResult space.areas size (vmMapAllocate A space size flags s) ↔
      size = 0 ∨ NodeFails A s ∨ ∃ a, vmAllocBase ≤ a ∧ a + pageCeil size < wordSize ∧
        AreaGap space.areas a (pageCeil size) := by
  by_cases hfail : size = 0 ∨ NodeFails A s
  · obtain ⟨hzero, hsame⟩ := vmMapAllocate_of_fails A space flags s hfail
    refine iff_of_true (.inl ⟨hzero, by rw [hsame]⟩) ?_
    exact hfail.imp_right .inl
  obtain ⟨hne, hnode⟩ := not_or.mp hfail
  rw [vmMapAllocate_of_node A flags s horder hwords hne hnode]
  have hlt : findCandidate (alignUp size pageSize) space.areas vmAllocBase < wordSize :=
    findCandidate_add_lt (show vmAllocBase + 0 < wordSize by decide) hwords
  obtain ⟨hover, hbase, hfits, -⟩ :=
    findCandidate_spec horder hwords (alignUp size pageSize) vmAllocBase
  have hpos : 0 < findCandidate (alignUp size pageSize) space.areas vmAllocBase :=
    Nat.lt_of_lt_of_le (by decide) hbase
  rw [atomicResult_insertVma_iff A space flags s hlt hsize hover]
  simp only [hpos, Nat.pos_of_ne_zero hne, hne, hnode, true_and, false_or]
  by_cases hceil : pageCeil size < wordSize
  · rw [alignUp_eq_pageCeil hceil] at hfits ⊢
    exact hfits
  · refine iff_of_false (fun h => hceil ((Nat.le_add_left _ _).trans_lt h)) ?_
    rintro ⟨a, -, h, -⟩
    exact hceil ((Nat.le_add_left _ _).trans_lt h)

/-- Both allocations are atomic in exactly these cases: nothing is inserted, because the range meets an
area or no node is left or there is nothing to allocate; or the range is not empty, does not start at `0`
and ends below `2 ^ 64`, for `vm_map_allocate` the range at the lowest gap. -/
theorem vmMap_allocations_atomic_iff (horder : AreasInOrder space.areas)
    (hwords : AreasWords space.areas) {start size : ℕ} (hstart : start < wordSize)
    (hsize : size < wordSize) :
    (AtomicResult space.areas size (vmMapAllocateRegion A space start size flags s) ↔
      vmaOverlaps space.areas start (alignUp size pageSize) = true ∨ NodeFails A s ∨
        0 < start ∧ 0 < size ∧ start + pageCeil size < wordSize) ∧
    (AtomicResult space.areas size (vmMapAllocate A space size flags s) ↔
      size = 0 ∨ NodeFails A s ∨ ∃ a, vmAllocBase ≤ a ∧ a + pageCeil size < wordSize ∧
        AreaGap space.areas a (pageCeil size)) :=
  ⟨vmMapAllocateRegion_atomic_iff A space flags s hstart hsize,
    vmMapAllocate_atomic_iff A flags s horder hwords hsize⟩

/-- First fit is correct and complete. On a chain of areas, for a size whose sums with the ends of the
areas and with `VM_ALLOC_BASE` are words: if a node is left, `vm_map_allocate` returns the lowest address
from `VM_ALLOC_BASE` on at which the page-rounded size meets no area, and inserts this area and nothing
else; if none is left, it returns `0` and the address space is unchanged. -/
theorem vmMapAllocate_firstFit (hchain : AreasChain space.areas) {size : ℕ} (hsize : 0 < size)
    (hbase : vmAllocBase + pageCeil size < wordSize)
    (hsums : ∀ v ∈ space.areas, v.endAddr + pageCeil size < wordSize) :
    (¬ NodeFails A s →
      IsLeast {a | vmAllocBase ≤ a ∧
          ∀ v ∈ space.areas, Disjoint (Set.Ico a (a + pageCeil size)) (Set.Ico v.start v.endAddr)}
        (vmMapAllocate A space size flags s).1 ∧
      Inserted space.areas (vmMapAllocate A space size flags s).2.1.areas
        ⟨(s.cacheAlloc A .vmAreaCache).1, (vmMapAllocate A space size flags s).1,
          (vmMapAllocate A space size flags s).1 + pageCeil size, flags⟩) ∧
    (NodeFails A s →
      (vmMapAllocate A space size flags s).1 = 0 ∧ (vmMapAllocate A space size flags s).2.1 = space) := by
  refine ⟨fun hnode => ?_, fun hnode => vmMapAllocate_of_fails A space flags s (.inr hnode)⟩
  have horder : AreasInOrder space.areas := SpanChain.inOrder hchain
  have hwords : AreasWords space.areas := fun v hv => (Nat.le_add_right _ _).trans_lt (hsums v hv)
  have hpos := pageCeil_pos hsize
  have hceil : pageCeil size < wordSize := (Nat.le_add_left _ _).trans_lt hbase
  obtain ⟨-, -, -, hleast⟩ := findCandidate_spec horder hwords (pageCeil size) vmAllocBase
  have hfit : findCandidate (pageCeil size) space.areas vmAllocBase + pageCeil size < wordSize :=
    findCandidate_add_lt hbase hsums
  have harea : nextArea A flags s (findCandidate (pageCeil size) space.areas vmAllocBase) size =
      ⟨(s.cacheAlloc A .vmAreaCache).1, findCandidate (pageCeil size) space.areas vmAllocBase,
        findCandidate (pageCeil size) space.areas vmAllocBase + pageCeil size, flags⟩ := by
    rw [nextArea, alignUp_eq_pageCeil hceil, Nat.mod_eq_of_lt hfit]
  rw [vmMapAllocate_of_node A flags s horder hwords hsize.ne' hnode, alignUp_eq_pageCeil hceil, harea]
  refine ⟨?_, inserted_insertVma space.areas _⟩
  -- for non-empty ranges the gaps are the ranges that meet no area
  have hgap : ∀ a, AreaGap space.areas a (pageCeil size) ↔ ∀ v ∈ space.areas,
      Disjoint (Set.Ico a (a + pageCeil size)) (Set.Ico v.start v.endAddr) := by
    intro a
    refine forall_congr' fun v => forall_congr' fun hv => ⟨disjoint_Ico_of_le, fun h => ?_⟩
    have hlt := hchain.1 v hv
    rw [Set.Ico_disjoint_Ico] at h
    omega
  simpa only [hgap] using hleast hfit

end Calls

/-- A new address space on the small map, with nodes left. -/
theorem vmMapCreate_sixFrameMap :
    ∃ s₀ space s, initBitmapPmm sixFrameMap (fun _ => 0#8) = some s₀ ∧
      vmMapCreate kernelAllocators none (bootMachine s₀) = (some space, s) ∧
      space.areas = [] ∧ ¬ NodeFails kernelAllocators s := by
  obtain ⟨s₀, hinit⟩ := initBitmapPmm_isSome sixFrameMap_bootable (fun _ => 0#8)
  have hconcrete : ((initBitmapPmm sixFrameMap (fun _ => 0#8)).bind fun pages =>
      let r := vmMapCreate kernelAllocators none (bootMachine pages)
      r.1.map fun _ => (r.2.cacheAlloc kernelAllocators .vmAreaCache).1) =
      some (hhdmOffset + 0x4020) := by decide +kernel
  rw [hinit, Option.bind_some] at hconcrete
  obtain ⟨space, hspace, hnode⟩ := Option.map_eq_some_iff.mp hconcrete
  have hcreate : vmMapCreate kernelAllocators none (bootMachine s₀) =
      (some space, (vmMapCreate kernelAllocators none (bootMachine s₀)).2) := by rw [← hspace]
  refine ⟨s₀, space, _, hinit, hcreate, vmMapCreate_areas hcreate, ?_⟩
  rw [NodeFails, hnode]
  decide

/-- `vm_map_allocate_region` for several ranges. -/
def allocateRegions {S : Type*} (A : KernelAlloc S) (ranges : List (ℕ × ℕ)) (space : VmMap) (s : Machine S) :
    VmMap × Machine S :=
  ranges.foldl (fun r range => (vmMapAllocateRegion A r.1 range.1 range.2 7 r.2).2) (space, s)

/-- It leaves memory and the page table as they are. -/
theorem allocateRegions_frame {S : Type*} (A : KernelAlloc S) (ranges : List (ℕ × ℕ)) (space : VmMap)
    (s : Machine S) :
    (allocateRegions A ranges space s).2.mem = s.mem ∧
      (allocateRegions A ranges space s).1.pageTable = space.pageTable := by
  induction ranges generalizing space s with
  | nil => exact ⟨rfl, rfl⟩
  | cons range rest ih =>
    obtain ⟨htable, hmachine⟩ := vmMapAllocateRegion_machine A space 7 s range.1 range.2
    obtain ⟨hmem, htable'⟩ := ih (vmMapAllocateRegion A space range.1 range.2 7 s).2.1
      (vmMapAllocateRegion A space range.1 range.2 7 s).2.2
    refine ⟨hmem.trans ?_, htable'.trans htable⟩
    rcases hmachine with h | h <;> rw [h]
    rfl

/-- Three areas: one below `VM_ALLOC_BASE`, one far above it, and one at it. -/
def mapThreeAreas (space : VmMap) (s : Machine (KernelMem Pmm)) : VmMap × Machine (KernelMem Pmm) :=
  allocateRegions kernelAllocators [(0, 0x1000), (0x5000, 0x3000), (0x1000, 0x2000)] space s

/-- They leave a gap of two pages between the second and the third area. -/
theorem mapThreeAreas_sixFrameMap :
    ∃ s₀ space s, initBitmapPmm sixFrameMap (fun _ => 0#8) = some s₀ ∧
      vmMapCreate kernelAllocators none (bootMachine s₀) = (some space, s) ∧
      (mapThreeAreas space s).1.areas.map (fun v => (v.start, v.endAddr)) =
        [(0, 0x1000), (0x1000, 0x3000), (0x5000, 0x8000)] ∧
      ¬ NodeFails kernelAllocators (mapThreeAreas space s).2 := by
  obtain ⟨s₀, hinit⟩ := initBitmapPmm_isSome sixFrameMap_bootable (fun _ => 0#8)
  have hconcrete : ((initBitmapPmm sixFrameMap (fun _ => 0#8)).bind fun pages =>
      let r := vmMapCreate kernelAllocators none (bootMachine pages)
      r.1.map fun space => ((mapThreeAreas space r.2).1.areas.map fun v => (v.start, v.endAddr),
        decide (NodeFails kernelAllocators (mapThreeAreas space r.2).2))) =
      some ([(0, 0x1000), (0x1000, 0x3000), (0x5000, 0x8000)], false) := by decide +kernel
  rw [hinit, Option.bind_some] at hconcrete
  obtain ⟨space, hspace, hmapped⟩ := Option.map_eq_some_iff.mp hconcrete
  obtain ⟨hareas, hnode⟩ := Prod.mk.inj hmapped
  exact ⟨s₀, space, _, hinit, by rw [← hspace], hareas, of_decide_eq_false hnode⟩

/-- Properties of the ends of areas, read off a list of ends. -/
theorem forall_areas_of_spans {areas : List VmArea} {spans : List (ℕ × ℕ)}
    (hspans : areas.map (fun v => (v.start, v.endAddr)) = spans) {P : ℕ × ℕ → Prop}
    (h : ∀ span ∈ spans, P span) : ∀ v ∈ areas, P (v.start, v.endAddr) :=
  fun _ hv => h _ (hspans ▸ List.mem_map_of_mem hv)

/-- A list of ends that is a chain makes a chain of areas. -/
theorem areasChain_of_spans {areas : List VmArea} {spans : List (ℕ × ℕ)}
    (hspans : areas.map (fun v => (v.start, v.endAddr)) = spans)
    (h : SpanChain Prod.fst Prod.snd spans) : AreasChain areas := by
  refine ⟨forall_areas_of_spans hspans h.1, ?_⟩
  have hsorted := h.2
  rw [← hspans, List.pairwise_map] at hsorted
  exact hsorted

/-- Among the three areas a request that meets the second one fails, and those for the gap succeed. -/
theorem vmMap_allocations_atomic_sixFrameMap :
    ∃ s₀ space s, initBitmapPmm sixFrameMap (fun _ => 0#8) = some s₀ ∧
      vmMapCreate kernelAllocators none (bootMachine s₀) = (some space, s) ∧
      let (space, s) := mapThreeAreas space s
      AtomicResult space.areas 5000 (vmMapAllocateRegion kernelAllocators space 0x2000 5000 7 s) ∧
        AtomicResult space.areas 5000 (vmMapAllocateRegion kernelAllocators space 0x3000 5000 7 s) ∧
        AtomicResult space.areas 5000 (vmMapAllocate kernelAllocators space 5000 7 s) := by
  obtain ⟨s₀, space, s, hinit, hcreate, hspans, hnode⟩ := mapThreeAreas_sixFrameMap
  have hchain := areasChain_of_spans hspans ⟨by decide, by decide⟩
  have horder : AreasInOrder (mapThreeAreas space s).1.areas := SpanChain.inOrder hchain
  have hwords : AreasWords (mapThreeAreas space s).1.areas :=
    forall_areas_of_spans (P := fun span => span.2 < wordSize) hspans (by decide)
  have hgap : AreaGap (mapThreeAreas space s).1.areas 0x3000 (pageCeil 5000) :=
    forall_areas_of_spans (P := fun span => span.2 ≤ 0x3000 ∨ 0x3000 + pageCeil 5000 ≤ span.1) hspans (by decide)
  have hover : vmaOverlaps (mapThreeAreas space s).1.areas 0x2000 (alignUp 5000 pageSize) = true := by
    by_contra hfree
    have hout := vmaOverlaps_eq_false_iff.mp (Bool.eq_false_iff.mpr hfree)
    have hmem : (0x1000, 0x3000) ∈ (mapThreeAreas space s).1.areas.map fun v => (v.start, v.endAddr) := by
      rw [hspans]
      decide
    obtain ⟨v, hv, hspan⟩ := List.mem_map.mp hmem
    obtain ⟨hstart, hend⟩ := Prod.mk.inj hspan
    have hmeets := hout v hv
    rw [hstart, hend] at hmeets
    exact absurd hmeets (by decide)
  have hiff := fun {start : ℕ} (hstart : start < wordSize) => vmMap_allocations_atomic_iff kernelAllocators 7
    (mapThreeAreas space s).2 horder hwords hstart (show 5000 < wordSize by decide)
  exact ⟨s₀, space, s, hinit, hcreate, (hiff (by decide)).1.mpr (.inl hover),
    (hiff (by decide)).1.mpr (.inr (.inr (by decide))),
    (hiff (show 0 < wordSize by decide)).2.mpr (.inr (.inr ⟨0x3000, by decide, by decide, hgap⟩))⟩

/-- In the same address space, an area at address `0` is inserted and reported as a failure; an empty one
is inserted at any other address; and the size `2 ^ 64 - 1` rounds to `0`, so that `vm_map_allocate`
reports an empty area as success. -/
theorem vmMap_allocations_not_atomic :
    ∃ s₀ space s, initBitmapPmm sixFrameMap (fun _ => 0#8) = some s₀ ∧
      vmMapCreate kernelAllocators none (bootMachine s₀) = (some space, s) ∧
      ¬ AtomicResult space.areas 0x1000 (vmMapAllocateRegion kernelAllocators space 0 0x1000 7 s) ∧
      ¬ AtomicResult space.areas 0 (vmMapAllocateRegion kernelAllocators space 0x8000 0 7 s) ∧
      ¬ AtomicResult space.areas (2 ^ 64 - 1) (vmMapAllocate kernelAllocators space (2 ^ 64 - 1) 7 s) := by
  obtain ⟨s₀, space, s, hinit, hcreate, hnil, hnode⟩ := vmMapCreate_sixFrameMap
  have horder : AreasInOrder space.areas := by rw [hnil]; exact ⟨by simp, .nil⟩
  have hwords : AreasWords space.areas := by simp [AreasWords, hnil]
  have hover : ∀ start size, vmaOverlaps space.areas start size = false := by simp [vmaOverlaps, hnil]
  refine ⟨s₀, space, s, hinit, hcreate, ?_, ?_, ?_⟩
  · rw [vmMapAllocateRegion_atomic_iff kernelAllocators space 7 s (by decide) (by decide), hover]
    simp [hnode]
  · rw [vmMapAllocateRegion_atomic_iff kernelAllocators space 7 s (by decide) (by decide), hover]
    simp [hnode]
  · rw [vmMapAllocate_atomic_iff kernelAllocators 7 s horder hwords (by decide)]
    rintro (hzero | hfail | ⟨a, -, hfit, -⟩)
    · exact absurd hzero (by decide)
    · exact hnode hfail
    · exact absurd ((Nat.le_add_left _ _).trans_lt hfit) (by decide)

/-- Among the three areas the lowest gap for two pages is behind the area at `VM_ALLOC_BASE`, and the lowest
for three pages is behind the last area. -/
theorem vmMapAllocate_firstFit_sixFrameMap :
    ∃ s₀ space s, initBitmapPmm sixFrameMap (fun _ => 0#8) = some s₀ ∧
      vmMapCreate kernelAllocators none (bootMachine s₀) = (some space, s) ∧
      let (space, s) := mapThreeAreas space s
      let gaps size := {a | vmAllocBase ≤ a ∧
        ∀ v ∈ space.areas, Disjoint (Set.Ico a (a + pageCeil size)) (Set.Ico v.start v.endAddr)}
      IsLeast (gaps 5000) (vmMapAllocate kernelAllocators space 5000 7 s).1 ∧
        IsLeast (gaps 10000) (vmMapAllocate kernelAllocators space 10000 7 s).1 := by
  obtain ⟨s₀, space, s, hinit, hcreate, hspans, hnode⟩ := mapThreeAreas_sixFrameMap
  have hchain := areasChain_of_spans hspans ⟨by decide, by decide⟩
  refine ⟨s₀, space, s, hinit, hcreate, ?_, ?_⟩
  · exact ((vmMapAllocate_firstFit kernelAllocators 7 _ hchain (by decide) (by decide)
      (forall_areas_of_spans (P := fun span => span.2 + pageCeil 5000 < wordSize) hspans (by decide))).1 hnode).1
  · exact ((vmMapAllocate_firstFit kernelAllocators 7 _ hchain (by decide) (by decide)
      (forall_areas_of_spans (P := fun span => span.2 + pageCeil 10000 < wordSize) hspans (by decide))).1 hnode).1

end Flos.Mm
