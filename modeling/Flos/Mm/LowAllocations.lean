import Flos.Mm.Isolation
import Flos.Mm.VmMapSearch

/-!
# Allocations in the lower half

The scan of `vm_map_allocate` has no upper bound, and the walk of the page table looks at 48 bits of an
address only. As long as there is room below `2 ^ 47` the scan stays there, and what is allocated can be
released without touching the kernel half of the page table.
-/

namespace Flos.Mm

open Flos.Lib

/-- A call of `vm_map_allocate` fails, or returns whole pages of the lower half. -/
def ReturnsLow (size r : ℕ) : Prop := r = 0 ∨ 4096 ∣ r ∧ vmAllocBase ≤ r ∧ r + pageCeil size ≤ 2 ^ 47

/-- There is room for an area in the lower half. -/
def LowGap (areas : List VmArea) (size : ℕ) : Prop :=
  ∃ a, vmAllocBase ≤ a ∧ a + pageCeil size ≤ 2 ^ 47 ∧ AreaGap areas a (pageCeil size)

/-- Areas of whole pages of the lower half are words. -/
theorem AreasWords.of_aligned {areas : List VmArea} (h : ∀ v ∈ areas, v.Aligned) : AreasWords areas :=
  fun v hv => (h v hv).2.2.trans_lt (by decide)

/-- Where there is room in the lower half, the scan ends there. -/
theorem LowGap.findCandidate_le {areas : List VmArea} {size : ℕ} (h : LowGap areas size) :
    findCandidate (pageCeil size) areas vmAllocBase + pageCeil size ≤ 2 ^ 47 := by
  obtain ⟨a, ha, hlow, hgap⟩ := h
  have hfirst : firstFit VmArea.start VmArea.endAddr (pageCeil size) areas vmAllocBase + pageCeil size ≤
      2 ^ 47 := (Nat.add_le_add_right (firstFit_le ha hgap) _).trans hlow
  rwa [findCandidate_eq, firstFitMod_eq (hfirst.trans_lt (by decide))]

/-- For areas in order the converse holds too. -/
theorem findCandidate_low_iff {areas : List VmArea} (horder : AreasInOrder areas)
    (hwords : AreasWords areas) (size : ℕ) :
    findCandidate (pageCeil size) areas vmAllocBase + pageCeil size ≤ 2 ^ 47 ↔ LowGap areas size := by
  obtain ⟨-, hbase, -, hleast⟩ := findCandidate_spec horder hwords (pageCeil size) vmAllocBase
  refine ⟨fun hlow => ⟨_, hbase, hlow, ?_⟩, LowGap.findCandidate_le⟩
  exact (hleast (hlow.trans_lt (by decide : 2 ^ 47 < wordSize))).1.2

section Calls

variable {S : Type*} (A : KernelAlloc S) {space : VmMap} (s : Machine S)

/-- `vm_map_allocate` stays in the lower half exactly if it fails or there is room. -/
theorem vmMapAllocate_returnsLow_iff (haligned : ∀ v ∈ space.areas, v.Aligned)
    (horder : AreasInOrder space.areas) (size flags : ℕ) :
    ReturnsLow size (vmMapAllocate A space size flags s).1 ↔
      size = 0 ∨ NodeFails A s ∨ LowGap space.areas size := by
  have hwords := AreasWords.of_aligned haligned
  by_cases hfail : size = 0 ∨ NodeFails A s
  · obtain ⟨hzero, -⟩ := vmMapAllocate_of_fails A space flags s hfail
    exact iff_of_true (.inl hzero) (hfail.imp_right .inl)
  obtain ⟨hne, hnode⟩ := not_or.mp hfail
  have hbase := (findCandidate_spec horder hwords (alignUp size pageSize) vmAllocBase).2.1
  have hpos : findCandidate (alignUp size pageSize) space.areas vmAllocBase ≠ 0 :=
    (Nat.lt_of_lt_of_le (by decide) hbase).ne'
  rw [vmMapAllocate_of_node A flags s horder hwords hne hnode, ReturnsLow, or_iff_right hpos,
    or_iff_right hne, or_iff_right hnode]
  by_cases hfit : pageCeil size < wordSize
  · rw [alignUp_eq_pageCeil hfit] at hbase ⊢
    rw [← findCandidate_low_iff horder hwords]
    exact ⟨fun h => h.2.2, fun h => ⟨dvd_findCandidate haligned (by decide), hbase, h⟩⟩
  · -- the size alone is larger than the lower half
    have hlarge : 2 ^ 47 < pageCeil size := Nat.lt_of_lt_of_le (by decide) (not_lt.mp hfit)
    refine iff_of_false (fun h => ?_) ?_
    · exact absurd (hlarge.trans_le (Nat.le_add_left _ _)) h.2.2.not_gt
    · rintro ⟨a, -, ha, -⟩
      exact absurd (hlarge.trans_le (Nat.le_add_left _ _)) ha.not_gt

end Calls

/-! ## Runs -/

/-- The regions of the other calls are whole pages of the lower half, and `vm_map_allocate` fails or has
room there. -/
def SpaceOp.StaysLow {S : Type*} (A : KernelAlloc S) (st : VmState S) : SpaceOp → Prop
  | .call (.allocate size _) => size = 0 ∨ NodeFails A st.machine ∨ LowGap st.space.areas size
  | .call (.allocateRegion start size _) => 0 < size ∧ 4096 ∣ start ∧ start + pageCeil size ≤ 2 ^ 47
  | .call (.freeRegion start size) => 4096 ∣ start ∧ start + pageCeil size ≤ 2 ^ 47
  | .fault _ _ => True

/-- One operation that stays low. -/
def LowStep {S : Type*} (A : KernelAlloc S) (st : VmState S) (op : SpaceOp) (st' : VmState S) : Prop :=
  op.StaysLow A st ∧ st' = op.exec A st

/-- The pages at some addresses are unmapped through the lower half of a PML4, and what was in use in the
state `s₀` is in use, as it was. -/
structure SparesKernelHalf {S : Type*} (frames : S → Set ℕ) (s₀ : Machine S) (root : ℕ)
    (unmapped : Set ℕ) (s s' : Machine S) : Prop where
  slots : ∀ x ∈ unmapped, (pml4Idx x).val < 256
  row : ∀ i : Fin 512, 256 ≤ i.val → s'.mem root i = s.mem root i
  kept : Extends frames s₀ s'

/-- What holds in a run: the address space owns its tables and nodes, apart from what was in use before,
and its areas are a chain. -/
structure LowSpace {S : Type*} (Ok : S → Prop) (frames : S → Set ℕ) (objects : CacheName → S → Set ℕ)
    (s₀ : Machine S) (st : VmState S) : Prop where
  owns : SpaceInv (Custody Ok frames objects {r | Live frames objects s₀.alloc r} ∅ s₀.mem) ∅ ∅ []
    st.space st.machine
  chain : AreasChain st.space.areas

section Runs

variable {S : Type*} {A : KernelAlloc S} {Ok : S → Prop} {frames : S → Set ℕ}
  {objects : CacheName → S → Set ℕ} {s₀ : Machine S} {st st' : VmState S}

/-- An address below `2 ^ 47` goes through the lower half. -/
theorem pml4Idx_lt {va : ℕ} (h : va < 2 ^ 47) : (pml4Idx va).val < 256 := by
  rw [pml4Idx, tableIdx_val]
  omega

/-- What is held beside an address space may be forgotten. -/
theorem SpaceInv.forget {rest : Set Resource} {fixed : Set ℕ} {mem : ℕ → Fin 512 → ℕ} {space : VmMap}
    {others : List Resource} {s : Machine S}
    (h : SpaceInv (Custody Ok frames objects rest fixed mem) ∅ ∅ others space s) :
    SpaceInv (Custody Ok frames objects rest fixed mem) ∅ ∅ [] space s := by
  obtain ⟨⟨htree, fs, hfs, hheld⟩, haligned⟩ := h
  refine ⟨⟨htree, fs, hfs, ?_⟩, haligned⟩
  rw [← List.append_assoc] at hheld
  rw [List.append_nil]
  obtain ⟨hok, hnodup, hlive, haddr, hrest, hapart, hmem, hfixed⟩ := hheld
  exact ⟨hok, (List.nodup_append.mp hnodup).1, fun r hr => hlive r (List.mem_append_left _ hr),
    fun f hf => haddr f (List.mem_append_left _ hf), hrest,
    fun r hr hin => hapart r hr (List.mem_append_left _ hin), hmem, hfixed⟩

variable (hA : A.Lawful Ok frames objects)

include hA

/-- A new address space. -/
theorem LowSpace.create (hok : Ok s₀.alloc) {kernel : Option PageTable}
    (hcreate : vmMapCreate A kernel s₀ = (some st.space, st.machine)) :
    LowSpace Ok frames objects s₀ st := by
  have hnothing : Custody Ok frames objects {r | Live frames objects s₀.alloc r} ∅ s₀.mem s₀ [] :=
    ⟨hok, List.nodup_nil, by simp, by simp, fun _ hr => hr, by simp, fun _ _ => rfl, by simp⟩
  obtain ⟨howns, hareas, -⟩ := (Holding.create (custody_holding hA _ ∅ _) rfl hnothing trivial).2
    st.space (by rw [hcreate])
  rw [hcreate] at howns
  exact ⟨howns, hareas ▸ ⟨by simp, List.Pairwise.nil⟩⟩

/-- Every operation that stays low keeps the address space. -/
theorem LowSpace.step {op : SpaceOp} (h : LowSpace Ok frames objects s₀ st)
    (hstep : LowStep A st op st') : LowSpace Ok frames objects s₀ st' := by
  obtain ⟨hlow, rfl⟩ := hstep
  have hexec : (∀ call, op = .call call → call.InLowerHalf st.space) → SpaceInv
      (Custody Ok frames objects {r | Live frames objects s₀.alloc r} ∅ s₀.mem) ∅ ∅ []
      (op.exec A st).space (op.exec A st).machine := fun hlegal =>
    (h.owns.exec (custody_holding hA _ ∅ _) (Set.empty_subset _) hlegal
      (fun _ _ _ _ _ _ hmem => absurd hmem (Set.notMem_empty _))
      (fun _ _ _ _ _ _ _ hmem => absurd hmem (Set.notMem_empty _))).2.choose_spec.forget
  have hchain : ∀ call, op = .call call → call.Fits st.space → AreasChain (op.exec A st).space.areas := by
    rintro call rfl hfits
    exact VmStep.chain ⟨hfits, rfl⟩ h.chain
  cases op with
  | fault faultAddress errorCode => exact ⟨hexec (by simp), h.chain⟩
  | call op =>
    cases op with
    | allocate size flags =>
      rcases hlow with rfl | hnode | hgap
      · rw [SpaceOp.exec, VmOp.exec, vmMapAllocate, if_pos rfl]
        exact h
      · obtain ⟨-, hspace⟩ := vmMapAllocate_of_fails A st.space flags st.machine (.inr hnode)
        obtain ⟨-, hmachine⟩ := vmMapAllocate_machine A st.space flags st.machine size
        refine ⟨?_, ?_⟩
        all_goals
          dsimp only [SpaceOp.exec, VmOp.exec]
          rw [hspace]
        · rcases hmachine with heq | heq
          all_goals rw [heq]
          · exact h.owns
          · exact ⟨h.owns.tables.cacheAlloc_fail (custody_holding hA _ ∅ _) _ hnode trivial,
              h.owns.aligned⟩
        · exact h.chain
      · by_cases hsize : size = 0
        · subst hsize
          rw [SpaceOp.exec, VmOp.exec, vmMapAllocate, if_pos rfl]
          exact h
        have hend := hgap.findCandidate_le
        refine ⟨hexec fun call hcall => ?_, hchain _ rfl ⟨Nat.pos_of_ne_zero hsize, ?_⟩⟩
        · cases hcall
          exact hend
        · exact hend.trans_lt (by decide)
    | allocateRegion start size flags =>
      obtain ⟨hsize, hstart, hend⟩ := hlow
      refine ⟨hexec fun call hcall => ?_, hchain _ rfl ⟨hsize, hend.trans_lt (by decide)⟩⟩
      cases hcall
      exact ⟨hstart, hend⟩
    | freeRegion start size =>
      refine ⟨hexec fun call hcall => ?_, ?_⟩
      · cases hcall
        exact hlow
      · by_cases hsize : size = 0
        · rw [SpaceOp.exec, VmOp.exec, vmMapFreeRegion, if_pos hsize]
          exact h.chain
        · exact hchain _ rfl ⟨Nat.pos_of_ne_zero hsize, hlow.2.trans_lt (by decide)⟩

/-- Freeing a region of the lower half leaves the kernel half alone. -/
theorem LowSpace.freeRegion (h : LowSpace Ok frames objects s₀ st) {start size : ℕ}
    (hstart : 4096 ∣ start) (hend : start + pageCeil size ≤ 2 ^ 47) :
    SparesKernelHalf frames s₀ st.space.pageTable.pml4Phy (Set.Ico start (start + pageCeil size))
      st.machine (vmMapFreeRegion A st.space start size st.machine).2 := by
  have hslots : ∀ x ∈ Set.Ico start (start + pageCeil size), (pml4Idx x).val < 256 := fun x hx =>
    pml4Idx_lt (hx.2.trans_le hend)
  have hkept : ∀ {s' fixed held}, Custody Ok frames objects {r | Live frames objects s₀.alloc r} fixed
      st.machine.mem s' held → Extends frames s₀ s' := by
    intro s' fixed held hheld
    obtain ⟨fs, -, hcustody⟩ := h.owns.tables.holds
    refine ⟨fun f hf => hheld.restLive (.frame f) hf, fun f hf => ?_⟩
    exact (hheld.restMem f hf).trans (hcustody.restMem f hf)
  have hspace := h.owns.restart {st.space.pageTable.pml4Phy}
  by_cases hsize : size = 0
  · obtain ⟨fs, -, hheld⟩ := hspace.tables.holds
    rw [vmMapFreeRegion, if_pos hsize]
    exact ⟨hslots, fun _ _ => rfl, hkept hheld⟩
  · obtain ⟨hfreed, -⟩ := hspace.freeRegion (custody_holding hA _ _ _) hsize subset_rfl hstart hend
      (fun _ _ hmem => absurd hmem (Set.notMem_empty _))
      (fun _ _ _ _ hmem => absurd hmem (Set.notMem_empty _)) trivial
    obtain ⟨fs, -, hheld⟩ := hfreed.tables.holds
    exact ⟨hslots, hheld.fixedMem _ rfl, hkept hheld⟩

/-- Destroying the address space leaves the kernel half alone. -/
theorem LowSpace.destroy (h : LowSpace Ok frames objects s₀ st) :
    SparesKernelHalf frames s₀ st.space.pageTable.pml4Phy (areasCover st.space.areas) st.machine
      (vmMapDestroy A st.space st.machine) := by
  obtain ⟨fs, -, hcustody⟩ := h.owns.tables.holds
  obtain ⟨pages, -, hheld⟩ := (h.owns.restart {st.space.pageTable.pml4Phy}).destroy
    (custody_holding hA _ _ _) subset_rfl (fun _ _ => Set.notMem_empty _)
    (fun _ _ _ _ _ _ hmem => absurd hmem (Set.notMem_empty _))
  refine ⟨?_, hheld.fixedMem _ rfl, fun f hf => hheld.restLive (.frame f) hf, fun f hf => ?_⟩
  · rintro x ⟨v, hv, -, hx⟩
    exact pml4Idx_lt (hx.trans_le (h.owns.aligned v hv).2.2)
  · exact (hheld.restMem f hf).trans (hcustody.restMem f hf)

/-- Virtual allocations stay in the lower half as long as there is room.

From the creation of an address space on, over every sequence of operations on whole pages of the lower
half, of page faults, and of allocations that fail or find room below `2 ^ 47`: the next allocation, of
any size, fails or returns a range of the lower half exactly if it cannot succeed or finds room there;
and neither freeing such a range nor destroying the address space goes through the kernel half of the
PML4, changes it, or takes away what was in use before the creation. -/
theorem vmMapAllocate_run_staysLow (hok : Ok s₀.alloc) {kernel : Option PageTable}
    {ops : List SpaceOp} (hcreate : vmMapCreate A kernel s₀ = (some st.space, st.machine))
    (hrun : Run (LowStep A) st ops st') :
    (∀ size flags, ReturnsLow size (vmMapAllocate A st'.space size flags st'.machine).1 ↔
      size = 0 ∨ NodeFails A st'.machine ∨ LowGap st'.space.areas size) ∧
    (∀ start size, ReturnsLow size start → start ≠ 0 →
      SparesKernelHalf frames s₀ st'.space.pageTable.pml4Phy (Set.Ico start (start + pageCeil size))
        st'.machine (vmMapFreeRegion A st'.space start size st'.machine).2) ∧
    SparesKernelHalf frames s₀ st'.space.pageTable.pml4Phy (areasCover st'.space.areas) st'.machine
      (vmMapDestroy A st'.space st'.machine) := by
  have hinv := hrun.invariant (LowSpace Ok frames objects s₀) (fun _ _ _ h hstep => h.step hA hstep)
    (LowSpace.create hA hok hcreate)
  refine ⟨fun size flags => vmMapAllocate_returnsLow_iff A st'.machine hinv.owns.aligned
    hinv.chain.inOrder size flags, fun start size hlow hne => ?_, hinv.destroy hA⟩
  obtain ⟨hdvd, -, hend⟩ := hlow.resolve_left hne
  exact hinv.freeRegion hA hdvd hend

end Runs

/-- On the small machine a page is allocated in a new address space, and freed again. -/
theorem vmMapAllocate_run_staysLow_sixteenFrameMap :
    ∃ s₀ st st', initBitmapPmm sixteenFrameMap (fun _ => 0#8) = some s₀ ∧
      vmMapCreate kernelAllocators none (bootMachine s₀) = (some st.space, st.machine) ∧
      Run (LowStep kernelAllocators) st [.call (.allocate 0x1000 7), .fault 0x1008 4] st' ∧
      ReturnsLow 0x1000 (vmMapAllocate kernelAllocators st'.space 0x1000 7 st'.machine).1 ∧
      (bootMem s₀).frames Pmm.inUse hhdmOffset ⊆
        (vmMapDestroy kernelAllocators st'.space st'.machine).alloc.frames Pmm.inUse hhdmOffset := by
  obtain ⟨s₀, hinit⟩ := initBitmapPmm_isSome sixteenFrameMap_bootable (fun _ => 0#8)
  have hconcrete : ((initBitmapPmm sixteenFrameMap (fun _ => 0#8)).bind fun pages =>
      let r := vmMapCreate kernelAllocators none (bootMachine pages)
      r.1.map fun space =>
        (SpaceOp.exec kernelAllocators (.call (.allocate 0x1000 7)) ⟨space, r.2⟩).space.areas.map
          fun v => (v.start, v.endAddr)) = some [(0x1000, 0x2000)] := by decide +kernel
  rw [hinit, Option.bind_some] at hconcrete
  obtain ⟨space, hspace, hareas⟩ := Option.map_eq_some_iff.mp hconcrete
  have hcreate : vmMapCreate kernelAllocators none (bootMachine s₀) = (some space, _) :=
    Prod.ext hspace rfl
  have hroom : LowGap space.areas 0x1000 :=
    ⟨0x1000, by decide, by decide, by rw [vmMapCreate_areas hcreate]; simp [AreaGap, Gap]⟩
  have hrun : Run (LowStep kernelAllocators)
      ⟨space, (vmMapCreate kernelAllocators none (bootMachine s₀)).2⟩
      [.call (.allocate 0x1000 7), .fault 0x1008 4] _ :=
    .cons ⟨.inr (.inr hroom), rfl⟩ (.single ⟨trivial, rfl⟩)
  have hok : (bootMachine s₀).alloc.Ok Pmm.Ok Pmm.inUse hhdmOffset :=
    bootMem_ok (Pmm.Ok.of_init sixteenFrameMap_bootable hinit)
  obtain ⟨hlow, -, hdestroy⟩ := vmMapAllocate_run_staysLow kernelAllocators_lawful hok hcreate hrun
  refine ⟨s₀, _, _, hinit, hcreate, hrun, (hlow 0x1000 7).mpr (.inr (.inr ⟨0x2000, by decide, by decide,
    fun v hv => ?_⟩)), hdestroy.kept.kept⟩
  have hmem : (v.start, v.endAddr) ∈ [((0x1000 : ℕ), (0x2000 : ℕ))] :=
    hareas ▸ List.mem_map_of_mem hv
  rw [List.mem_singleton, Prod.mk.injEq] at hmem
  exact .inl hmem.2.le

/-- An allocation of `2 ^ 47` bytes in a new address space returns a range that reaches into the kernel
half of the PML4. -/
theorem vmMapAllocate_leavesLowerHalf :
    ∃ s₀ space s, initBitmapPmm sixteenFrameMap (fun _ => 0#8) = some s₀ ∧
      vmMapCreate kernelAllocators none (bootMachine s₀) = (some space, s) ∧
      (vmMapAllocate kernelAllocators space (2 ^ 47) 7 s).1 = 0x1000 ∧
      ¬ ReturnsLow (2 ^ 47) (vmMapAllocate kernelAllocators space (2 ^ 47) 7 s).1 ∧
      (pml4Idx (0x1000 + 2 ^ 47 - 1)).val = 256 := by
  obtain ⟨s₀, hinit⟩ := initBitmapPmm_isSome sixteenFrameMap_bootable (fun _ => 0#8)
  have hconcrete : ((initBitmapPmm sixteenFrameMap (fun _ => 0#8)).bind fun pages =>
      let r := vmMapCreate kernelAllocators none (bootMachine pages)
      r.1.map fun space => (vmMapAllocate kernelAllocators space (2 ^ 47) 7 r.2).1) = some 0x1000 := by
    decide +kernel
  rw [hinit, Option.bind_some] at hconcrete
  obtain ⟨space, hspace, hresult⟩ := Option.map_eq_some_iff.mp hconcrete
  refine ⟨s₀, space, _, hinit, Prod.ext hspace rfl, hresult, ?_, by decide⟩
  rw [hresult]
  rintro (hzero | ⟨-, -, hend⟩)
  · cases hzero
  · exact absurd hend (by decide)

end Flos.Mm
