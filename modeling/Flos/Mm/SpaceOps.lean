import Flos.Mm.SpaceInv

/-!
# The operations on an address space

Each operation keeps what an address space owns, under any discipline of holding resources. When an
allocation fails, a page may end up beside the address space, held but no longer reachable.
-/

namespace Flos.Mm

open Flos.Lib

variable {S : Type*} {A : KernelAlloc S} {H : Machine S → List Resource → Prop}
  {Good : Machine S → Prop} {borrowed nodes fixed : Set ℕ} {others : List Resource}

/-- An operation on an address space, or a page fault in it. -/
inductive SpaceOp
  | call (op : VmOp)
  | fault (faultAddress errorCode : ℕ)
  deriving DecidableEq, Repr

/-- The state behind an operation. -/
def SpaceOp.exec (A : KernelAlloc S) : SpaceOp → VmState S → VmState S
  | .call op, st => (op.exec A st).2
  | .fault faultAddress errorCode, st =>
    ⟨st.space, (vmFaultHandler A st.space faultAddress errorCode st.machine).2⟩

/-- The ranges of an operation are page-aligned and below `2 ^ 47`. -/
def VmOp.InLowerHalf (space : VmMap) : VmOp → Prop
  | .allocate size _ => findCandidate (pageCeil size) space.areas vmAllocBase + pageCeil size ≤ 2 ^ 47
  | .allocateRegion start size _ => 4096 ∣ start ∧ start + pageCeil size ≤ 2 ^ 47
  | .freeRegion start size => 4096 ∣ start ∧ start + pageCeil size ≤ 2 ^ 47

instance (space : VmMap) (op : VmOp) : Decidable (op.InLowerHalf space) := by
  unfold VmOp.InLowerHalf
  split <;> infer_instance

/-- Sharing the kernel's mappings changes the upper half of one table only. -/
theorem pmapCopyKernelMappings_eq (kernel : Option PageTable) (table : ℕ) (s : Machine S) :
    ∃ mem, pmapCopyKernelMappings kernel table s = ⟨mem, s.alloc, s.log⟩ ∧
      (∀ g, g ≠ table → mem g = s.mem g) ∧ ∀ i : Fin 512, i.val < 256 → mem table i = s.mem table i := by
  cases kernel with
  | none => exact ⟨s.mem, rfl, fun _ _ => rfl, fun _ _ => rfl⟩
  | some k =>
    refine ⟨_, rfl, fun g hg => Function.update_of_ne hg _ _, fun i hi => ?_⟩
    simp only [Function.update_self]
    rw [if_neg (by omega)]

section Operations

variable (hH : Holding A H Good borrowed nodes fixed) {kernel : Option PageTable} {s s' : Machine S}

include hH

/-! ## Creation -/

/-- A new page table is an object and a frame, and its lower half is empty. -/
theorem Holding.createTable (hfix : fixed = ∅) {held : List Resource} (h : H s held)
    (hgood : Good (pmapCreateTable A kernel s).2) :
    ((pmapCreateTable A kernel s).1 = none → H (pmapCreateTable A kernel s).2 held) ∧
      ∀ table, (pmapCreateTable A kernel s).1 = some table →
        H (pmapCreateTable A kernel s).2
            (.object .pageTableCache table.obj :: .frame table.pml4Phy :: held) ∧
          ∀ i : Fin 512, i.val < 256 → (pmapCreateTable A kernel s).2.mem table.pml4Phy i = 0 := by
  obtain ⟨mem, hcopy, hother, hlow⟩ := pmapCopyKernelMappings_eq kernel (s.allocPage A).1
    ((s.allocPage A).2.zeroFrame (s.allocPage A).1)
  simp only [pmapCreateTable, hcopy] at hgood ⊢
  by_cases hframe : (s.allocPage A).1 = 0
  · rw [if_pos hframe] at hgood ⊢
    exact ⟨fun _ => hH.allocPage_fail h hframe hgood, by simp⟩
  rw [if_neg hframe] at hgood ⊢
  have hheld : H ⟨mem, (s.allocPage A).2.alloc, (s.allocPage A).2.log⟩
      (.frame (s.allocPage A).1 :: held) := by
    refine hH.write (hH.allocPage h hframe) List.mem_cons_self (fun g hg => ?_) (by simp [hfix])
    rw [hother g hg]
    exact Function.update_of_ne hg _ _
  split at hgood
  next hobj =>
    rw [if_pos hobj]
    refine ⟨fun _ => hH.freePage (hH.cacheAlloc_fail hheld hobj ?_), by simp⟩
    exact hH.good_of_isPrefix (List.prefix_append _ _) hgood
  next hobj =>
    rw [if_neg hobj]
    refine ⟨by simp, ?_⟩
    rintro _ ⟨⟩
    refine ⟨hH.cacheAlloc hheld hobj, fun i hi => (hlow i hi).trans ?_⟩
    simp only [Machine.zeroFrame, Function.update_self]

/-- A new address space owns its record, its page table and the frame of its PML4; without one
nothing is held. -/
theorem Holding.create (hfix : fixed = ∅) (h : H s others) (hgood : Good (vmMapCreate A kernel s).2) :
    ((vmMapCreate A kernel s).1 = none → H (vmMapCreate A kernel s).2 others) ∧
      ∀ space, (vmMapCreate A kernel s).1 = some space →
        SpaceInv H borrowed nodes others space (vmMapCreate A kernel s).2 ∧ space.areas = [] ∧
          ∀ q, UserPath q → q ≠ [] →
            tableAt tableEntry (vmMapCreate A kernel s).2.mem space.pageTable.pml4Phy q = none := by
  rw [vmMapCreate] at hgood ⊢
  by_cases hrecord : (s.cacheAlloc A .vmMapCache).1 = 0
  · rw [if_pos hrecord] at hgood ⊢
    exact ⟨fun _ => hH.cacheAlloc_fail h hrecord hgood, by simp⟩
  rw [if_neg hrecord] at hgood ⊢
  have hheld := hH.cacheAlloc h hrecord
  have htable := fun hgood : Good (pmapCreateTable A kernel (s.cacheAlloc A .vmMapCache).2).2 =>
    hH.createTable hfix hheld hgood
  rcases hr : pmapCreateTable A kernel (s.cacheAlloc A .vmMapCache).2 with ⟨_ | table, s₁⟩
  all_goals
    rw [hr] at htable
    simp only [hr] at hgood ⊢
  · have hgood' : Good s₁ := hH.good_of_isPrefix (List.prefix_append _ _) hgood
    exact ⟨fun _ => hH.cacheFree ((htable hgood').1 rfl), by simp⟩
  · obtain ⟨mem, hcopy, hother, hlow⟩ := pmapCopyKernelMappings_eq kernel table.pml4Phy s₁
    rw [hcopy] at hgood ⊢
    have hlog : s₁.log <+: (⟨mem, s₁.alloc, s₁.log⟩ : Machine S).log := List.prefix_rfl
    have hgood' : Good s₁ := hH.good_of_isPrefix hlog hgood
    obtain ⟨hobjects, hzero⟩ := (htable hgood').2 table rfl
    refine ⟨by simp, ?_⟩
    rintro _ ⟨⟩
    obtain ⟨htree, hframes, hnone⟩ := @UserTree.of_empty borrowed mem table.pml4Phy fun i hi =>
      (hlow i hi).trans (hzero i hi)
    have hwrite := hH.write hobjects (List.mem_cons_of_mem _ List.mem_cons_self) hother (by simp [hfix])
    refine ⟨⟨⟨htree, [table.pml4Phy], fun f => ?_, hH.perm hwrite (List.Perm.swap _ _ _)⟩, by simp⟩,
      rfl, hnone⟩
    rw [hframes, List.mem_singleton, Set.mem_singleton_iff]

/-! ## Regions -/

/-- Allocating a region adds the node of its area, and changes no page. -/
theorem SpaceInv.allocateRegion {space : VmMap} {start size : ℕ} (flags : ℕ)
    (h : SpaceInv H borrowed nodes others space s) (hstart : 4096 ∣ start)
    (hend : start + pageCeil size ≤ 2 ^ 47)
    (hgood : Good (vmMapAllocateRegion A space start size flags s).2.2) :
    let r := vmMapAllocateRegion A space start size flags s
    SpaceInv H borrowed nodes others r.2.1 r.2.2 ∧ r.2.2.mem = s.mem ∧
      r.2.1.pageTable = space.pageTable ∧ ∀ v ∈ space.areas, v ∈ r.2.1.areas := by
  rcases vmMapAllocateRegion_cases A space flags s (hend.trans_lt (by decide)) with
    ⟨-, hr⟩ | ⟨hfail, hr⟩ | ⟨hnode, -, hr⟩
  · rw [hr]
    exact ⟨h, rfl, rfl, fun _ hv => hv⟩
  · rw [hr] at hgood ⊢
    exact ⟨⟨h.tables.cacheAlloc_fail hH _ hfail hgood, h.aligned⟩, rfl, rfl, fun _ hv => hv⟩
  · have htaken := h.tables.cacheAlloc hH _ hnode
    obtain ⟨fs, -, hholds⟩ := htaken.holds
    have hown := hH.node_addr hholds (List.mem_append_right _ List.mem_cons_self)
    have hperm := @areaNodes_insertVma nodes space.areas
      ⟨(s.cacheAlloc A .vmAreaCache).1, start, start + pageCeil size, flags⟩ hown
    rw [hr]
    refine ⟨⟨htaken.perm hH ((hperm.symm.append_right _).append_right _), fun v hv => ?_⟩, rfl, rfl,
      fun v hv => mem_insertVma.mpr (.inr hv)⟩
    rcases mem_insertVma.mp hv with rfl | hv
    · exact ⟨hstart, Nat.dvd_add hstart (Nat.dvd_mul_left _ _), hend⟩
    · exact h.aligned v hv

omit hH in
/-- The scan of `vm_map_allocate` stops at a page boundary. -/
theorem dvd_findCandidate {areas : List VmArea} (h : ∀ v ∈ areas, v.Aligned) {size candidate : ℕ}
    (hdvd : 4096 ∣ candidate) : 4096 ∣ findCandidate size areas candidate := by
  induction areas generalizing candidate with
  | nil => exact hdvd
  | cons v rest ih =>
    have hrest : ∀ v ∈ rest, v.Aligned := fun w hw => h w (List.mem_cons_of_mem v hw)
    rw [findCandidate]
    split
    · exact hdvd
    · refine ih hrest ?_
      split
      · exact (h v List.mem_cons_self).2.1
      · exact hdvd

/-- Allocating anywhere adds the node of an area, and changes no page. -/
theorem SpaceInv.allocate {space : VmMap} {size : ℕ} (flags : ℕ)
    (h : SpaceInv H borrowed nodes others space s)
    (hend : findCandidate (pageCeil size) space.areas vmAllocBase + pageCeil size ≤ 2 ^ 47)
    (hgood : Good (vmMapAllocate A space size flags s).2.2) :
    let r := vmMapAllocate A space size flags s
    SpaceInv H borrowed nodes others r.2.1 r.2.2 ∧ r.2.2.mem = s.mem ∧
      r.2.1.pageTable = space.pageTable ∧ ∀ v ∈ space.areas, v ∈ r.2.1.areas := by
  by_cases hsize : size = 0
  · rw [vmMapAllocate, if_pos hsize]
    exact ⟨h, rfl, rfl, fun _ hv => hv⟩
  have hfit : pageCeil size < wordSize :=
    ((Nat.le_add_left _ _).trans hend).trans_lt (by decide)
  rw [vmMapAllocate_eq flags s (Nat.pos_of_ne_zero hsize) hfit] at hgood ⊢
  -- both results of the region call carry its state
  simp only [apply_ite Prod.snd, ite_self] at hgood ⊢
  exact h.allocateRegion hH flags (dvd_findCandidate h.aligned (by decide))
    (by rwa [pageCeil_pageCeil]) hgood

/-- Freeing a region gives back its pages and trades the nodes of the areas it cuts. -/
theorem SpaceInv.freeRegion {space : VmMap} {start size : ℕ} (hsize : size ≠ 0)
    (h : SpaceInv H borrowed nodes others space s) (hfix : fixed ⊆ {space.pageTable.pml4Phy})
    (hstart : 4096 ∣ start)
    (hend : start + pageCeil size ≤ 2 ^ 47)
    (hkeep : ∀ v ∈ space.areas, v.node ∈ nodes → v.KeepsNode start (start + pageCeil size))
    (hsafe : ∀ x, start ≤ x → x < start + pageCeil size → ∀ f ∈ borrowed,
      PageLeaf s.mem space.pageTable.pml4Phy x f → f = 0)
    (hgood : Good (vmMapFreeRegion A space start size s).2) :
    let r := vmMapFreeRegion A space start size s
    SpaceInv H borrowed nodes others r.1 r.2 ∧ r.1.pageTable = space.pageTable ∧
      Unmapped borrowed s.mem r.2.mem space.pageTable.pml4Phy start (start + pageCeil size) ∧
      (¬ Failed s r.2 → ∀ v ∈ space.areas, ∀ x, v.start ≤ x → x < v.endAddr →
        x < start ∨ start + pageCeil size ≤ x → ∃ b ∈ r.1.areas, b.start ≤ x ∧ x < b.endAddr) := by
  rw [vmMapFreeRegion_eq s (Nat.pos_of_ne_zero hsize) (hend.trans_lt (by decide))] at hgood ⊢
  obtain ⟨hpages, hunmapped⟩ := h.tables.unmapPages hH hfix hstart hend le_rfl hsafe
  rw [spaceObjects, List.append_assoc] at hpages
  obtain ⟨hnodes, hcovers⟩ := hpages.freeAreas hH hkeep hgood
  have hlog : s.log <+: (Mm.unmapPages A space.pageTable.pml4Phy (start + pageCeil size)
      (pagesBetween start (start + pageCeil size)) start s).log :=
    (callInvariant_log A s.log).unmapPages (by simp only [wordSize]; omega) _
      (fun _ _ _ _ _ _ => trivial) List.prefix_rfl
  refine ⟨⟨?_, freeAreas_aligned hstart (Nat.dvd_add hstart (Nat.dvd_mul_left _ _)) h.aligned⟩, rfl,
    ?_, fun hsucc => hcovers fun hfail => hsucc (hfail.extend hlog List.prefix_rfl)⟩
  · rw [spaceObjects, List.append_assoc]
    exact hnodes
  · simp only [freeAreas_mem]
    exact hunmapped

/-! ## Faults -/

omit hH in
/-- Mapping a page of the lower half writes one leaf. -/
theorem pmapMapPage_eq {root va pa : ℕ} (hva : va < 2 ^ 47) (hdvd : 4096 ∣ va) (hpalt : pa < 2 ^ 52)
    (hpa : 4096 ∣ pa) (flags : ℕ) (s : Machine S) :
    pmapMapPage A root va pa flags s =
      mapLeaf A root [pml4Idx va, pdptIdx va, pdIdx va] (ptIdx va) (pa ||| parseCommonFlags flags)
        pageSize s := by
  rw [pmapMapPage, alignDown_page (hva.trans (by decide)), alignDown_page (hpalt.trans (by decide)),
    Nat.div_mul_cancel hdvd, Nat.div_mul_cancel hpa, map]

omit hH in
/-- The outcomes of a page fault: nothing changes; or there is no frame; or a cleared frame is mapped
at the page of the address, which lies in an area. -/
theorem vmFaultHandler_cases (A : KernelAlloc S) {space : VmMap}
    (haligned : ∀ v ∈ space.areas, v.Aligned) (addr errorCode : ℕ) (s : Machine S) :
    (∃ o, vmFaultHandler A space addr errorCode s = (o, s)) ∨
    ((s.allocPage A).1 = 0 ∧
      vmFaultHandler A space addr errorCode s = (.segfault, (s.allocPage A).2)) ∨
    ((s.allocPage A).1 ≠ 0 ∧ addr < 2 ^ 47 ∧ ∃ v ∈ space.areas, v.start ≤ addr / 4096 * 4096 ∧
      addr / 4096 * 4096 < v.endAddr ∧
      vmFaultHandler A space addr errorCode s =
        (.handled, (pmapMapPage A space.pageTable.pml4Phy (addr / 4096 * 4096) (s.allocPage A).1
          v.flags ((s.allocPage A).2.zeroFrame (s.allocPage A).1)).2)) := by
  rw [vmFaultHandler]
  cases hlookup : vmMapLookup space.areas addr with
  | none => exact .inl ⟨_, rfl⟩
  | some v =>
    have hin := List.find?_some hlookup
    simp only [ge_iff_le, Bool.and_eq_true, decide_eq_true_eq] at hin
    have haddr : addr < 2 ^ 47 :=
      hin.2.trans_le (haligned v (List.mem_of_find?_eq_some hlookup)).2.2
    simp only [alignDown_page (haddr.trans (by decide : 2 ^ 47 < wordSize))]
    split
    next => exact .inl ⟨_, rfl⟩
    next =>
      cases hw : vmMapLookup space.areas (addr / 4096 * 4096) with
      | none => exact .inl ⟨_, rfl⟩
      | some w =>
        have hwin := List.find?_some hw
        simp only [ge_iff_le, Bool.and_eq_true, decide_eq_true_eq] at hwin
        by_cases hfail : (s.allocPage A).1 = 0
        · exact .inr (.inl ⟨hfail, by simp only [hfail, if_true]⟩)
        · exact .inr (.inr ⟨hfail, haddr, w, List.mem_of_find?_eq_some hw, hwin.1, hwin.2,
            by simp only [hfail, if_false]⟩)

/-- What a fault does: nothing; or an allocation failed, the page that was taken, if any, is left
beside the address space, and no page is mapped; or the page of the address is mapped to a new frame,
and the page that was there before is left beside the address space. -/
theorem SpaceInv.fault {space : VmMap} {faultAddress errorCode : ℕ}
    (h : SpaceInv H borrowed nodes others space s) (hfix : fixed ⊆ {space.pageTable.pml4Phy})
    (hgood : Good (vmFaultHandler A space faultAddress errorCode s).2) :
    let s' := (vmFaultHandler A space faultAddress errorCode s).2
    s' = s ∨
    (Failed s s' ∧
      (∃ left : List ℕ, SpaceInv H borrowed nodes (left.map .frame ++ others) space s') ∧
      ∀ q, UserPath q → q.length = 4 → tableAt (ownEntry borrowed) s'.mem space.pageTable.pml4Phy q =
        tableAt (ownEntry borrowed) s.mem space.pageTable.pml4Phy q) ∨
    ∃ v ∈ space.areas, v.start ≤ faultAddress / 4096 * 4096 ∧
      faultAddress / 4096 * 4096 < v.endAddr ∧ faultAddress < 2 ^ 47 ∧
      SpaceInv H borrowed nodes
        ((tableAt (ownEntry borrowed) s.mem space.pageTable.pml4Phy (pathOf faultAddress)).toList.map
          .frame ++ others) space s' ∧
      ∀ q, UserPath q → q.length = 4 → q ≠ pathOf faultAddress →
        tableAt (ownEntry borrowed) s'.mem space.pageTable.pml4Phy q =
          tableAt (ownEntry borrowed) s.mem space.pageTable.pml4Phy q := by
  rcases vmFaultHandler_cases A h.aligned faultAddress errorCode s with
    ⟨o, hr⟩ | ⟨hfail, hr⟩ | ⟨hsome, haddr, w, hw, hlo, hhi, hr⟩
  all_goals rw [hr] at hgood ⊢
  · exact .inl rfl
  · exact .inr (.inl ⟨.of_log rfl (not_not.mpr hfail),
      ⟨[], h.tables.allocPage_fail hH hfail hgood, h.aligned⟩, fun _ _ _ => rfl⟩)
  have hva : faultAddress / 4096 * 4096 < 2 ^ 47 := (Nat.div_mul_le_self _ _).trans_lt haddr
  have hpath : pathOf (faultAddress / 4096 * 4096) = pathOf faultAddress :=
    (pathOf_eq_iff hva haddr).mpr (by omega)
  obtain ⟨htables, hsame⟩ := h.tables.allocPage hH hfix hsome
  obtain ⟨fs, -, hholds⟩ := htables.holds
  obtain ⟨-, hpa, hpalt, hown⟩ :=
    hH.frame_addr hholds (List.mem_append_right _ List.mem_cons_self)
  have hleaf := leafEntry_small w.flags hpa hpalt
  have hentry : tableEntry ((s.allocPage A).1 ||| parseCommonFlags w.flags) =
      some (s.allocPage A).1 :=
    tableEntry_eq_some.mpr ⟨hleaf.present, hleaf.pageSize, hleaf.addr⟩
  have hpage : ownEntry borrowed ((s.allocPage A).1 ||| parseCommonFlags w.flags) =
      some (s.allocPage A).1 := ownEntry_eq_some.mpr ⟨hentry, hown⟩
  have hmap : pmapMapPage A space.pageTable.pml4Phy (faultAddress / 4096 * 4096)
      (s.allocPage A).1 w.flags ((s.allocPage A).2.zeroFrame (s.allocPage A).1) = _ :=
    pmapMapPage_eq hva (Nat.dvd_mul_left _ _) hpalt hpa w.flags _
  have hlog : s.log <+: ((s.allocPage A).2.zeroFrame (s.allocPage A).1).log :=
    List.prefix_append _ _
  rw [hmap] at hgood ⊢
  have hheld : UserTables H borrowed space.pageTable.pml4Phy
      ((ownEntry borrowed ((s.allocPage A).1 ||| parseCommonFlags w.flags)).toList.map .frame ++
        (spaceObjects nodes space ++ others))
      ((s.allocPage A).2.zeroFrame (s.allocPage A).1) := by
    rw [hpage]
    exact htables
  have hmapped := hheld.mapEntry hH hva ⟨_, hentry⟩ hfix hgood
  rw [hpage] at hmapped
  rcases hmapped with ⟨-, hfailed, hrest, hpages⟩ | ⟨-, hrest, hpages⟩
  · exact .inr (.inl ⟨hfailed.extend hlog List.prefix_rfl, ⟨[(s.allocPage A).1],
      hrest.perm hH (List.perm_append_comm_assoc _ _ _), h.aligned⟩,
      fun q hq hq4 => (hpages q hq hq4).trans (hsame q hq)⟩)
  · have huser := userPath_pathOf haddr
    rw [hpath, hsame _ huser] at hrest
    refine .inr (.inr ⟨w, hw, hlo, hhi, haddr,
      ⟨hrest.perm hH (List.perm_append_comm_assoc _ _ _), h.aligned⟩, fun q hq hq4 hne => ?_⟩)
    rw [hpages q hq hq4, hpath, if_neg hne, hsame q hq]

/-! ## Destruction -/

/-- Destroying an address space gives back what it owns but the pages that no area covers. -/
theorem SpaceInv.destroy {space : VmMap} (h : SpaceInv H borrowed nodes others space s)
    (hfix : fixed ⊆ {space.pageTable.pml4Phy})
    (hnodes : ∀ v ∈ space.areas, v.node ∉ nodes)
    (hsafe : ∀ v ∈ space.areas, ∀ x, v.start ≤ x → x < v.endAddr → ∀ f ∈ borrowed,
      PageLeaf s.mem space.pageTable.pml4Phy x f → f = 0) :
    ∃ pages : List ℕ, (∀ f ∈ pages, ∃ q, UserPath q ∧ q.length = 4 ∧
        tableAt (ownEntry borrowed) s.mem space.pageTable.pml4Phy q = some f ∧
        ∀ v ∈ space.areas, ∀ x, v.start ≤ x → x < v.endAddr → 4096 ∣ x → pathOf x ≠ q) ∧
      H (vmMapDestroy A space s) (pages.map .frame ++ others) := by
  have htables := h.tables
  rw [spaceObjects, List.append_assoc] at htables
  obtain ⟨hrest, hgone⟩ := htables.destroyAreas hH hfix h.aligned hnodes hsafe
  obtain ⟨pages, hpages, hheld⟩ := hrest.destroyTable hH
  refine ⟨pages, fun f hf => ?_, hH.cacheFree (hH.perm hheld List.perm_middle)⟩
  obtain ⟨q, hq, hq4, hpath⟩ := hpages f hf
  obtain ⟨hold, hout⟩ := hgone q f hq hpath
  exact ⟨q, hq, hq4, hold, hout⟩

omit hH in
/-- Every operation keeps what an address space owns, whatever allocations fail, when releasing a
region neither drops an area with a borrowed node nor meets a borrowed frame other than the null
frame. -/
theorem SpaceInv.exec (hH : Holding A H (fun _ => True) borrowed nodes fixed) {st : VmState S}
    {op : SpaceOp} (h : SpaceInv H borrowed nodes others st.space st.machine)
    (hfix : fixed ⊆ {st.space.pageTable.pml4Phy})
    (hlegal : ∀ call, op = .call call → call.InLowerHalf st.space)
    (hkeep : ∀ start size, op = .call (.freeRegion start size) → size ≠ 0 →
      ∀ v ∈ st.space.areas, v.node ∈ nodes → v.KeepsNode start (start + pageCeil size))
    (hsafe : ∀ start size, op = .call (.freeRegion start size) → ∀ x, start ≤ x →
      x < start + pageCeil size → ∀ f ∈ borrowed,
        PageLeaf st.machine.mem st.space.pageTable.pml4Phy x f → f = 0) :
    (op.exec A st).space.pageTable = st.space.pageTable ∧
      ∃ others, SpaceInv H borrowed nodes others (op.exec A st).space (op.exec A st).machine := by
  cases op with
  | fault faultAddress errorCode =>
    refine ⟨rfl, ?_⟩
    have hgood : (fun _ => True) (vmFaultHandler A st.space faultAddress errorCode st.machine).2 :=
      trivial
    rcases h.fault hH hfix hgood with heq | ⟨-, ⟨left, hleft⟩, -⟩ | ⟨v, -, -, -, -, hmapped, -⟩
    · exact ⟨others, by rw [SpaceOp.exec, heq]; exact h⟩
    · exact ⟨_, hleft⟩
    · exact ⟨_, hmapped⟩
  | call op =>
    have hcall := hlegal op rfl
    cases op with
    | allocate size flags =>
      obtain ⟨hspace, -, htable, -⟩ := h.allocate hH flags hcall trivial
      exact ⟨htable, _, hspace⟩
    | allocateRegion start size flags =>
      obtain ⟨hspace, -, htable, -⟩ := h.allocateRegion hH flags hcall.1 hcall.2 trivial
      exact ⟨htable, _, hspace⟩
    | freeRegion start size =>
      simp only [SpaceOp.exec, VmOp.exec]
      by_cases hsize : size = 0
      · rw [vmMapFreeRegion, if_pos hsize]
        exact ⟨rfl, others, h⟩
      · obtain ⟨hspace, htable, -⟩ := h.freeRegion hH hsize hfix hcall.1 hcall.2
          (hkeep start size rfl hsize) (hsafe start size rfl) trivial
        exact ⟨htable, _, hspace⟩

end Operations

end Flos.Mm
