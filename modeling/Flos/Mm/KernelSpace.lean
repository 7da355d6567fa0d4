import Flos.Mm.DeviceMemory
import Flos.Mm.FirmwareAccess
import Flos.Mm.FirmwareRuns

/-!
# Runs of the kernel's address space

The kernel's address space is created without areas, and `init_pmap` fills its page table. From then on the
kernel allocates addresses in it, maps firmware and device memory, handles faults and unmaps firmware
memory again; the rest of the kernel leaves its tables and the nodes of its areas alone. Unmapping frees
whatever frame a page names. As long as that is neither a table nor a slab, the page table stays well
formed and the areas keep their nodes.
-/

namespace Flos.Mm

open Flos.Lib

/-! ## The nodes of areas -/

section Nodes

variable {S : Type*} {A : KernelAlloc S} {Ok : S → Prop} {frames : S → Set ℕ}
  {objects : CacheName → S → Set ℕ}

/-- Different live objects of the area cache. -/
structure NodesLive (objects : CacheName → S → Set ℕ) (nodes : List ℕ) (a : S) : Prop where
  nodup : nodes.Nodup
  live : ∀ n ∈ nodes, n ∈ objects .vmAreaCache a

/-- The order of the nodes does not matter. -/
theorem NodesLive.perm {nodes nodes' : List ℕ} {a : S} (h : NodesLive objects nodes a)
    (hperm : nodes.Perm nodes') : NodesLive objects nodes' a :=
  ⟨hperm.nodup_iff.mp h.nodup, fun n hn => h.live n (hperm.mem_iff.mpr hn)⟩

/-- A call that keeps the objects of the cache keeps the nodes. -/
theorem NodesLive.congr {nodes : List ℕ} {a a' : S} (h : NodesLive objects nodes a)
    (hsub : objects .vmAreaCache a ⊆ objects .vmAreaCache a') : NodesLive objects nodes a' :=
  ⟨h.nodup, fun n hn => hsub (h.live n hn)⟩

/-- The nodes of areas. -/
abbrev nodesOf (areas : List VmArea) : List ℕ := areas.map VmArea.node

variable (hA : A.Lawful Ok frames objects) {nodes others : List ℕ} {s : Machine S}

include hA

/-- A new node is none of the old ones. -/
theorem NodesLive.cacheAlloc (hok : Ok s.alloc) (h : NodesLive objects nodes s.alloc)
    (hnode : ¬ NodeFails A s) :
    NodesLive objects ((s.cacheAlloc A .vmAreaCache).1 :: nodes) (s.cacheAlloc A .vmAreaCache).2.alloc := by
  have hobjects := hA.cacheAlloc_objects _ .vmAreaCache hok hnode
  have hfresh := hA.cacheAlloc_fresh _ .vmAreaCache hok hnode
  refine ⟨List.nodup_cons.mpr ⟨fun hmem => hfresh (h.live _ hmem), h.nodup⟩, fun n hn => ?_⟩
  rw [Machine.cacheAlloc, hobjects]
  exact (List.mem_cons.mp hn).imp_right (h.live n)

/-- A failed call for a node keeps the nodes. -/
theorem NodesLive.cacheAlloc_fail (hok : Ok s.alloc) (h : NodesLive objects nodes s.alloc)
    (hnode : NodeFails A s) : NodesLive objects nodes (s.cacheAlloc A .vmAreaCache).2.alloc :=
  h.congr (hA.cacheAlloc_fail _ .vmAreaCache hok hnode).ge

/-- A cut trades the node of an area for those of its pieces and leaves the frames alone. -/
theorem CutStep.nodesLive {start endAddr : ℕ} {vma : VmArea} {s' : Machine S} {pieces : List VmArea}
    (h : CutStep A start endAddr vma s pieces s') (hok : Ok s.alloc)
    (hnodes : NodesLive objects (vma.node :: others) s.alloc) :
    Ok s'.alloc ∧ frames s'.alloc = frames s.alloc ∧ s'.mem = s.mem ∧
      NodesLive objects (nodesOf pieces ++ others) s'.alloc := by
  have hframes := hA.cacheAlloc_frames _ .vmAreaCache hok
  have hok' := hA.cacheAlloc_ok _ .vmAreaCache hok
  cases h
  case skip => exact ⟨hok, rfl, rfl, hnodes⟩
  case drop =>
    have hlive := hnodes.live _ List.mem_cons_self
    obtain ⟨hnotin, hnodup⟩ := List.nodup_cons.mp hnodes.nodup
    refine ⟨hA.cacheFree_ok _ _ _ hok hlive, hA.cacheFree_frames _ _ _ hok hlive, rfl, hnodup,
      fun n hn => ?_⟩
    rw [Machine.cacheFree, hA.cacheFree_objects _ _ _ hok hlive]
    exact ⟨hnodes.live n (List.mem_cons_of_mem _ hn), ne_of_mem_of_not_mem hn hnotin⟩
  case split hnode =>
    refine ⟨hok', hframes, rfl, (hnodes.cacheAlloc hA hok hnode).perm ?_⟩
    exact List.Perm.swap _ _ _
  case truncate hnode => exact ⟨hok', hframes, rfl, hnodes.cacheAlloc_fail hA hok hnode⟩
  case trimEnd => exact ⟨hok, rfl, rfl, hnodes⟩
  case trimStart => exact ⟨hok, rfl, rfl, hnodes⟩

/-- The area loop trades the nodes of the areas for those of the areas it leaves, and leaves the frames
alone. -/
theorem freeAreas_nodesLive (start endAddr : ℕ) {areas : List VmArea} (hok : Ok s.alloc)
    (hnodes : NodesLive objects (nodesOf areas ++ others) s.alloc) :
    Ok (freeAreas A start endAddr areas s).2.alloc ∧
      frames (freeAreas A start endAddr areas s).2.alloc = frames s.alloc ∧
      (freeAreas A start endAddr areas s).2.mem = s.mem ∧
      NodesLive objects (nodesOf (freeAreas A start endAddr areas s).1 ++ others)
        (freeAreas A start endAddr areas s).2.alloc := by
  induction areas generalizing s others with
  | nil => exact ⟨hok, rfl, rfl, hnodes⟩
  | cons vma rest ih =>
    obtain ⟨pieces, s', hstep, heq⟩ := freeAreas_cons A start endAddr vma rest s
    obtain ⟨hok', hframes, hmem, hcut⟩ := hstep.nodesLive hA hok hnodes
    obtain ⟨hok'', hframes', hmem', hrest⟩ := ih hok' (hcut.perm (List.perm_append_comm_assoc _ _ _))
    rw [heq]
    refine ⟨hok'', hframes'.trans hframes, hmem'.trans hmem, hrest.perm ?_⟩
    rw [show nodesOf (pieces ++ (freeAreas A start endAddr rest s').1) = _ from List.map_append,
      List.append_assoc]
    exact List.perm_append_comm_assoc _ _ _

omit hA in
/-- A piece of an area ends where the area ended or where the region starts. -/
theorem CutStep.endAddr {start endAddr : ℕ} {vma b : VmArea} {s' : Machine S} {pieces : List VmArea}
    (h : CutStep A start endAddr vma s pieces s') (hb : b ∈ pieces) :
    b.endAddr = start ∨ b.endAddr = vma.endAddr := by
  cases h <;> simp only [List.mem_cons, List.not_mem_nil, or_false] at hb
  case skip => exact .inr (hb ▸ rfl)
  case split =>
    rcases hb with rfl | rfl
    · exact .inl rfl
    · exact .inr rfl
  case truncate => exact .inl (hb ▸ rfl)
  case trimEnd => exact .inl (hb ▸ rfl)
  case trimStart => exact .inr (hb ▸ rfl)

omit hA in
/-- The areas that the loop leaves end where an area ended or where the region starts. -/
theorem endAddr_freeAreas {start endAddr : ℕ} {areas : List VmArea} {b : VmArea}
    (hb : b ∈ (freeAreas A start endAddr areas s).1) :
    b.endAddr = start ∨ ∃ v ∈ areas, b.endAddr = v.endAddr := by
  induction areas generalizing s with
  | nil => cases hb
  | cons vma rest ih =>
    obtain ⟨pieces, s', hstep, heq⟩ := freeAreas_cons A start endAddr vma rest s
    rw [heq] at hb
    rcases List.mem_append.mp hb with hpiece | hrest
    · refine (hstep.endAddr hpiece).imp_right fun h => ⟨vma, List.mem_cons_self, h⟩
    · obtain h | ⟨v, hv, h⟩ := ih hrest
      · exact .inl h
      · exact .inr ⟨v, List.mem_cons_of_mem _ hv, h⟩

/-- Mapping in the kernel's page table keeps the nodes. -/
theorem mapInvariant_nodes (nodes : List ℕ) (root : ℕ) :
    MapInvariant A root fun s => PtState Ok frames root s ∧ NodesLive objects nodes s.alloc where
  level p i t s hp hs ht := by
    obtain ⟨hstate, hnodes⟩ := hs
    obtain ⟨hstate', hnext⟩ := (mapInvariant_ptState hA.toLawfulPages root).level p i t s hp hstate ht
    have halloc : NodesLive objects nodes (s.allocPage A).2.alloc :=
      hnodes.congr (hA.allocPage_objects _ _ hstate.ok).ge
    refine ⟨⟨hstate', ?_⟩, hnext⟩
    rcases getNextLevel_cases A t i s with ⟨f, -, hr⟩ | ⟨-, hr⟩ | ⟨-, -, hr⟩ | ⟨-, -, hr⟩
    all_goals rw [hr]
    · exact hnodes
    · exact hnodes
    · exact halloc
    · exact halloc
  leaf p i t e s hpos hlen hend hs ht :=
    ⟨(mapInvariant_ptState hA.toLawfulPages root).leaf p i t e s hpos hlen hend hs.1 ht, hs.2⟩

end Nodes

/-! ## Unmapping firmware memory -/

/-- The allocators of this kernel are in order. -/
abbrev KernelOk : KernelMem Pmm → Prop := KernelMem.Ok Pmm.Ok Pmm.inUse hhdmOffset

/-- The frames that the allocators of this kernel have handed out. -/
abbrev kernelFrames : KernelMem Pmm → Set ℕ := KernelMem.frames Pmm.inUse hhdmOffset

/-- The tables that a page table reaches. -/
abbrev tablesOf (mem : ℕ → Fin 512 → ℕ) (root : ℕ) : Set ℕ := reachedTables tableEntry InTables mem root

/-- Freeing a frame that is no slab takes it out of use, if it was in use, and changes nothing else. -/
theorem kernelAllocators_release {a : KernelMem Pmm} (h : KernelOk a) {f : ℕ} (hdvd : 4096 ∣ f)
    (hne : f ≠ 0) (hslab : ∀ c, hhdmOffset + f ∉ a.slabs c) :
    KernelOk (kernelAllocators.freePage a f) ∧
      kernelFrames (kernelAllocators.freePage a f) = kernelFrames a \ {f} := by
  have hfree := pmmFreePage_freeSet h.pagesOk.small f
  have hused : (pmmFreePage a.heap.pages f).inUse = a.heap.pages.inUse \ {f} := by
    rw [Pmm.inUse_of_union (pmmFreePage_layout _ f).1.totalPages hfree]
    ext g
    simp only [Set.mem_sdiff, Set.mem_ofPred_eq, Set.mem_singleton_iff, Pmm.mem_inUse]
    refine and_congr_right fun hg => ?_
    obtain ⟨hdvd', -, hlt, -⟩ := hg
    omega
  refine ⟨h.setPages ?_ ?_, ?_⟩
  · refine h.pagesOk.exec (.freePage f) ?_
    change (0 : ℕ) ∉ (pmmFreePage a.heap.pages f).freeSet
    rw [hfree]
    rintro (hzero | ⟨hzero, -⟩)
    · exact h.pagesOk.zero hzero
    · omega
  · rintro g hg ⟨c, hc⟩
    change g ∈ (pmmFreePage a.heap.pages f).inUse
    rw [hused]
    refine ⟨hg, ?_⟩
    rintro rfl
    exact hslab c hc
  · ext g
    change g ∈ (pmmFreePage a.heap.pages f).inUse ∧ _ ↔ _
    rw [hused]
    simp only [Set.mem_sdiff, KernelMem.frames, Set.mem_ofPred_eq]
    exact and_right_comm

/-- What the unmapping of pages keeps: no more tables are reached than before, no slab changes hands, and
the nodes stay live. -/
structure UnmapInv (root : ℕ) (tables : Set ℕ) (slabs : CacheName → List ℕ) (nodes : List ℕ)
    (s : Machine (KernelMem Pmm)) : Prop where
  state : PtState KernelOk kernelFrames root s
  tables : tablesOf s.mem root ⊆ tables
  slabs : s.alloc.slabs = slabs
  nodes : NodesLive KernelMem.objects nodes s.alloc

/-- Unmapping a page keeps a page table well formed, and reaches no new table. -/
theorem PtState.pmapUnmapPage {S : Type*} {A : KernelAlloc S} {Ok : S → Prop} {frames : S → Set ℕ}
    {root : ℕ} {s : Machine S} (hs : PtState Ok frames root s) (va : ℕ) :
    PtState Ok frames root (pmapUnmapPage A root va s).2 ∧
      tablesOf (pmapUnmapPage A root va s).2.mem root ⊆ tablesOf s.mem root ∧
      (pmapUnmapPage A root va s).2.alloc = s.alloc := by
  rcases pmapUnmapPage_cases A root va s with ⟨-, hr⟩ | ⟨t, ht, hr⟩
  · rw [hr]
    exact ⟨hs, subset_rfl, rfl⟩
  · rw [hr]
    refine ⟨⟨hs.ok, hs.table.writeLeaf le_rfl ht (.inl tableEntry_zero)⟩, ?_, rfl⟩
    rintro u ⟨q, hq, hu⟩
    exact ⟨q, hq, tableAt_of_writeSlot_none tableEntry_zero hu⟩

section Unmap

variable {root : ℕ} {tables : Set ℕ} {slabs : CacheName → List ℕ} {nodes : List ℕ}
  {s : Machine (KernelMem Pmm)}

/-- Unmapping a page. -/
theorem UnmapInv.unmapPage (h : UnmapInv root tables slabs nodes s) (va : ℕ) :
    UnmapInv root tables slabs nodes (pmapUnmapPage kernelAllocators root va s).2 := by
  obtain ⟨hstate, htables, halloc⟩ := @PtState.pmapUnmapPage _ kernelAllocators _ _ _ _ h.state va
  exact ⟨hstate, htables.trans h.tables, halloc ▸ h.slabs, halloc ▸ h.nodes⟩

/-- Freeing a frame that is neither a table nor a slab. -/
theorem UnmapInv.freePage (h : UnmapInv root tables slabs nodes s) {f : ℕ} (hdvd : 4096 ∣ f)
    (hne : f ≠ 0) (htable : f ∉ tables) (hslab : ∀ c, hhdmOffset + f ∉ slabs c) :
    UnmapInv root tables slabs nodes (s.freePage kernelAllocators f) := by
  obtain ⟨hok, hframes⟩ := kernelAllocators_release h.state.ok hdvd hne (h.slabs ▸ hslab)
  refine ⟨⟨hok, h.state.table.distinct, h.state.table.openLink, fun p t hp ht => ?_⟩, h.tables, h.slabs,
    h.nodes.congr subset_rfl⟩
  refine hframes.ge ⟨h.state.table.held p t hp ht, ?_⟩
  rintro rfl
  exact htable (h.tables ⟨p, hp, ht⟩)

/-- The unmapping loop without freeing. -/
theorem UnmapInv.unmapWithoutFree (h : UnmapInv root tables slabs nodes s) (n va : ℕ) :
    UnmapInv root tables slabs nodes (unmapWithoutFree kernelAllocators root n va s) := by
  induction n generalizing va s with
  | zero => exact h
  | succ n ih => exact ih (h.unmapPage va) _

/-- The unmapping loop that frees what the pages of its range name. -/
theorem UnmapInv.unmapPages (h : UnmapInv root tables slabs nodes s) {endAddr va : ℕ}
    (hend : endAddr + 4096 ≤ wordSize) (fuel : ℕ)
    (hspares : ∀ x f, va ≤ x → x < endAddr → PageLeaf s.mem root x f → f ≠ 0 →
      f ∉ tables ∧ ∀ c, hhdmOffset + f ∉ slabs c) :
    UnmapInv root tables slabs nodes (unmapPages kernelAllocators root endAddr fuel va s) := by
  -- what the loop may free
  let free : ℕ → Prop := fun f => 4096 ∣ f ∧ f ≠ 0 ∧ f ∉ tables ∧ ∀ c, hhdmOffset + f ∉ slabs c
  have hfree : ∀ s f, free f → UnmapInv root tables slabs nodes s →
      UnmapInv root tables slabs nodes (s.freePage kernelAllocators f) :=
    fun s f hf hs => hs.freePage hf.1 hf.2.1 hf.2.2.1 hf.2.2.2
  refine unmapPages_keeps (fun s va hs => hs.unmapPage va) hfree hend fuel
    (fun x f hlo hhi hleaf hne => ?_) h
  refine ⟨?_, hne, hspares x f hlo hhi hleaf hne⟩
  obtain ⟨t, -, rfl⟩ := hleaf
  exact dvd_and_pagePhysMask _

end Unmap

/-! ## Runs -/

/-- The kernel's address space with the machine. -/
abbrev KernelState : Type := VmState (KernelMem Pmm)

/-- An operation on the kernel's address space; `other` is whatever the rest of the kernel does to the
machine. -/
inductive KernelOp
  | allocate (size flags : ℕ)
  | map (addr len : ℕ)
  | unmap (addr len : ℕ)
  | fault (faultAddress errorCode : ℕ)
  | mapPage (virt phys flags : ℕ)
  | mapRange (virt phys flags remain : ℕ)
  | other (machine : Machine (KernelMem Pmm))

/-- The state behind an operation. -/
def KernelOp.exec (st : KernelState) : KernelOp → KernelState
  | .allocate size flags =>
    let r := vmMapAllocate kernelAllocators st.space size flags st.machine
    ⟨r.2.1, r.2.2⟩
  | .map addr len =>
    let r := uacpiKernelMap kernelAllocators st.space addr len st.machine
    ⟨r.2.1, r.2.2⟩
  | .unmap addr len =>
    let r := uacpiKernelUnmap kernelAllocators st.space addr len st.machine
    ⟨r.1, r.2⟩
  | .fault faultAddress errorCode =>
    ⟨st.space, (vmFaultHandler kernelAllocators st.space faultAddress errorCode st.machine).2⟩
  | .mapPage virt phys flags =>
    ⟨st.space, (pmapMapPage kernelAllocators st.space.pageTable.pml4Phy virt phys flags st.machine).2⟩
  | .mapRange virt phys flags remain =>
    ⟨st.space,
      (pmapMapRange kernelAllocators st.space.pageTable.pml4Phy virt phys flags remain st.machine).2⟩
  | .other machine => ⟨st.space, machine⟩

/-- No page of the range names a table of the kernel's page table or a slab. -/
def UnmapSpares (st : KernelState) (addr len : ℕ) : Prop :=
  ∀ x ∈ unmapRange addr len, ∀ f, PageLeaf st.machine.mem st.space.pageTable.pml4Phy x f → f ≠ 0 →
    f ∉ tablesOf st.machine.mem st.space.pageTable.pml4Phy ∧
      ∀ c, hhdmOffset + f ∉ st.machine.alloc.slabs c

/-- The rest of the kernel keeps its allocators in order, and leaves alone the tables of the kernel's page
table and the nodes of its areas. -/
structure LeavesKernel (st : KernelState) (machine : Machine (KernelMem Pmm)) : Prop where
  ok : KernelOk machine.alloc
  held : tablesOf st.machine.mem st.space.pageTable.pml4Phy ⊆ kernelFrames machine.alloc
  same : ∀ t ∈ tablesOf st.machine.mem st.space.pageTable.pml4Phy, machine.mem t = st.machine.mem t
  nodes : ∀ v ∈ st.space.areas, v.node ∈ KernelMem.objects .vmAreaCache machine.alloc

/-- The operation spares the kernel's page table. -/
def KernelOp.Spares (st : KernelState) : KernelOp → Prop
  | .unmap addr len => addr < wordSize ∧ UnmapSpares st addr len
  | .other machine => LeavesKernel st machine
  | _ => True

/-- An operation that spares the kernel's page table. -/
def KernelStep (st : KernelState) (op : KernelOp) (st' : KernelState) : Prop :=
  op.Spares st ∧ st' = op.exec st

/-- What holds of the kernel's address space in a run. -/
structure KernelSpace (st : KernelState) : Prop where
  state : PtState KernelOk kernelFrames st.space.pageTable.pml4Phy st.machine
  nodes : NodesLive KernelMem.objects (nodesOf st.space.areas) st.machine.alloc
  ends : EndsAligned st.space.areas

/-- The outcomes of `vm_map_allocate`: nothing was called for, no node is left, or there is a new area. -/
theorem vmMapAllocate_outcome {S : Type*} (A : KernelAlloc S) (space : VmMap) (size flags : ℕ)
    (s : Machine S) :
    vmMapAllocate A space size flags s = (0, space, s) ∨
    NodeFails A s ∧ vmMapAllocate A space size flags s =
      (0, space, (s.cacheAlloc A .vmAreaCache).2) ∨
    ¬ NodeFails A s ∧ ∃ r, vmMapAllocate A space size flags s =
      (r, { space with areas := insertVma space.areas (nextArea A flags s
        (findCandidate (alignUp size pageSize) space.areas vmAllocBase) size) },
        (s.cacheAlloc A .vmAreaCache).2) := by
  have htwice : alignUp (alignUp size pageSize) pageSize = alignUp size pageSize :=
    alignUp_page_of_dvd (alignUp_page_lt size) (dvd_alignUp_page size)
  rw [vmMapAllocate]
  split
  · exact .inl rfl
  dsimp only
  generalize findCandidate (alignUp size pageSize) space.areas vmAllocBase = candidate
  by_cases hover : vmaOverlaps space.areas candidate (alignUp size pageSize) = true
  · have hr : vmMapAllocateRegion A space candidate (alignUp size pageSize) flags s = (0, space, s) := by
      rw [vmMapAllocateRegion, htwice, if_pos hover]
    simp [hr]
  by_cases hnode : NodeFails A s
  · have hr : vmMapAllocateRegion A space candidate (alignUp size pageSize) flags s =
        (0, space, (s.cacheAlloc A .vmAreaCache).2) := by
      have hnode' : (s.cacheAlloc A .vmAreaCache).1 = 0 := hnode
      rw [vmMapAllocateRegion, htwice, if_neg hover, vmaAlloc]
      simp [hnode']
    simp [hr, hnode]
  · have hr := vmMapAllocateRegion_of_not_overlaps A space flags s candidate (alignUp size pageSize)
      (by rw [htwice]; exact Bool.eq_false_iff.mpr hover) hnode
    refine .inr (.inr ⟨hnode, if candidate = 0 then 0 else candidate, ?_⟩)
    rw [hr]
    dsimp only
    simp only [nextArea, htwice]
    split <;> rfl

/-- A gap in a list of areas that end at page boundaries starts at one. -/
theorem EndsAligned.findCandidate {areas : List VmArea} (h : EndsAligned areas) (size : ℕ) :
    4096 ∣ findCandidate size areas vmAllocBase ∧ findCandidate size areas vmAllocBase < wordSize := by
  rcases findCandidate_cases size areas vmAllocBase with heq | ⟨v, hv, heq⟩
  · rw [heq]
    decide
  · rw [heq]
    exact h v hv

/-- `init_pmap` records no areas. -/
theorem initPmap_areas {S : Type*} {A : KernelAlloc S} {map : MemoryMap} {hhdm : ℕ} {s s' : Machine S}
    {space : VmMap} (hinit : initPmap A hhdm map s = (some space, s')) : space.areas = [] := by
  rw [initPmap] at hinit
  split at hinit
  · cases hinit
  next space₀ s₀ hcreate =>
    obtain ⟨hspace, -⟩ := Prod.mk.inj hinit
    rw [← Option.some.inj hspace]
    exact vmMapCreate_areas hcreate

namespace KernelSpace

variable {st st' : KernelState}

/-- Mapping in the kernel's page table. -/
theorem mapped (h : KernelSpace st) {s : Machine (KernelMem Pmm)}
    (hs : PtState KernelOk kernelFrames st.space.pageTable.pml4Phy s ∧
      NodesLive KernelMem.objects (nodesOf st.space.areas) s.alloc) : KernelSpace ⟨st.space, s⟩ :=
  ⟨hs.1, hs.2, h.ends⟩

/-- Allocating addresses takes a node, and the new area ends at a page boundary. -/
theorem allocate (h : KernelSpace st) (size flags : ℕ) :
    KernelSpace (KernelOp.exec st (.allocate size flags)) := by
  have hA := kernelAllocators_lawful
  have hstate : PtState KernelOk kernelFrames st.space.pageTable.pml4Phy
      (st.machine.cacheAlloc kernelAllocators .vmAreaCache).2 := by
    refine ⟨hA.cacheAlloc_ok _ _ h.state.ok, ?_⟩
    have hframes := hA.cacheAlloc_frames _ .vmAreaCache h.state.ok
    simpa only [Machine.cacheAlloc, hframes] using h.state.table
  rw [KernelOp.exec]
  rcases vmMapAllocate_outcome kernelAllocators st.space size flags st.machine with
    hr | ⟨hnode, hr⟩ | ⟨hnode, r, hr⟩
  all_goals rw [hr]
  · exact h
  · exact ⟨hstate, h.nodes.cacheAlloc_fail hA h.state.ok hnode, h.ends⟩
  · refine ⟨hstate, (h.nodes.cacheAlloc hA h.state.ok hnode).perm ?_, fun v hv => ?_⟩
    · exact ((insertVma_perm st.space.areas (nextArea kernelAllocators flags st.machine
        (Mm.findCandidate (alignUp size pageSize) st.space.areas vmAllocBase) size)).map
          VmArea.node).symm
    · rcases mem_insertVma.mp hv with rfl | hv
      · refine ⟨?_, Nat.mod_lt _ (by decide)⟩
        exact (Nat.dvd_mod_iff (by decide)).mpr
          (Nat.dvd_add (h.ends.findCandidate _).1 (dvd_alignUp_page size))
      · exact h.ends v hv

/-- Mapping firmware memory allocates addresses and maps pages there. -/
theorem map (h : KernelSpace st) (addr len : ℕ) : KernelSpace (KernelOp.exec st (.map addr len)) := by
  have halloc := h.allocate (alignUp (addr - alignDown addr pageSize + len) pageSize)
    (mmuFlagWrite ||| mmuFlagNoExec)
  have hmap := mapInvariant_nodes kernelAllocators_lawful (nodesOf (vmMapAllocate kernelAllocators st.space
    (alignUp (addr - alignDown addr pageSize + len) pageSize) (mmuFlagWrite ||| mmuFlagNoExec)
    st.machine).2.1.areas) st.space.pageTable.pml4Phy
  obtain ⟨-, htable⟩ := vmMapAllocate_frame kernelAllocators st.space
    (mmuFlagWrite ||| mmuFlagNoExec) st.machine
    (alignUp (addr - alignDown addr pageSize + len) pageSize)
  simp only [KernelOp.exec] at halloc
  simp only [KernelOp.exec, uacpiKernelMap, mapFound]
  split
  · exact halloc
  · refine halloc.mapped ?_
    have hstate := halloc.state
    simp only [htable] at hstate ⊢
    exact hmap.pmapMapRange _ _ _ _ ⟨hstate, halloc.nodes⟩

/-- Unmapping firmware memory frees what its pages name, cuts the range out of the areas and unmaps the
pages once more. -/
theorem unmap (h : KernelSpace st) {addr len : ℕ} (haddr : addr < wordSize)
    (hspares : UnmapSpares st addr len) : KernelSpace (KernelOp.exec st (.unmap addr len)) := by
  have hvirt : 4096 ∣ alignDown addr pageSize ∧ alignDown addr pageSize < wordSize := by
    rw [alignDown_page haddr]
    exact ⟨Nat.dvd_mul_left _ _, (Nat.div_mul_le_self addr 4096).trans_lt haddr⟩
  have hinv : UnmapInv st.space.pageTable.pml4Phy (tablesOf st.machine.mem st.space.pageTable.pml4Phy)
      st.machine.alloc.slabs (nodesOf st.space.areas) st.machine := ⟨h.state, subset_rfl, rfl, h.nodes⟩
  simp only [KernelOp.exec, uacpiKernelUnmap, unmapFirmware]
  simp only [UnmapSpares, unmapRange] at hspares
  generalize alignDown addr pageSize = virt at hvirt hspares ⊢
  generalize alignUp (addr - virt + len) pageSize = size at hspares ⊢
  obtain ⟨hdvd, hlt⟩ := hvirt
  rw [vmMapFreeRegion]
  split
  · have hrest := hinv.unmapWithoutFree (size / pageSize) virt
    exact ⟨hrest.state, hrest.nodes, h.ends⟩
  · have hend : (virt + alignUp size pageSize) % wordSize + 4096 ≤ wordSize := by
      have hsize := dvd_alignUp_page size
      simp only [wordSize]
      omega
    have hpages := hinv.unmapPages hend (pagesBetween virt ((virt + alignUp size pageSize) % wordSize))
      fun x f hlo hhi => hspares x ⟨hlo, hhi⟩ f
    have hnodes := hpages.nodes
    rw [← List.append_nil (nodesOf _)] at hnodes
    obtain ⟨hok, hframes, hmem, hcut⟩ := freeAreas_nodesLive kernelAllocators_lawful virt
      ((virt + alignUp size pageSize) % wordSize) hpages.state.ok hnodes
    rw [List.append_nil] at hcut
    dsimp only
    generalize hs : unmapPages kernelAllocators st.space.pageTable.pml4Phy
      ((virt + alignUp size pageSize) % wordSize)
      (pagesBetween virt ((virt + alignUp size pageSize) % wordSize)) virt st.machine = s at *
    have hstate : PtState KernelOk kernelFrames st.space.pageTable.pml4Phy
        (freeAreas kernelAllocators virt ((virt + alignUp size pageSize) % wordSize) st.space.areas s).2 :=
      ⟨hok, (hpages.state.table.congr (fun t _ => congrFun hmem t) hframes.ge).1⟩
    have hcutInv : UnmapInv st.space.pageTable.pml4Phy Set.univ _ _ _ :=
      ⟨hstate, Set.subset_univ _, rfl, hcut⟩
    have hrest := hcutInv.unmapWithoutFree (size / pageSize) virt
    refine ⟨hrest.state, hrest.nodes, fun b hb => ?_⟩
    rcases endAddr_freeAreas hb with heq | ⟨v, hv, heq⟩
    · exact heq ▸ ⟨hdvd, hlt⟩
    · exact heq ▸ h.ends v hv

/-- A fault takes a frame and maps it. -/
theorem fault (h : KernelSpace st) (faultAddress errorCode : ℕ) :
    KernelSpace (KernelOp.exec st (.fault faultAddress errorCode)) := by
  have hA := kernelAllocators_lawful
  have htaken := h.state.allocPage hA.toLawfulPages
  have hnodes : NodesLive KernelMem.objects (nodesOf st.space.areas)
      (st.machine.allocPage kernelAllocators).2.alloc :=
    h.nodes.congr (hA.allocPage_objects _ _ h.state.ok).ge
  refine h.mapped ?_
  simp only [vmFaultHandler]
  split
  · exact ⟨h.state, h.nodes⟩
  split
  · exact ⟨h.state, h.nodes⟩
  split
  · exact ⟨h.state, h.nodes⟩
  split
  · exact ⟨htaken, hnodes⟩
  next hframe =>
    -- the frame is new, so that clearing it changes no table
    have hfresh := hA.allocPage_fresh _ h.state.ok hframe
    have hzeroed : PtState KernelOk kernelFrames st.space.pageTable.pml4Phy
        ((st.machine.allocPage kernelAllocators).2.zeroFrame
          (st.machine.allocPage kernelAllocators).1) := by
      refine h.state.of_extends htaken.ok ⟨?_, fun t ht => Function.update_of_ne ?_ _ _⟩
      · exact (Set.subset_insert _ _).trans (hA.allocPage_frames _ h.state.ok hframe).ge
      · exact ne_of_mem_of_not_mem ht hfresh
    exact (mapInvariant_nodes hA _ st.space.pageTable.pml4Phy).pmapMapPage _ _ _ ⟨hzeroed, hnodes⟩

/-- What the rest of the kernel does. -/
theorem other (h : KernelSpace st) {machine : Machine (KernelMem Pmm)}
    (hleaves : LeavesKernel st machine) : KernelSpace (KernelOp.exec st (.other machine)) := by
  obtain ⟨hok, hheld, hsame, hlive⟩ := hleaves
  have htables : WellFormedTable (tablesOf st.machine.mem st.space.pageTable.pml4Phy) st.machine.mem
      st.space.pageTable.pml4Phy :=
    ⟨h.state.table.distinct, h.state.table.openLink, fun p t hp ht => ⟨p, hp, ht⟩⟩
  refine h.mapped ⟨⟨hok, (htables.congr hsame hheld).1⟩, h.nodes.nodup, fun n hn => ?_⟩
  obtain ⟨v, hv, rfl⟩ := List.mem_map.mp hn
  exact hlive v hv

/-- Every operation that spares the kernel's page table. -/
theorem step {op : KernelOp} (h : KernelSpace st) (hstep : KernelStep st op st') : KernelSpace st' := by
  obtain ⟨hspares, rfl⟩ := hstep
  have hmap := mapInvariant_nodes kernelAllocators_lawful (nodesOf st.space.areas)
    st.space.pageTable.pml4Phy
  cases op with
  | allocate size flags => exact h.allocate size flags
  | map addr len => exact h.map addr len
  | unmap addr len => exact h.unmap hspares.1 hspares.2
  | fault faultAddress errorCode => exact h.fault faultAddress errorCode
  | mapPage virt phys flags => exact h.mapped (hmap.pmapMapPage _ _ _ ⟨h.state, h.nodes⟩)
  | mapRange virt phys flags remain => exact h.mapped (hmap.pmapMapRange _ _ _ _ ⟨h.state, h.nodes⟩)
  | other machine => exact h.other hspares

/-- The kernel's address space behind `init_pmap`. -/
theorem init {map : MemoryMap} {hhdm : ℕ} {s : Machine (KernelMem Pmm)} (hok : KernelOk s.alloc)
    (hinit : initPmap kernelAllocators hhdm map s = (some st.space, st.machine)) : KernelSpace st := by
  have hareas := initPmap_areas hinit
  refine ⟨ptState_initPmap kernelAllocators_lawful hok hinit, ?_, ?_⟩
  all_goals rw [hareas]
  · exact ⟨List.nodup_nil, by simp⟩
  · simp [EndsAligned]

end KernelSpace

end Flos.Mm
