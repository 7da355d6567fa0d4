import Flos.Mm.FreeRegion
import Flos.Mm.LowAllocations
import Flos.Mm.SpaceRuns

/-!
# Pages and areas when memory runs out

Any allocation may fail. Faults and allocations then change nothing that the areas do not cover, but a
region that is freed from the middle of an area needs a node for the tail, and without one the tail is
dropped from the list while its pages stay mapped.
-/

namespace Flos.Mm

open Flos.Lib

section Areas

variable {S : Type*} (A : KernelAlloc S) {start endAddr : ℕ} {areas before after : List VmArea}
  {v : VmArea} {s : Machine S}

/-- The region lies in the middle of the area. -/
def VmArea.Splits (start endAddr : ℕ) (v : VmArea) : Prop := v.start < start ∧ endAddr < v.endAddr

/-- Areas that are disjoint from one that is split lie outside of the region. -/
theorem VmArea.Splits.outside {w : VmArea} (h : v.Splits start endAddr)
    (hdisjoint : SpanDisjoint VmArea.start VmArea.endAddr v w) : w.endAddr ≤ start ∨ endAddr ≤ w.start := by
  obtain ⟨h1, h2⟩ := h
  rcases hdisjoint with h3 | h3
  · exact .inr (h2.le.trans h3)
  · exact .inl (h3.trans h1.le)

/-- The area loop with one area to split: its tail is kept if there is a node for it. -/
theorem freeAreas_of_splits (hrange : start < endAddr) (hv : v.Splits start endAddr)
    (hbefore : ∀ w ∈ before, w.endAddr ≤ start ∨ endAddr ≤ w.start)
    (hafter : ∀ w ∈ after, w.endAddr ≤ start ∨ endAddr ≤ w.start) :
    (freeAreas A start endAddr (before ++ v :: after) s).1 =
      before ++ { v with endAddr := start } ::
        ((if NodeFails A s then []
          else [⟨(s.cacheAlloc A .vmAreaCache).1, endAddr, v.endAddr, v.flags⟩]) ++ after) := by
  obtain ⟨h1, h2⟩ := hv
  induction before with
  | nil =>
    rw [List.nil_append, freeAreas, if_neg (by omega), if_neg (by omega), if_pos ⟨h1, h2⟩, vmaAlloc]
    by_cases hnode : (s.cacheAlloc A .vmAreaCache).1 = 0
    · simp [hnode, NodeFails, freeAreas_of_outside A _ hafter]
    · simp [hnode, NodeFails, freeAreas_of_outside A _ hafter]
  | cons w before ih =>
    have hrest := ih fun u hu => hbefore u (List.mem_cons_of_mem w hu)
    rw [List.cons_append, freeAreas, if_pos (hbefore w List.mem_cons_self)]
    exact congrArg (List.cons w) hrest

variable {A}

/-- Where no area is split, the loop covers the areas outside of the region, whatever fails. -/
theorem freeAreas_covers_of_not_splits (hnone : ∀ w ∈ areas, ¬ w.Splits start endAddr)
    (hv : v ∈ areas) {x : ℕ} (hin : v.start ≤ x ∧ x < v.endAddr) (hout : x < start ∨ endAddr ≤ x) :
    ∃ b ∈ (freeAreas A start endAddr areas s).1, b.flags = v.flags ∧ b.start ≤ x ∧ x < b.endAddr := by
  induction areas generalizing s with
  | nil => cases hv
  | cons vma rest ih =>
    obtain ⟨pieces, s', hstep, heq⟩ := freeAreas_cons A start endAddr vma rest s
    rw [heq]
    rcases List.mem_cons.mp hv with rfl | hv
    · have hlog : s'.log ≠ s.log ++ [.allocObject .vmAreaCache 0] := by
        cases hstep with
        | truncate h1 h2 h3 => exact absurd ⟨h1, h3⟩ (hnone v List.mem_cons_self)
        | split h1 h2 h3 h4 => exact absurd ⟨h1, h4⟩ (hnone v List.mem_cons_self)
        | skip => simp
        | drop => simp [Machine.cacheFree]
        | trimEnd => simp
        | trimStart => simp
      obtain ⟨b, hb, hflags, hin'⟩ := hstep.covers hlog hin hout
      exact ⟨b, List.mem_append_left _ hb, hflags, hin'⟩
    · obtain ⟨b, hb, hflags, hin'⟩ := ih (fun w hw => hnone w (List.mem_cons_of_mem _ hw)) hv
      exact ⟨b, List.mem_append_right _ hb, hflags, hin'⟩

/-- The area loop keeps all flags outside of the region exactly if it finds a node for the tail of an
area that it splits. -/
theorem freeAreas_keepsFlags_iff (hrange : start < endAddr) (hdisjoint : AreasDisjoint areas) :
    (∀ flags x, ¬ (start ≤ x ∧ x < endAddr) → FlaggedAt areas flags x →
      FlaggedAt (freeAreas A start endAddr areas s).1 flags x) ↔
      ¬ ((∃ v ∈ areas, v.Splits start endAddr) ∧ NodeFails A s) := by
  by_cases hsplit : ∃ v ∈ areas, v.Splits start endAddr
  · obtain ⟨v, hv, hsplits⟩ := hsplit
    obtain ⟨before, after, rfl⟩ := List.mem_iff_append.mp hv
    rw [and_iff_right ⟨v, hv, hsplits⟩]
    obtain ⟨-, hrest, hcross⟩ := List.pairwise_append.mp hdisjoint
    have hbefore : ∀ w ∈ before, w.endAddr ≤ start ∨ endAddr ≤ w.start := fun w hw =>
      hsplits.outside (hcross w hw v List.mem_cons_self).symm
    have hafter : ∀ w ∈ after, w.endAddr ≤ start ∨ endAddr ≤ w.start := fun w hw =>
      hsplits.outside ((List.pairwise_cons.mp hrest).1 w hw)
    rw [freeAreas_of_splits A hrange hsplits hbefore hafter]
    by_cases hnode : NodeFails A s
    · -- the last address of the area is lost
      rw [if_pos hnode]
      refine iff_of_false (fun hkeep => ?_) (not_not.mpr hnode)
      obtain ⟨h1, h2⟩ := hsplits
      obtain ⟨w, hw, -, hlo, hhi⟩ := hkeep v.flags (v.endAddr - 1) (by omega)
        ⟨v, hv, rfl, by omega, by omega⟩
      rw [List.nil_append, List.mem_append, List.mem_cons] at hw
      rcases hw with hw | rfl | hw
      · rcases hcross w hw v List.mem_cons_self with h | h <;> omega
      · simp only at hhi
        omega
      · rcases (List.pairwise_cons.mp hrest).1 w hw with h | h <;> omega
    · rw [if_neg hnode]
      refine iff_of_true (fun flags x hout hflag => ?_) hnode
      obtain ⟨w, hw, hflags, hin⟩ := hflag
      rcases List.mem_append.mp hw with hw | hw
      · exact ⟨w, List.mem_append_left _ hw, hflags, hin⟩
      · rcases List.mem_cons.mp hw with rfl | hw
        · by_cases hlow : x < start
          · exact ⟨_, List.mem_append_right _ List.mem_cons_self, hflags, hin.1, hlow⟩
          · refine ⟨_, List.mem_append_right _ (List.mem_cons_of_mem _ List.mem_cons_self), hflags, ?_,
              hin.2⟩
            simp only
            omega
        · refine ⟨w, List.mem_append_right _ (List.mem_cons_of_mem _ ?_), hflags, hin⟩
          exact List.mem_append_right _ hw
  · refine iff_of_true (fun flags x hout hflag => ?_) fun h => hsplit h.1
    obtain ⟨w, hw, hflags, hin⟩ := hflag
    obtain ⟨b, hb, hsame, hin'⟩ := freeAreas_covers_of_not_splits (A := A) (s := s)
      (fun u hu hs => hsplit ⟨u, hu, hs⟩) hw hin (by omega)
    exact ⟨b, hb, hsame.trans hflags, hin'⟩

end Areas

/-! ## Runs -/

/-- A region that is freed lies in the middle of an area, and behind its pages no node is left for the
tail. -/
def SplitFails {S : Type*} (A : KernelAlloc S) (st : VmState S) (start size : ℕ) : Prop :=
  (∃ v ∈ st.space.areas, v.Splits start (start + pageCeil size)) ∧
    NodeFails A (unmapPages A st.space.pageTable.pml4Phy (start + pageCeil size)
      (pagesBetween start (start + pageCeil size)) start st.machine)

/-- The regions are whole pages of the lower half, and freeing one drops no tail; faults are not-present
faults. -/
def SpaceOp.KeepsTails {S : Type*} (A : KernelAlloc S) (st : VmState S) : SpaceOp → Prop
  | .call (.allocate size _) => size = 0 ∨ NodeFails A st.machine ∨ LowGap st.space.areas size
  | .call (.allocateRegion start size _) => 4096 ∣ start ∧ start + pageCeil size ≤ 2 ^ 47
  | .call (.freeRegion start size) => 4096 ∣ start ∧ start + pageCeil size ≤ 2 ^ 47 ∧
      (0 < size → ¬ SplitFails A st start size)
  | .fault _ errorCode => errorCode &&& 1 <<< 0 = 0

/-- One operation that drops no tail. -/
def CoveredStep {S : Type*} (A : KernelAlloc S) (st : VmState S) (op : SpaceOp) (st' : VmState S) :
    Prop :=
  op.KeepsTails A st ∧ st' = op.exec A st

/-- What holds in a run: the address space owns its tables and nodes, its areas are disjoint, and its
pages lie in them. -/
structure CoveredSpace {S : Type*} (Ok : S → Prop) (frames : S → Set ℕ)
    (objects : CacheName → S → Set ℕ) (s₀ : Machine S) (st : VmState S) : Prop where
  owns : SpaceInv (Custody Ok frames objects {r | Live frames objects s₀.alloc r} ∅ s₀.mem) ∅ ∅ []
    st.space st.machine
  disjoint : AreasDisjoint st.space.areas
  covered : PagesCovered st.space st.machine.mem

/-- Every translated user address lies in an area. -/
def AddressesCovered {S : Type*} (st : VmState S) : Prop :=
  ∀ va < 2 ^ 47, translate st.machine.mem st.space.pageTable.pml4Phy va ≠ none →
    ∃ v ∈ st.space.areas, v.start ≤ va ∧ va < v.endAddr

/-- Freeing a region keeps the flags of all other addresses of areas. -/
def KeepsFlags {S : Type*} (A : KernelAlloc S) (st : VmState S) (start size : ℕ) : Prop :=
  ∀ flags x, ¬ (start ≤ x ∧ x < start + pageCeil size) → FlaggedAt st.space.areas flags x →
    FlaggedAt (vmMapFreeRegion A st.space start size st.machine).1.areas flags x

section Runs

variable {S : Type*} {A : KernelAlloc S} {Ok : S → Prop} {frames : S → Set ℕ}
  {objects : CacheName → S → Set ℕ} {s₀ : Machine S} {st st' : VmState S}

/-- Pages in areas are addresses in areas. -/
theorem CoveredSpace.addresses (h : CoveredSpace Ok frames objects s₀ st) : AddressesCovered st := by
  intro va hva hsome
  obtain ⟨t, ht⟩ := Option.ne_none_iff_exists'.mp hsome
  have hpage := h.owns.tables.tree.tableAt_of_translate hva ht
  obtain ⟨v, hv, x, hlo, hhi, hdvd, hpath⟩ := h.covered (pathOf va) (userPath_pathOf hva)
    (pathOf_length va) (by simp [hpage])
  obtain ⟨-, hend, hlow⟩ := h.owns.aligned v hv
  have hx := (pathOf_eq_iff (hhi.trans_le hlow) hva).mp hpath
  exact ⟨v, hv, by omega, by omega⟩

/-- Freeing a region keeps the flags outside of it exactly if no tail is dropped. -/
theorem keepsFlags_iff (hdisjoint : AreasDisjoint st.space.areas) {start size : ℕ} (hsize : 0 < size)
    (hend : start + pageCeil size ≤ 2 ^ 47) :
    KeepsFlags A st start size ↔ ¬ SplitFails A st start size := by
  have hrange : start < start + pageCeil size := Nat.lt_add_of_pos_right (pageCeil_pos hsize)
  rw [KeepsFlags, vmMapFreeRegion_eq st.machine hsize (hend.trans_lt (by decide))]
  exact freeAreas_keepsFlags_iff hrange hdisjoint

variable (hA : A.Lawful Ok frames objects)

include hA

/-- A new address space. -/
theorem CoveredSpace.create (hok : Ok s₀.alloc) {kernel : Option PageTable}
    (hcreate : vmMapCreate A kernel s₀ = (some st.space, st.machine)) :
    CoveredSpace Ok frames objects s₀ st := by
  have hnothing : Custody Ok frames objects {r | Live frames objects s₀.alloc r} ∅ s₀.mem s₀ [] :=
    ⟨hok, List.nodup_nil, by simp, by simp, fun _ hr => hr, by simp, fun _ _ => rfl, by simp⟩
  obtain ⟨howns, hareas, hnone⟩ := (Holding.create (custody_holding hA _ ∅ _) rfl hnothing trivial).2
    st.space (by rw [hcreate])
  rw [hcreate] at howns hnone
  refine ⟨howns, hareas ▸ List.Pairwise.nil, fun q hq hq4 hmapped => absurd (hnone q hq ?_) hmapped⟩
  rintro rfl
  cases hq4

/-- Freeing a region keeps pages in areas if no tail is dropped. -/
theorem CoveredSpace.freeRegion (h : CoveredSpace Ok frames objects s₀ st) {start size : ℕ}
    (hstart : 4096 ∣ start) (hend : start + pageCeil size ≤ 2 ^ 47) (hsize : 0 < size)
    (htail : ¬ SplitFails A st start size) :
    CoveredSpace Ok frames objects s₀ ((VmOp.freeRegion start size).exec A st).2 := by
  obtain ⟨howns, htable, hunmapped, -⟩ := h.owns.freeRegion (custody_holding hA _ ∅ _) hsize.ne'
    (Set.empty_subset _) hstart hend (fun _ _ hmem => absurd hmem (Set.notMem_empty _))
    (fun _ _ _ _ hmem => absurd hmem (Set.notMem_empty _)) trivial
  obtain ⟨hunmapped, hkept⟩ := hunmapped
  rw [ownEntry_empty] at hunmapped hkept
  have hflags := (keepsFlags_iff h.disjoint hsize hend).mpr htail
  refine ⟨howns.forget, ?_, fun q hq hq4 hmapped => ?_⟩
  · simp only [VmOp.exec]
    rw [vmMapFreeRegion_eq st.machine hsize (hend.trans_lt (by decide))]
    exact AreasDisjoint.freeAreas h.disjoint _ (Nat.le_add_right _ _)
  · simp only [VmOp.exec] at hmapped ⊢
    rw [htable] at hmapped
    obtain ⟨f, hf⟩ := Option.ne_none_iff_exists'.mp hmapped
    obtain ⟨v, hv, x, hlo, hhi, hdvd, rfl⟩ := h.covered q hq hq4 (by rw [hkept q f hq hf]; simp)
    have hout : ¬ (start ≤ x ∧ x < start + pageCeil size) := fun hin =>
      hmapped (hunmapped x hin.1 hin.2 hdvd)
    obtain ⟨b, hb, -, hin⟩ := hflags v.flags x hout ⟨v, hv, rfl, hlo, hhi⟩
    exact ⟨b, hb, x, hin.1, hin.2, hdvd, rfl⟩

/-- A fault maps a page of an area, or none. -/
theorem CoveredSpace.fault (h : CoveredSpace Ok frames objects s₀ st) (faultAddress errorCode : ℕ) :
    CoveredSpace Ok frames objects s₀
      ⟨st.space, (vmFaultHandler A st.space faultAddress errorCode st.machine).2⟩ := by
  have hgood : (fun _ => True) (vmFaultHandler A st.space faultAddress errorCode st.machine).2 := trivial
  rcases h.owns.fault (custody_holding hA _ ∅ _) (Set.empty_subset _) hgood with
    heq | ⟨-, ⟨left, hleft⟩, hpages⟩ | ⟨v, hv, hlo, hhi, haddr, howns, hpages⟩
  · rwa [heq]
  · rw [ownEntry_empty] at hpages
    refine ⟨hleft.forget, h.disjoint, fun q hq hq4 hmapped => ?_⟩
    rw [hpages q hq hq4] at hmapped
    exact h.covered q hq hq4 hmapped
  · rw [ownEntry_empty] at hpages
    refine ⟨howns.forget, h.disjoint, fun q hq hq4 hmapped => ?_⟩
    by_cases hpath : q = pathOf faultAddress
    · have hva := (Nat.div_mul_le_self faultAddress 4096).trans_lt haddr
      refine ⟨v, hv, _, hlo, hhi, Nat.dvd_mul_left _ _, hpath ▸ ?_⟩
      exact (pathOf_eq_iff hva haddr).mpr (by omega)
    · rw [hpages q hq hq4 hpath] at hmapped
      exact h.covered q hq hq4 hmapped

/-- Allocating a region covers no less. -/
theorem CoveredSpace.allocateRegion (h : CoveredSpace Ok frames objects s₀ st) {start size flags : ℕ}
    (hstart : 4096 ∣ start) (hend : start + pageCeil size ≤ 2 ^ 47) :
    CoveredSpace Ok frames objects s₀ ((VmOp.allocateRegion start size flags).exec A st).2 := by
  obtain ⟨howns, hmem, htable, hareas⟩ :=
    h.owns.allocateRegion (custody_holding hA _ ∅ _) flags hstart hend trivial
  refine ⟨howns, ?_, h.covered.mono hmem htable hareas⟩
  simp only [VmOp.exec]
  rcases vmMapAllocateRegion_cases A st.space flags st.machine (hend.trans_lt (by decide)) with
    ⟨-, hr⟩ | ⟨-, hr⟩ | ⟨-, hout, hr⟩
  all_goals rw [hr]
  · exact h.disjoint
  · exact h.disjoint
  · exact AreasDisjoint.insertVma h.disjoint hout

/-- Every operation that drops no tail keeps the pages in the areas. -/
theorem CoveredSpace.step {op : SpaceOp} (h : CoveredSpace Ok frames objects s₀ st)
    (hstep : CoveredStep A st op st') : CoveredSpace Ok frames objects s₀ st' := by
  obtain ⟨hlegal, rfl⟩ := hstep
  cases op with
  | fault faultAddress errorCode => exact h.fault hA faultAddress errorCode
  | call op =>
    cases op with
    | allocateRegion start size flags => exact h.allocateRegion hA hlegal.1 hlegal.2
    | freeRegion start size =>
      by_cases hsize : size = 0
      · rw [SpaceOp.exec, VmOp.exec, vmMapFreeRegion, if_pos hsize]
        exact h
      · have hpos := Nat.pos_of_ne_zero hsize
        exact h.freeRegion hA hlegal.1 hlegal.2.1 hpos (hlegal.2.2 hpos)
    | allocate size flags =>
      by_cases hsize : size = 0
      · rw [SpaceOp.exec, VmOp.exec, vmMapAllocate, if_pos hsize]
        exact h
      rcases hlegal.resolve_left hsize with hnode | hgap
      · obtain ⟨-, hspace⟩ := vmMapAllocate_of_fails A st.space flags st.machine (.inr hnode)
        obtain ⟨-, hmachine⟩ := vmMapAllocate_machine A st.space flags st.machine size
        dsimp only [SpaceOp.exec, VmOp.exec]
        rw [hspace]
        rcases hmachine with heq | heq
        all_goals rw [heq]
        · exact h
        · exact ⟨⟨h.owns.tables.cacheAlloc_fail (custody_holding hA _ ∅ _) _ hnode trivial,
            h.owns.aligned⟩, h.disjoint, h.covered⟩
      · have hend := hgap.findCandidate_le
        have hfit : pageCeil size < wordSize :=
          ((Nat.le_add_left _ _).trans hend).trans_lt (by decide)
        have hregion : CoveredSpace Ok frames objects s₀ ((VmOp.allocateRegion
            (findCandidate (pageCeil size) st.space.areas vmAllocBase) (pageCeil size) flags).exec A st).2 :=
          h.allocateRegion hA (dvd_findCandidate h.owns.aligned (by decide))
            (by rwa [pageCeil_pageCeil])
        simp only [SpaceOp.exec, VmOp.exec] at hregion ⊢
        rw [vmMapAllocate_eq flags st.machine (Nat.pos_of_ne_zero hsize) hfit]
        -- both results of the region call carry its state
        simpa only [apply_ite Prod.snd, ite_self] using hregion

/-- Mapped user pages stay covered by areas, as long as no tail is dropped.

From the creation of an address space on, over every sequence of operations on whole pages of the lower
half and of not-present faults, in which any allocation may fail, and in which no region is freed from the
middle of an area without a node for its tail: every translated user address lies in an area, and freeing
a region next keeps all other addresses in areas with their flags exactly if that drops no tail. -/
theorem vmMap_run_pagesCovered (hok : Ok s₀.alloc) {kernel : Option PageTable} {ops : List SpaceOp}
    (hcreate : vmMapCreate A kernel s₀ = (some st.space, st.machine))
    (hrun : Run (CoveredStep A) st ops st') :
    AddressesCovered st' ∧ ∀ start size, 0 < size → start + pageCeil size ≤ 2 ^ 47 →
      (KeepsFlags A st' start size ↔ ¬ SplitFails A st' start size) := by
  have hinv := hrun.invariant (CoveredSpace Ok frames objects s₀)
    (fun _ _ _ h hstep => h.step hA hstep) (CoveredSpace.create hA hok hcreate)
  exact ⟨hinv.addresses, fun start size hsize hend => keepsFlags_iff hinv.disjoint hsize hend⟩

end Runs

/-- Three pages are allocated, the last one is touched, and the middle one is freed. -/
def middleOps : List SpaceOp :=
  [.call (.allocateRegion 0x1000 0x3000 7), .fault 0x3008 4, .call (.freeRegion 0x2000 0x1000)]

/-- The small machine when others have taken some area nodes and some frames. -/
def scarceMachine (nodes frames : ℕ) (pages : Pmm) : Machine (KernelMem Pmm) :=
  (fun s => (s.allocPage kernelAllocators).2)^[frames]
    ((fun s => (s.cacheAlloc kernelAllocators .vmAreaCache).2)^[nodes] (bootMachine pages))

/-- A new address space on the small machine. -/
def scarceSpace (nodes frames : ℕ) (pages : Pmm) : Option (VmState (KernelMem Pmm)) :=
  let r := vmMapCreate kernelAllocators none (scarceMachine nodes frames pages)
  r.1.map fun space => ⟨space, r.2⟩

/-- The state of the address space when it has been created. -/
theorem vmMapCreate_of_scarceSpace {nodes frames : ℕ} {pages : Pmm} {st : VmState (KernelMem Pmm)}
    (h : scarceSpace nodes frames pages = some st) :
    vmMapCreate kernelAllocators none (scarceMachine nodes frames pages) =
      (some st.space, st.machine) := by
  obtain ⟨space, hspace, rfl⟩ := Option.map_eq_some_iff.mp h
  exact Prod.ext hspace rfl

/-- With memory left the tail of the split area is kept, and its page with it. -/
theorem vmMap_run_pagesCovered_sixteenFrameMap :
    ∃ s₀ st st', initBitmapPmm sixteenFrameMap (fun _ => 0#8) = some s₀ ∧
      scarceSpace 0 0 s₀ = some st ∧ Run (CoveredStep kernelAllocators) st middleOps st' ∧
      AddressesCovered st' := by
  obtain ⟨s₀, hinit⟩ := initBitmapPmm_isSome sixteenFrameMap_bootable (fun _ => 0#8)
  have hconcrete : ((initBitmapPmm sixteenFrameMap (fun _ => 0#8)).bind fun pages =>
      (scarceSpace 0 0 pages).map fun st =>
        let st := SpaceOp.exec kernelAllocators (.fault 0x3008 4)
          (SpaceOp.exec kernelAllocators (.call (.allocateRegion 0x1000 0x3000 7)) st)
        decide (NodeFails kernelAllocators (unmapPages kernelAllocators st.space.pageTable.pml4Phy
          (0x2000 + pageCeil 0x1000) (pagesBetween 0x2000 (0x2000 + pageCeil 0x1000)) 0x2000
          st.machine))) = some false := by decide +kernel
  rw [hinit, Option.bind_some] at hconcrete
  obtain ⟨st, hst, hnode⟩ := Option.map_eq_some_iff.mp hconcrete
  have hrun : Run (CoveredStep kernelAllocators) st middleOps _ :=
    .cons ⟨⟨by decide, by decide⟩, rfl⟩ <| .cons ⟨rfl, rfl⟩ <|
      .single ⟨⟨by decide, by decide, fun _ h => of_decide_eq_false hnode h.2⟩, rfl⟩
  have hok : (bootMachine s₀).alloc.Ok Pmm.Ok Pmm.inUse hhdmOffset :=
    bootMem_ok (Pmm.Ok.of_init sixteenFrameMap_bootable hinit)
  exact ⟨s₀, st, _, hinit, hst, hrun, (vmMap_run_pagesCovered kernelAllocators_lawful hok
    (vmMapCreate_of_scarceSpace hst) hrun).1⟩

/-- With one area node and seven frames left in all, the same calls leave the touched page mapped where
no area is. -/
theorem vmMapFreeRegion_dropsTail :
    ∃ s₀ st st', initBitmapPmm sixteenFrameMap (fun _ => 0#8) = some s₀ ∧
      scarceSpace 83 7 s₀ = some st ∧
      Run (fun st op st' => st' = SpaceOp.exec kernelAllocators op st) st middleOps st' ∧
      ¬ AddressesCovered st' := by
  obtain ⟨s₀, hinit⟩ := initBitmapPmm_isSome sixteenFrameMap_bootable (fun _ => 0#8)
  have hconcrete : ((initBitmapPmm sixteenFrameMap (fun _ => 0#8)).bind fun pages =>
      (scarceSpace 83 7 pages).map fun st =>
        let st := middleOps.foldl (fun st op => op.exec kernelAllocators st) st
        decide (translate st.machine.mem st.space.pageTable.pml4Phy 0x3000 ≠ none ∧
          ∀ v ∈ st.space.areas, ¬ (v.start ≤ 0x3000 ∧ 0x3000 < v.endAddr))) = some true := by
    decide +kernel
  rw [hinit, Option.bind_some] at hconcrete
  obtain ⟨st, hst, hcheck⟩ := Option.map_eq_some_iff.mp hconcrete
  obtain ⟨hsome, hout⟩ := of_decide_eq_true hcheck
  refine ⟨s₀, st, _, hinit, hst, Run.of_foldl _ middleOps, fun hcovered => ?_⟩
  obtain ⟨v, hv, hin⟩ := hcovered 0x3000 (by decide) hsome
  exact hout v hv hin

end Flos.Mm
