import Mathlib.Data.List.Count
import Flos.Lib.Runs
import Flos.Mm.SpaceOps

/-!
# The life cycle of an address space

From its creation on, over every sequence of operations and page faults in which no allocation
fails, an address space owns exactly what was taken for it. Destroying it therefore gives back
every frame and every object exactly once, and nothing else.
-/

namespace Flos.Mm

open Flos.Lib

variable {S : Type*}

/-- The ranges are page-aligned and below `2 ^ 47`; faults are not-present faults on addresses that
lie in an area and have no translation. -/
def SpaceOp.Legal (st : VmState S) : SpaceOp → Prop
  | .call (.allocate size _) =>
    findCandidate (pageCeil size) st.space.areas vmAllocBase + pageCeil size ≤ 2 ^ 47
  | .call (.allocateRegion start size _) => 4096 ∣ start ∧ start + pageCeil size ≤ 2 ^ 47
  | .call (.freeRegion start size) => 4096 ∣ start ∧ start + pageCeil size ≤ 2 ^ 47
  | .fault faultAddress errorCode =>
    errorCode &&& 1 <<< 0 = 0 ∧ vmMapLookup st.space.areas faultAddress ≠ none ∧
      translate st.machine.mem st.space.pageTable.pml4Phy faultAddress = none

instance (st : VmState S) (op : SpaceOp) : Decidable (op.Legal st) := by
  unfold SpaceOp.Legal
  split <;> infer_instance

/-- One legal operation. -/
def SpaceStep (A : KernelAlloc S) (st : VmState S) (op : SpaceOp) (st' : VmState S) : Prop :=
  op.Legal st ∧ st' = op.exec A st

/-- Every user page of an address space lies in one of its areas. -/
def PagesCovered (space : VmMap) (mem : ℕ → Fin 512 → ℕ) : Prop :=
  ∀ q, UserPath q → q.length = 4 → tableAt tableEntry mem space.pageTable.pml4Phy q ≠ none →
    ∃ v ∈ space.areas, ∃ x, v.start ≤ x ∧ x < v.endAddr ∧ 4096 ∣ x ∧ pathOf x = q

/-- More areas over the same pages cover them too. -/
theorem PagesCovered.mono {space space' : VmMap} {mem mem' : ℕ → Fin 512 → ℕ}
    (h : PagesCovered space mem) (hmem : mem' = mem) (htable : space'.pageTable = space.pageTable)
    (hareas : ∀ v ∈ space.areas, v ∈ space'.areas) : PagesCovered space' mem' := by
  intro q hq hq4 hmapped
  rw [hmem, htable] at hmapped
  obtain ⟨v, hv, hin⟩ := h q hq hq4 hmapped
  exact ⟨v, hareas v hv, hin⟩

variable {A : KernelAlloc S} {Ok : S → Prop} {frames : S → Set ℕ}
  {objects : CacheName → S → Set ℕ} {base : Base}

/-- What holds in a run of one address space in which no allocation fails: it owns everything that
was taken, and its pages lie in its areas. -/
structure SoleSpace (Ok : S → Prop) (frames : S → Set ℕ) (objects : CacheName → S → Set ℕ)
    (base : Base) (st : VmState S) : Prop where
  owns : SpaceInv (Holds Ok frames objects base) ∅ ∅ [] st.space st.machine
  covered : PagesCovered st.space st.machine.mem

/-- Every legal operation extends the log. -/
theorem SpaceOp.exec_log {op : SpaceOp} {st : VmState S} (hlegal : op.Legal st) :
    st.machine.log <+: (op.exec A st).machine.log := by
  have hlog := callInvariant_log A st.machine.log
  cases op with
  | fault faultAddress errorCode => exact hlog.vmFaultHandler _ _ _ List.prefix_rfl
  | call op =>
    cases op with
    | allocate size flags => exact hlog.vmMapAllocate _ _ _ List.prefix_rfl
    | allocateRegion start size flags => exact hlog.vmMapAllocateRegion _ _ _ _ List.prefix_rfl
    | freeRegion start size =>
      refine hlog.vmMapFreeRegion ?_ (fun _ _ _ _ _ _ => trivial) List.prefix_rfl
      have hend : start + pageCeil size ≤ 2 ^ 47 := hlegal.2
      rw [alignUp_eq_pageCeil (by simp only [wordSize]; omega)]
      exact (Nat.add_le_add_right ((Nat.mod_le _ _).trans hend) _).trans (by decide)

section Operations

variable (hA : A.Lawful Ok frames objects)

include hA

/-- Freeing a region leaves the remaining pages in the remaining areas. -/
theorem SoleSpace.freeRegion {st : VmState S} {start size : ℕ}
    (h : SoleSpace Ok frames objects base st) (hstart : 4096 ∣ start)
    (hend : start + pageCeil size ≤ 2 ^ 47)
    (hsucc : (vmMapFreeRegion A st.space start size st.machine).2.Succeeds base.log.length) :
    SoleSpace Ok frames objects base ((VmOp.freeRegion start size).exec A st).2 := by
  simp only [VmOp.exec]
  by_cases hsize : size = 0
  · rw [vmMapFreeRegion, if_pos hsize]
    exact h
  obtain ⟨fs, -, hholds⟩ := h.owns.tables.holds
  obtain ⟨howns, htable, hunmapped, hcovers⟩ := h.owns.freeRegion (holds_holding hA base) hsize
    (Set.empty_subset _) hstart hend (fun _ _ hmem => absurd hmem (Set.notMem_empty _))
    (fun _ _ _ _ hmem => absurd hmem (Set.notMem_empty _)) hsucc
  obtain ⟨hunmapped, hkept⟩ := hunmapped
  rw [ownEntry_empty] at hunmapped hkept
  refine ⟨howns, fun q hq hq4 hmapped => ?_⟩
  rw [htable] at hmapped
  obtain ⟨f, hf⟩ := Option.ne_none_iff_exists'.mp hmapped
  obtain ⟨v, hv, x, hlo, hhi, hdvd, rfl⟩ := h.covered q hq hq4
    (by rw [hkept q f hq hf]; simp)
  have hout : x < start ∨ start + pageCeil size ≤ x := by
    by_contra hin
    exact hmapped (hunmapped x (by omega) (by omega) hdvd)
  obtain ⟨b, hb, hin⟩ :=
    hcovers (hsucc.not_failed hholds.grown.length_le) v hv x hlo hhi hout
  exact ⟨b, hb, x, hin.1, hin.2, hdvd, rfl⟩

/-- A fault on an address without a translation maps a page of an area. -/
theorem SoleSpace.fault {st : VmState S} {faultAddress errorCode : ℕ}
    (h : SoleSpace Ok frames objects base st)
    (hnone : translate st.machine.mem st.space.pageTable.pml4Phy faultAddress = none)
    (hsucc : (vmFaultHandler A st.space faultAddress errorCode st.machine).2.Succeeds
      base.log.length) :
    SoleSpace Ok frames objects base
      ⟨st.space, (vmFaultHandler A st.space faultAddress errorCode st.machine).2⟩ := by
  obtain ⟨fs, -, hholds⟩ := h.owns.tables.holds
  rcases h.owns.fault (holds_holding hA base) (Set.empty_subset _) hsucc with
    heq | ⟨hfailed, -⟩ | ⟨v, hv, hlo, hhi, haddr, howns, hpages⟩
  · rwa [heq]
  · exact absurd hfailed (hsucc.not_failed hholds.grown.length_le)
  · rw [ownEntry_empty] at howns hpages
    rw [tableAt_of_translate_none haddr hnone] at howns
    refine ⟨howns, fun q hq hq4 hmapped => ?_⟩
    by_cases hpath : q = pathOf faultAddress
    · have hva := (Nat.div_mul_le_self faultAddress 4096).trans_lt haddr
      refine ⟨v, hv, _, hlo, hhi, Nat.dvd_mul_left _ _, hpath ▸ ?_⟩
      exact (pathOf_eq_iff hva haddr).mpr (by omega)
    · rw [hpages q hq hq4 hpath] at hmapped
      exact h.covered q hq hq4 hmapped

/-- A legal operation in which no allocation fails keeps what an address space owns. -/
theorem SoleSpace.step {st st' : VmState S} {op : SpaceOp}
    (h : SoleSpace Ok frames objects base st) (hstep : SpaceStep A st op st')
    (hsucc : st'.machine.Succeeds base.log.length) : SoleSpace Ok frames objects base st' := by
  obtain ⟨hlegal, rfl⟩ := hstep
  have hH := holds_holding hA base
  cases op with
  | fault faultAddress errorCode => exact h.fault hA hlegal.2.2 hsucc
  | call op =>
    cases op with
    | allocateRegion start size flags =>
      obtain ⟨howns, hmem, htable, hareas⟩ :=
        h.owns.allocateRegion hH flags hlegal.1 hlegal.2 hsucc
      exact ⟨howns, h.covered.mono hmem htable hareas⟩
    | freeRegion start size => exact h.freeRegion hA hlegal.1 hlegal.2 hsucc
    | allocate size flags =>
      obtain ⟨howns, hmem, htable, hareas⟩ := h.owns.allocate hH flags hlegal hsucc
      exact ⟨howns, h.covered.mono hmem htable hareas⟩

/-- Destroying an address space whose pages lie in its areas gives everything back. -/
theorem SoleSpace.destroy {st : VmState S} (h : SoleSpace Ok frames objects base st) :
    Holds Ok frames objects base (vmMapDestroy A st.space st.machine) [] := by
  obtain ⟨pages, hpages, hheld⟩ := h.owns.destroy (holds_holding hA base)
    (Set.empty_subset _) (fun _ _ => Set.notMem_empty _) (fun _ _ _ _ _ _ hmem => absurd hmem (Set.notMem_empty _))
  rw [ownEntry_empty] at hpages
  have hnil : pages = [] := by
    refine List.eq_nil_iff_forall_not_mem.mpr fun f hf => ?_
    obtain ⟨q, hq, hq4, hpath, hout⟩ := hpages f hf
    obtain ⟨v, hv, x, hlo, hhi, hdvd, hx⟩ := h.covered q hq hq4 (by rw [hpath]; simp)
    exact hout v hv x hlo hhi hdvd hx
  rwa [hnil] at hheld

end Operations

/-! ## Runs -/

/-- Different calls have different ledger entries. -/
theorem MemEvent.entry_injective : Function.Injective MemEvent.entry := by
  intro a b h
  cases a <;> cases b <;> simp_all [MemEvent.entry]

/-- The life cycle of an address space conserves memory.

From its creation on, over every sequence of operations on page-aligned ranges below `2 ^ 47` and
of not-present faults in its areas, in which every allocation succeeds, destroying the address
space leaves the frames in use and the live objects of all three caches as they were before its
creation. In the calls since then each frame and each object is given back once for each time it
was taken, and only while it was taken; no frame that was in use before is freed, so none that an
entry of the kernel half names. -/
theorem vmMap_lifecycle_conserves (hA : A.Lawful Ok frames objects) {kernel : Option PageTable}
    {s₀ : Machine S} (hok : Ok s₀.alloc) {st st' : VmState S}
    {ops : List SpaceOp} (hcreate : vmMapCreate A kernel s₀ = (some st.space, st.machine))
    (hrun : Run (SpaceStep A) st ops st')
    (hsucc : ∀ e ∈ st'.machine.log.drop s₀.log.length, e.Succeeds) :
    ∃ calls, (vmMapDestroy A st'.space st'.machine).log = s₀.log ++ calls ∧
      settle (calls.map MemEvent.entry) [] = some [] ∧
      (∀ f, calls.count (.freeFrame f) = calls.count (.allocFrame f)) ∧
      (∀ f ∈ frames s₀.alloc, .freeFrame f ∉ calls) ∧
      (∀ k, kernel = some k → ∀ i : Fin 512, 256 ≤ i.val →
        s₀.mem k.pml4Phy i &&& pagePhysMask ∈ frames s₀.alloc →
          .freeFrame (s₀.mem k.pml4Phy i &&& pagePhysMask) ∉ calls) ∧
      frames (vmMapDestroy A st'.space st'.machine).alloc = frames s₀.alloc ∧
      ∀ c, objects c (vmMapDestroy A st'.space st'.machine).alloc = objects c s₀.alloc := by
  have hstart : Holds Ok frames objects ⟨s₀.log, frames s₀.alloc, fun c => objects c s₀.alloc⟩
      s₀ [] := ⟨[], Accounts.start hok, .refl _⟩
  -- the invariant needs that no allocation has failed so far
  have hinv : st'.machine.Succeeds s₀.log.length → SoleSpace Ok frames objects
      ⟨s₀.log, frames s₀.alloc, fun c => objects c s₀.alloc⟩ st' := by
    refine hrun.invariant (fun st => st.machine.Succeeds s₀.log.length → SoleSpace Ok frames objects
      ⟨s₀.log, frames s₀.alloc, fun c => objects c s₀.alloc⟩ st) ?_ ?_
    · intro st op st' hinv hstep hsucc
      have hlog : st.machine.log <+: st'.machine.log := by
        rw [hstep.2]
        exact SpaceOp.exec_log hstep.1
      exact (hinv (hsucc.of_isPrefix hlog)).step hA hstep hsucc
    · intro hsucc
      have hgood : (vmMapCreate A kernel s₀).2.Succeeds s₀.log.length := by
        rw [hcreate]
        exact hsucc
      obtain ⟨howns, -, hnone⟩ := (Holding.create (holds_holding hA _) rfl hstart hgood).2 st.space
        (by rw [hcreate])
      rw [hcreate] at howns hnone
      refine ⟨howns, fun q hq hq4 hmapped => absurd (hnone q hq ?_) hmapped⟩
      rintro rfl
      cases hq4
  obtain ⟨out, hout, hnil⟩ := (hinv hsucc).destroy hA
  obtain rfl := hnil.eq_nil
  obtain ⟨calls, hcalls⟩ := hout.grown
  have hsince : (vmMapDestroy A st'.space st'.machine).since s₀.log.length = calls := by
    rw [Machine.since, ← hcalls, List.drop_left]
  have hsettled := hout.settled
  have hkept := hout.kept
  simp only [hsince] at hsettled hkept
  refine ⟨calls, hcalls.symm, hsettled, fun f => ?_, hkept, fun k _ i _ => hkept _, ?_, ?_⟩
  · have hcount := count_of_settle hsettled (.frame f)
    have hfree := List.count_map_of_injective calls _ MemEvent.entry_injective (.freeFrame f)
    have halloc := List.count_map_of_injective calls _ MemEvent.entry_injective (.allocFrame f)
    simp only [List.count_nil, MemEvent.entry] at hcount hfree halloc
    omega
  · ext f
    simp [hout.frames f]
  · intro c
    ext a
    simp [hout.objects c a]

/-- On a map with sixteen USABLE frames: four pages are allocated, two are touched, one is freed again with the area
split around it, and everything is given back. -/
theorem vmMap_lifecycle_conserves_sixteenFrameMap :
    ∃ s₀ st st', initBitmapPmm sixteenFrameMap (fun _ => 0#8) = some s₀ ∧
      vmMapCreate kernelAllocators none (bootMachine s₀) = (some st.space, st.machine) ∧
      Run (SpaceStep kernelAllocators) st [.call (.allocateRegion 0x2000 0x4000 7),
        .fault 0x3008 4, .fault 0x5010 4, .call (.freeRegion 0x3000 0x1000)] st' ∧
      st'.space.areas.map VmArea.start = [0x2000, 0x4000] ∧
      (vmMapDestroy kernelAllocators st'.space st'.machine).alloc.frames Pmm.inUse hhdmOffset =
        (bootMem s₀).frames Pmm.inUse hhdmOffset := by
  obtain ⟨s₀, hinit⟩ := initBitmapPmm_isSome sixteenFrameMap_bootable (fun _ => 0#8)
  have hconcrete : ((initBitmapPmm sixteenFrameMap (fun _ => 0#8)).bind fun pages =>
      let r := vmMapCreate kernelAllocators none (bootMachine pages)
      r.1.map fun space =>
        let st : VmState _ := ⟨space, r.2⟩
        let st₁ := SpaceOp.exec kernelAllocators (.call (.allocateRegion 0x2000 0x4000 7)) st
        let st₂ := SpaceOp.exec kernelAllocators (.fault 0x3008 4) st₁
        let st₃ := SpaceOp.exec kernelAllocators (.fault 0x5010 4) st₂
        let st₄ := SpaceOp.exec kernelAllocators (.call (.freeRegion 0x3000 0x1000)) st₃
        (decide ((SpaceOp.fault 0x3008 4).Legal st₁ ∧ (SpaceOp.fault 0x5010 4).Legal st₂ ∧
            ∀ e ∈ st₄.machine.log, e.Succeeds),
          st₄.space.areas.map VmArea.start)) =
      some (true, [0x2000, 0x4000]) := by decide +kernel
  rw [hinit, Option.bind_some] at hconcrete
  obtain ⟨space, hspace, hconcrete⟩ := Option.map_eq_some_iff.mp hconcrete
  obtain ⟨hlegal, hstarts⟩ := Prod.mk.inj hconcrete
  obtain ⟨hfirst, hsecond, hsucc⟩ := of_decide_eq_true hlegal
  have hcreate : vmMapCreate kernelAllocators none (bootMachine s₀) =
      (some space, (vmMapCreate kernelAllocators none (bootMachine s₀)).2) := by rw [← hspace]
  have hrun : Run (SpaceStep kernelAllocators)
      ⟨space, (vmMapCreate kernelAllocators none (bootMachine s₀)).2⟩
      [.call (.allocateRegion 0x2000 0x4000 7), .fault 0x3008 4, .fault 0x5010 4,
        .call (.freeRegion 0x3000 0x1000)] _ :=
    .cons ⟨⟨by decide, by decide⟩, rfl⟩ <| .cons ⟨hfirst, rfl⟩ <| .cons ⟨hsecond, rfl⟩ <|
      .single ⟨⟨by decide, by decide⟩, rfl⟩
  have hok : (bootMachine s₀).alloc.Ok Pmm.Ok Pmm.inUse hhdmOffset := bootMem_ok (Pmm.Ok.of_init sixteenFrameMap_bootable hinit)
  obtain ⟨calls, -, -, -, -, -, hframes, -⟩ :=
    vmMap_lifecycle_conserves kernelAllocators_lawful hok hcreate hrun hsucc
  exact ⟨s₀, _, _, hinit, hcreate, hrun, hstarts, hframes⟩

end Flos.Mm
