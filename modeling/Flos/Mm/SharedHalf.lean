import Flos.Lib.Runs
import Flos.Mm.KernelTable

/-!
# The kernel half of the address spaces

A new address space copies the upper half of the kernel's PML4. The tables below are shared, so a
later kernel mapping is visible in it exactly if the PML4 slot it goes through was present at the
time of the copy; slots that the kernel fills later are not passed on.
-/

namespace Flos.Mm

open Flos.Lib

variable {S : Type*}

/-- The loop of `pmap_map_mmio`, with `n` pages left. -/
def mapMmioPages (A : KernelAlloc S) (table virt phys : ℕ) : (n off : ℕ) → Machine S → Machine S
  | 0, _, s => s
  | n + 1, off, s =>
    mapMmioPages A table virt phys n (off + pageSize)
      (pmapMapPage A table ((virt + off) % wordSize) ((phys + off) % wordSize)
        (mmuFlagWrite ||| mmuFlagNoExec ||| mmuFlagUc) s).2

/-- `pmap_map_mmio`. -/
def pmapMapMmio (A : KernelAlloc S) (hhdm : ℕ) (kernel : VmMap) (phys size : ℕ) (s : Machine S) :
    Machine S :=
  mapMmioPages A kernel.pageTable.pml4Phy ((phys + hhdm) % wordSize) phys
    (alignUp size pageSize / pageSize) 0 s

/-- The address spaces created so far, each with the PML4 of the kernel at its creation. -/
structure HalfState (S : Type*) where
  machine : Machine S
  spaces : List (VmMap × (Fin 512 → ℕ))

/-- Creating an address space, and mapping in that of the kernel. -/
inductive HalfOp
  | create
  | mapMmio (phys size : ℕ)
  | mapRange (virt phys flags remain : ℕ)
  | mapPage (virt phys flags : ℕ)
  deriving DecidableEq, Repr

/-- The state behind an operation. -/
def HalfOp.exec (A : KernelAlloc S) (hhdm : ℕ) (kernel : VmMap) (st : HalfState S) :
    HalfOp → HalfState S
  | .create =>
    match vmMapCreate A (some kernel.pageTable) st.machine with
    | (none, s) => ⟨s, st.spaces⟩
    | (some space, s) => ⟨s, (space, st.machine.mem kernel.pageTable.pml4Phy) :: st.spaces⟩
  | .mapMmio phys size => ⟨pmapMapMmio A hhdm kernel phys size st.machine, st.spaces⟩
  | .mapRange virt phys flags remain =>
    ⟨(pmapMapRange A kernel.pageTable.pml4Phy virt phys flags remain st.machine).2, st.spaces⟩
  | .mapPage virt phys flags =>
    ⟨(pmapMapPage A kernel.pageTable.pml4Phy virt phys flags st.machine).2, st.spaces⟩

/-- The upper half of a PML4 against that of the kernel: the slots that were present when it was
copied are the kernel's, the others are not present. -/
structure SharesSlots (mem : ℕ → Fin 512 → ℕ) (kernel root : ℕ) (copied : Fin 512 → ℕ) : Prop where
  present : ∀ i : Fin 512, 256 ≤ i.val → (mem root i).testBit 0 = (copied i).testBit 0
  kept : ∀ i : Fin 512, 256 ≤ i.val → (copied i).testBit 0 = true → mem root i = mem kernel i

/-- A PML4 translates an address of the upper half as the kernel does if it has the slot, and not at
all without. -/
theorem SharesSlots.translate_eq {mem : ℕ → Fin 512 → ℕ} {kernel root : ℕ} {copied : Fin 512 → ℕ}
    (h : SharesSlots mem kernel root copied) {va : ℕ} (hlow : 2 ^ 64 - 2 ^ 47 ≤ va)
    (hhigh : va < 2 ^ 64) :
    translate mem root va =
      if (copied (pml4Idx va)).testBit 0 then translate mem kernel va else none := by
  have hupper : 256 ≤ (pml4Idx va).val := by
    rw [pml4Idx, tableIdx_val]
    omega
  have hcanon : Canonical va := .inr ⟨hlow, hhigh⟩
  rw [translate, translate, if_pos hcanon, if_pos hcanon, pathOf]
  split
  next hcopied =>
    have hslot := h.kept _ hupper hcopied
    simp only [walkEntries, hslot]
  next hcopied =>
    have hclear : (mem root (pml4Idx va)).testBit 0 = false := by
      rw [h.present _ hupper]
      simpa using hcopied
    rw [walkEntries_cons_none (tableEntry_of_clear hclear)]
    exact decodeWalk_of_clear [] hclear va

/-- Only slots of the kernel that are not present may change. -/
theorem SharesSlots.congr {mem mem' : ℕ → Fin 512 → ℕ} {kernel root : ℕ} {copied : Fin 512 → ℕ}
    (h : SharesSlots mem kernel root copied) (hroot : ∀ j, mem' root j = mem root j)
    (hkernel : ∀ j, (mem kernel j).testBit 0 = true → mem' kernel j = mem kernel j) :
    SharesSlots mem' kernel root copied := by
  refine ⟨fun j hj => (hroot j).symm ▸ h.present j hj, fun j hj hcopied => ?_⟩
  have hslot := h.kept j hj hcopied
  rw [hroot, hslot, hkernel]
  rw [← hslot, h.present j hj, hcopied]

variable {A : KernelAlloc S} {Ok : S → Prop} {frames : S → Set ℕ}
  {objects : CacheName → S → Set ℕ}

/-- The PML4s of some address spaces. -/
def pml4s (spaces : List (VmMap × (Fin 512 → ℕ))) : Set ℕ :=
  {f | ∃ p ∈ spaces, f = p.1.pageTable.pml4Phy}

/-- What holds of the kernel's page table and the address spaces: their PML4s are frames in use that
the kernel's page table does not reach, with the slots of its upper half. -/
structure HalfInv (Ok : S → Prop) (frames : S → Set ℕ) (kernel : ℕ)
    (spaces : List (VmMap × (Fin 512 → ℕ))) (s : Machine S) : Prop where
  state : PtState Ok frames kernel s
  apart : Apart frames kernel (pml4s spaces) s.mem s
  shares : ∀ p ∈ spaces, SharesSlots s.mem kernel p.1.pageTable.pml4Phy p.2

section Steps

variable (hA : A.Lawful Ok frames objects) {kernel : ℕ} {spaces : List (VmMap × (Fin 512 → ℕ))}
  {s s' : Machine S}

/-- The kernel's PML4 is in use. -/
theorem HalfInv.kernel_held (h : HalfInv Ok frames kernel spaces s) : kernel ∈ frames s.alloc :=
  h.state.table.held [] kernel (Nat.zero_le 3) rfl

/-- A step keeps it that leaves the PML4s of the address spaces alone and fills slots of the
kernel's only where none is present. -/
theorem HalfInv.congr (h : HalfInv Ok frames kernel spaces s) (hstate : PtState Ok frames kernel s')
    (hapart : Apart frames kernel (pml4s spaces) s.mem s')
    (hslots : ∀ j, (s.mem kernel j).testBit 0 = true → s'.mem kernel j = s.mem kernel j) :
    HalfInv Ok frames kernel spaces s' :=
  ⟨hstate, ⟨hapart.held, hapart.unreached, fun _ _ => rfl⟩, fun p hp =>
    (h.shares p hp).congr (fun j => by rw [hapart.same _ ⟨p, hp, rfl⟩]) hslots⟩

include hA

/-- Mapping in the kernel's page table keeps the upper halves as they are. -/
theorem mapInvariant_halfInv : MapInvariant A kernel (HalfInv Ok frames kernel spaces) where
  level p i t s hp h ht := by
    obtain ⟨⟨hstate, hapart⟩, hnext⟩ := (mapInvariant_apart hA.toLawfulPages kernel
      (pml4s spaces) s.mem).level p i t s hp ⟨h.state, h.apart⟩ ht
    obtain ⟨⟨-, hslots⟩, -⟩ := (mapInvariant_slots hA.toLawfulPages kernel (s.mem kernel)).level
      p i t s hp ⟨h.state, fun _ _ => rfl⟩ ht
    exact ⟨h.congr hstate hapart hslots, hnext⟩
  leaf p i t e s hpos hlen hend h ht := by
    obtain ⟨hstate, hapart⟩ := (mapInvariant_apart hA.toLawfulPages kernel
      (pml4s spaces) s.mem).leaf p i t e s hpos hlen hend ⟨h.state, h.apart⟩ ht
    obtain ⟨-, hslots⟩ := (mapInvariant_slots hA.toLawfulPages kernel (s.mem kernel)).leaf
      p i t e s hpos hlen hend ⟨h.state, fun _ _ => rfl⟩ ht
    exact h.congr hstate hapart hslots

/-- Mapping device memory keeps the upper halves as they are. -/
theorem HalfInv.mapMmioPages (h : HalfInv Ok frames kernel spaces s) (virt phys n off : ℕ) :
    HalfInv Ok frames kernel spaces (mapMmioPages A kernel virt phys n off s) := by
  induction n generalizing off s with
  | zero => exact h
  | succ n ih => exact ih ((mapInvariant_halfInv hA).pmapMapPage _ _ _ h) _

/-- A new address space has the kernel's upper half. -/
theorem HalfInv.create {k : PageTable} (h : HalfInv Ok frames k.pml4Phy spaces s) :
    HalfInv Ok frames k.pml4Phy spaces (vmMapCreate A (some k) s).2 ∧
      ∀ space, (vmMapCreate A (some k) s).1 = some space →
        HalfInv Ok frames k.pml4Phy ((space, s.mem k.pml4Phy) :: spaces)
          (vmMapCreate A (some k) s).2 := by
  have hkernel := h.kernel_held
  have hheld : ∀ k' ∈ some k, k'.pml4Phy ∈ frames s.alloc := by
    rintro _ ⟨⟩
    exact hkernel
  obtain ⟨hok, hext, hnew⟩ := vmMapCreate_spec hA h.state.ok hheld
  have hreach : ∀ q, InTables q → tableAt tableEntry (vmMapCreate A (some k) s).2.mem k.pml4Phy q =
      tableAt tableEntry s.mem k.pml4Phy q := fun q hq =>
    ((h.state.table.congr hext.mem hext.kept).2 q (Nat.le_succ_of_le hq)).tableAt_eq
  have hold : HalfInv Ok frames k.pml4Phy spaces (vmMapCreate A (some k) s).2 :=
    h.congr (h.state.of_extends hok hext)
      ⟨h.apart.held.trans hext.kept, fun f hf q hq => hreach q hq ▸ h.apart.unreached f hf q hq,
        fun f hf => hext.mem f (h.apart.held hf)⟩
      fun j _ => by rw [hext.mem _ hkernel]
  refine ⟨hold, fun space hspace => ?_⟩
  obtain ⟨hfresh, hheld, hrow⟩ := hnew space hspace
  have hslot : ∀ i : Fin 512, 256 ≤ i.val →
      (vmMapCreate A (some k) s).2.mem space.pageTable.pml4Phy i = s.mem k.pml4Phy i := by
    intro i hi
    rw [hrow, sharedEntry, if_pos hi]
    rfl
  have hcases : ∀ f ∈ pml4s ((space, s.mem k.pml4Phy) :: spaces),
      f = space.pageTable.pml4Phy ∨ f ∈ pml4s spaces := by
    rintro f ⟨p, hp, rfl⟩
    rcases List.mem_cons.mp hp with rfl | hp
    · exact .inl rfl
    · exact .inr ⟨p, hp, rfl⟩
  refine ⟨hold.state, ⟨fun f hf => ?_, fun f hf q hq => ?_, fun _ _ => rfl⟩,
    List.forall_mem_cons.mpr ⟨⟨fun i hi => by rw [hslot i hi], fun i hi _ => ?_⟩, hold.shares⟩⟩
  · rcases hcases f hf with rfl | hf
    · exact hheld
    · exact hold.apart.held hf
  · rcases hcases f hf with rfl | hf
    · intro hpath
      rw [hreach q hq] at hpath
      exact hfresh (h.state.table.held q _ hq hpath)
    · exact hold.apart.unreached f hf q hq
  · rw [hslot i hi, hext.mem _ hkernel]

omit hA in
/-- The invariant at a state that is put together from its parts. -/
theorem HalfInv.mk_state (h : HalfInv Ok frames kernel spaces s) :
    HalfInv Ok frames kernel (HalfState.mk s spaces).spaces (HalfState.mk s spaces).machine := h

/-- Every operation keeps the upper halves as they are. -/
theorem HalfInv.exec {hhdm : ℕ} {kernel : VmMap} {st : HalfState S}
    (h : HalfInv Ok frames kernel.pageTable.pml4Phy st.spaces st.machine) (op : HalfOp) :
    HalfInv Ok frames kernel.pageTable.pml4Phy (op.exec A hhdm kernel st).spaces
      (op.exec A hhdm kernel st).machine := by
  cases op with
  | create =>
    obtain ⟨hold, hnew⟩ := h.create hA
    rw [HalfOp.exec]
    rcases hr : vmMapCreate A (some kernel.pageTable) st.machine with ⟨_ | space, s⟩
    · rwa [hr] at hold
    · rw [hr] at hnew
      exact hnew space rfl
  | mapMmio phys size => exact (h.mapMmioPages hA _ _ _ _).mk_state
  | mapRange virt phys flags remain =>
    exact ((mapInvariant_halfInv hA).pmapMapRange virt phys flags remain h).mk_state
  | mapPage virt phys flags =>
    exact ((mapInvariant_halfInv hA).pmapMapPage virt phys flags h).mk_state

end Steps

/-- The kernel half of an address space is the part of the kernel's that was present at its creation.

From `init_pmap` on, over every order of creations and mappings in the kernel's page table, at any
address, an address space translates an address of the upper half exactly as the kernel does, with
the same permissions, if the kernel's PML4 had the slot of the address when the address space was
created; otherwise it has no translation there. -/
theorem kernelHalf_run_shared (hA : A.Lawful Ok frames objects) {hhdm : ℕ} {map : MemoryMap}
    {s₀ s : Machine S} (hok : Ok s₀.alloc) {kernel : VmMap}
    (hinit : initPmap A hhdm map s₀ = (some kernel, s)) {st : HalfState S} {ops : List HalfOp}
    (hrun : Run (fun st op st' => st' = op.exec A hhdm kernel st) ⟨s, []⟩ ops st) :
    ∀ p ∈ st.spaces, ∀ va, 2 ^ 64 - 2 ^ 47 ≤ va → va < 2 ^ 64 →
      translate st.machine.mem p.1.pageTable.pml4Phy va =
        if (p.2 (pml4Idx va)).testBit 0 then
          translate st.machine.mem kernel.pageTable.pml4Phy va
        else none := by
  have hstart : HalfInv Ok frames kernel.pageTable.pml4Phy [] s :=
    ⟨ptState_initPmap hA hok hinit, ⟨by simp [pml4s], by simp [pml4s], by simp⟩, by simp⟩
  have hinv := hrun.invariant
    (fun st => HalfInv Ok frames kernel.pageTable.pml4Phy st.spaces st.machine)
    (fun st op st' h hstep => hstep ▸ h.exec hA op) hstart
  exact fun p hp va hlow hhigh => (hinv.shares p hp).translate_eq hlow hhigh

/-- The state behind some operations right after boot on a map with sixteen USABLE frames. -/
def bootHalf (pages : Pmm) (ops : List HalfOp) : Option (VmMap × HalfState (KernelMem Pmm)) :=
  let r := initPmap kernelAllocators hhdmOffset sixteenFrameMap (bootMachine pages)
  r.1.map fun kernel => (kernel, ops.foldl (HalfOp.exec kernelAllocators hhdmOffset kernel) ⟨r.2, []⟩)

/-- The operations right after boot are a run from what `init_pmap` leaves. -/
theorem run_of_bootHalf {pages : Pmm} {ops : List HalfOp} {kernel : VmMap}
    {st : HalfState (KernelMem Pmm)} (h : bootHalf pages ops = some (kernel, st)) :
    ∃ s, initPmap kernelAllocators hhdmOffset sixteenFrameMap (bootMachine pages) =
        (some kernel, s) ∧
      Run (fun st op st' => st' = op.exec kernelAllocators hhdmOffset kernel st) ⟨s, []⟩ ops st := by
  obtain ⟨k, hk, heq⟩ := Option.map_eq_some_iff.mp h
  cases heq
  exact ⟨_, by rw [← hk], Run.of_foldl _ ops⟩

/-- A second page in a slot that an address space was created with is visible in it. -/
theorem kernelHalf_run_shared_sixteenFrameMap :
    ∃ s₀ kernel st space copied, initBitmapPmm sixteenFrameMap (fun _ => 0#8) = some s₀ ∧
      bootHalf s₀ [.mapPage 0xFFFF900000000000 0x5000 mmuFlagWrite, .create,
        .mapPage 0xFFFF900000001000 0x6000 mmuFlagWrite] = some (kernel, st) ∧
      st.spaces = [(space, copied)] ∧
      translate st.machine.mem space.pageTable.pml4Phy 0xFFFF900000001234 =
        some ⟨0x6234, ⟨true, false, false, false⟩⟩ := by
  obtain ⟨s₀, hinit⟩ := initBitmapPmm_isSome sixteenFrameMap_bootable (fun _ => 0#8)
  have hconcrete : ((initBitmapPmm sixteenFrameMap (fun _ => 0#8)).bind fun pages =>
      (bootHalf pages [.mapPage 0xFFFF900000000000 0x5000 mmuFlagWrite, .create,
        .mapPage 0xFFFF900000001000 0x6000 mmuFlagWrite]).map fun r =>
        (r.2.spaces.map fun p => (p.2 (pml4Idx 0xFFFF900000001234)).testBit 0,
          translate r.2.machine.mem r.1.pageTable.pml4Phy 0xFFFF900000001234)) =
      some ([true], some ⟨0x6234, ⟨true, false, false, false⟩⟩) := by decide +kernel
  rw [hinit, Option.bind_some] at hconcrete
  obtain ⟨⟨kernel, st⟩, hst, hconcrete⟩ := Option.map_eq_some_iff.mp hconcrete
  obtain ⟨hspaces, hkernel⟩ := Prod.mk.inj hconcrete
  obtain ⟨⟨space, copied⟩, hspace, hcopied⟩ := List.map_eq_singleton_iff.mp hspaces
  obtain ⟨s, hboot, hrun⟩ := run_of_bootHalf hst
  have hok : (bootMachine s₀).alloc.Ok Pmm.Ok Pmm.inUse hhdmOffset :=
    bootMem_ok (Pmm.Ok.of_init sixteenFrameMap_bootable hinit)
  have hshared := kernelHalf_run_shared kernelAllocators_lawful hok hboot hrun (space, copied)
    (by rw [hspace]; exact List.mem_cons_self) 0xFFFF900000001234 (by decide) (by decide)
  rw [if_pos hcopied] at hshared
  exact ⟨s₀, kernel, st, space, copied, hinit, hst, hspace, hshared.trans hkernel⟩

/-- A kernel mapping in a slot that was not present when an address space was created stays invisible
there. -/
theorem kernelHalf_not_shared :
    ∃ s₀ kernel st space copied, initBitmapPmm sixteenFrameMap (fun _ => 0#8) = some s₀ ∧
      bootHalf s₀ [.create, .mapPage 0xFFFF900000000000 0x5000 mmuFlagWrite] = some (kernel, st) ∧
      st.spaces = [(space, copied)] ∧
      translate st.machine.mem kernel.pageTable.pml4Phy 0xFFFF900000000000 =
        some ⟨0x5000, ⟨true, false, false, false⟩⟩ ∧
      translate st.machine.mem space.pageTable.pml4Phy 0xFFFF900000000000 = none := by
  obtain ⟨s₀, hinit⟩ := initBitmapPmm_isSome sixteenFrameMap_bootable (fun _ => 0#8)
  have hconcrete : ((initBitmapPmm sixteenFrameMap (fun _ => 0#8)).bind fun pages =>
      (bootHalf pages [.create, .mapPage 0xFFFF900000000000 0x5000 mmuFlagWrite]).map fun r =>
        (r.2.spaces.map fun p => translate r.2.machine.mem p.1.pageTable.pml4Phy 0xFFFF900000000000,
          translate r.2.machine.mem r.1.pageTable.pml4Phy 0xFFFF900000000000)) =
      some ([none], some ⟨0x5000, ⟨true, false, false, false⟩⟩) := by decide +kernel
  rw [hinit, Option.bind_some] at hconcrete
  obtain ⟨⟨kernel, st⟩, hst, hconcrete⟩ := Option.map_eq_some_iff.mp hconcrete
  obtain ⟨hspaces, hkernel⟩ := Prod.mk.inj hconcrete
  obtain ⟨⟨space, copied⟩, hspace, htranslate⟩ := List.map_eq_singleton_iff.mp hspaces
  exact ⟨s₀, kernel, st, space, copied, hinit, hst, hspace, hkernel, htranslate⟩

end Flos.Mm
