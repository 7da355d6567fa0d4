import Flos.Interrupts.Entry
import Flos.Mm.KernelTable
import Flos.Mm.SpaceOps

/-!
# Page faults behind the dispatcher

A page fault reaches the fault handler through the dispatcher of all interrupts, which runs the
handler that is registered for the vector. The handler fills pages of the kernel's address space,
within its areas only; the dispatcher then reports every exception and halts, also one that its
handler has resolved.
-/

namespace Flos.Mm

open Flos.Lib
open Flos.Interrupts (InterruptFrame)

variable {S : Type*}

/-- How a handler ends: it returns, it ends the task, or it halts. -/
inductive HandlerEnd
  | returns
  | taskExits
  | halts
  deriving DecidableEq, Repr

/-- `pf_interrupt_handler`; `cr2` is the address of the access. A segmentation fault ends the task
for a user access, and halts otherwise. -/
def pfInterruptHandler (A : KernelAlloc S) (kernel : VmMap) (cr2 : ℕ) (frame : InterruptFrame)
    (s : Machine S) : HandlerEnd × Machine S :=
  let err := frame.errorCode % 2 ^ 32
  let r := vmFaultHandler A kernel cr2 err s
  match r.1 with
  | .handled => (.returns, r.2)
  | .segfault => (if err &&& 1 <<< 2 = 0 then .halts else .taskExits, r.2)

/-- `interrupt_handler`: run the handler of the vector, if any; report exceptions and halt. -/
def interruptHandler (handlers : ℕ → Option (InterruptFrame → Machine S → HandlerEnd × Machine S))
    (frame : InterruptFrame) (s : Machine S) : HandlerEnd × Machine S :=
  let r := match handlers frame.intNo with
    | some handler => handler frame s
    | none => (.returns, s)
  match r.1 with
  | .returns => if frame.intNo ≤ 31 then (.halts, r.2) else r
  | _ => r

/-! ## The handler -/

/-! ## The dispatcher -/

/-- An access of a task in `space` to an address of one of its areas that has no translation, with
enough frames to serve it. -/
structure PageMissing (A : KernelAlloc S) (space : VmMap) (area : VmArea) (addr errorCode : ℕ)
    (s : Machine S) : Prop where
  listed : area ∈ space.areas
  inside : area.start ≤ addr ∧ addr < area.endAddr
  untranslated : translate s.mem space.pageTable.pml4Phy addr = none
  notPresent : errorCode &&& 1 <<< 0 = 0
  available : ¬ Failed s (vmFaultHandler A space addr errorCode s).2

/-- The fault is resolved: the interrupted frame is resumed, and the page of the address is a fresh
cleared frame with the flags of the area; no address outside the areas got a translation. -/
structure DemandPaged (frames : S → Set ℕ) (space : VmMap) (area : VmArea) (addr : ℕ)
    (s : Machine S) (r : HandlerEnd × Machine S) : Prop where
  resumed : r.1 = .returns
  mapped : ∃ f, f ∉ frames s.alloc ∧ (∀ i, r.2.mem f i = 0) ∧
    translate r.2.mem space.pageTable.pml4Phy addr =
      some ⟨f + addr % 4096, flagsAccess area.flags⟩
  unmapped : ∀ va, (∀ v ∈ space.areas, ¬ (v.start ≤ va ∧ va < v.endAddr)) →
    translate s.mem space.pageTable.pml4Phy va = none →
      translate r.2.mem space.pageTable.pml4Phy va = none

/-- Behind an exception the dispatcher never returns. -/
theorem interruptHandler_exception
    (handlers : ℕ → Option (InterruptFrame → Machine S → HandlerEnd × Machine S))
    {frame : InterruptFrame} (hno : frame.intNo ≤ 31) (s : Machine S) :
    (interruptHandler handlers frame s).1 ≠ .returns := by
  simp only [interruptHandler]
  split
  · rw [if_pos hno]
    simp
  next hreturns => exact hreturns

/-- No page fault is ever resolved. Whatever the task's address space, the area, the address and the
frames left, the dispatcher does not return to the access; what the handler has done by then, it has
done to the kernel's address space. -/
theorem interruptHandler_not_demandPaged {A : KernelAlloc S} {frames : S → Set ℕ}
    {kernel space : VmMap} {area : VmArea} {cr2 errorCode : ℕ} {s : Machine S} (c : Interrupts.Context)
    (_ : PageMissing A space area cr2 errorCode s)
    {handlers : ℕ → Option (InterruptFrame → Machine S → HandlerEnd × Machine S)}
    (hpf : handlers 14 = some (pfInterruptHandler A kernel cr2)) :
    ¬ DemandPaged frames space area cr2 s (interruptHandler handlers ⟨c, 14, errorCode⟩ s) ∧
      (interruptHandler handlers ⟨c, 14, errorCode⟩ s).2 =
        (vmFaultHandler A kernel cr2 (errorCode % 2 ^ 32) s).2 := by
  refine ⟨fun h => interruptHandler_exception handlers (show 14 ≤ 31 by decide) s h.resumed, ?_⟩
  simp only [interruptHandler, hpf, pfInterruptHandler]
  cases (vmFaultHandler A kernel cr2 (errorCode % 2 ^ 32) s).1 with
  | handled => rfl
  | segfault => split <;> rfl

/-- The kernel's address space with an area at 1 GiB right after boot, on a map with sixteen USABLE
frames. -/
def bootArea (pages : Pmm) : Option (VmMap × Machine (KernelMem Pmm)) :=
  let r := initPmap kernelAllocators hhdmOffset sixteenFrameMap (bootMachine pages)
  r.1.map fun kernel => (vmMapAllocateRegion kernelAllocators kernel 0x40000000 0x1000
    (mmuFlagWrite ||| mmuFlagUser) r.2).2

/-- A page of that area is missing, and the fault handler maps it. -/
theorem pageMissing_bootArea :
    ∃ s₀ kernel s area, initBitmapPmm sixteenFrameMap (fun _ => 0#8) = some s₀ ∧
      bootArea s₀ = some (kernel, s) ∧ PageMissing kernelAllocators kernel area 0x40000008 4 s ∧
      translate (vmFaultHandler kernelAllocators kernel 0x40000008 4 s).2.mem
        kernel.pageTable.pml4Phy 0x40000008 = some ⟨0xc008, ⟨true, true, false, false⟩⟩ := by
  obtain ⟨s₀, hinit⟩ := initBitmapPmm_isSome sixteenFrameMap_bootable (fun _ => 0#8)
  have hconcrete : ((initBitmapPmm sixteenFrameMap (fun _ => 0#8)).bind fun pages =>
      (bootArea pages).map fun (r : VmMap × Machine (KernelMem Pmm)) =>
        let s := (vmFaultHandler kernelAllocators r.1 0x40000008 4 r.2).2
        (r.1.areas.map fun v => (v.start, v.endAddr),
          translate r.2.mem r.1.pageTable.pml4Phy 0x40000008,
          decide (∀ e ∈ s.log.drop r.2.log.length, e.Succeeds),
          translate s.mem r.1.pageTable.pml4Phy 0x40000008)) =
      some ([(0x40000000, 0x40001000)], none, true,
        some ⟨0xc008, ⟨true, true, false, false⟩⟩) := by decide +kernel
  rw [hinit, Option.bind_some] at hconcrete
  obtain ⟨⟨kernel, s⟩, hs, hconcrete⟩ := Option.map_eq_some_iff.mp hconcrete
  obtain ⟨hareas, hconcrete⟩ := Prod.mk.inj hconcrete
  obtain ⟨hnone, hconcrete⟩ := Prod.mk.inj hconcrete
  obtain ⟨hsucc, hmapped⟩ := Prod.mk.inj hconcrete
  obtain ⟨area, harea, hrange⟩ := List.map_eq_singleton_iff.mp hareas
  obtain ⟨hstart, hend⟩ := Prod.mk.inj hrange
  refine ⟨s₀, kernel, s, area, hinit, hs, 
    ⟨by rw [harea]; exact List.mem_cons_self, by omega, hnone, by decide, ?_⟩, hmapped⟩
  rintro ⟨e, he, hfail⟩
  exact hfail (of_decide_eq_true hsucc e he)

/-- The frame of a read of a missing page in ring 3. -/
def readFrame : InterruptFrame := ⟨⟨fun _ => 0, 0x400000, 0x23, 0x202, 0x1b⟩, 14, 4⟩

/-- The handler of page faults alone. -/
def bootHandlers (kernel : VmMap) (cr2 : ℕ) :
    ℕ → Option (InterruptFrame → Machine (KernelMem Pmm) → HandlerEnd × Machine (KernelMem Pmm)) :=
  fun n => if n = 14 then some (pfInterruptHandler kernelAllocators kernel cr2) else none

/-- Right after boot a fault on the missing page is not resolved. -/
theorem interruptHandler_not_demandPaged_sixteenFrameMap :
    ∃ s₀ kernel s area, initBitmapPmm sixteenFrameMap (fun _ => 0#8) = some s₀ ∧
      bootArea s₀ = some (kernel, s) ∧ PageMissing kernelAllocators kernel area 0x40000008 4 s ∧
      ¬ DemandPaged (KernelMem.frames Pmm.inUse hhdmOffset) kernel area 0x40000008 s
        (interruptHandler (bootHandlers kernel 0x40000008) readFrame s) := by
  obtain ⟨s₀, kernel, s, area, hinit, hs, hmissing, -⟩ := pageMissing_bootArea
  exact ⟨s₀, kernel, s, area, hinit, hs, hmissing,
    (interruptHandler_not_demandPaged readFrame.toContext hmissing (if_pos rfl)).1⟩

/-- Right after boot the handler maps the missing page in the address space of the task, and the
dispatcher halts. -/
theorem interruptHandler_halts :
    ∃ s₀ kernel s area, initBitmapPmm sixteenFrameMap (fun _ => 0#8) = some s₀ ∧
      bootArea s₀ = some (kernel, s) ∧ PageMissing kernelAllocators kernel area 0x40000008 4 s ∧
      translate (vmFaultHandler kernelAllocators kernel 0x40000008 4 s).2.mem
        kernel.pageTable.pml4Phy 0x40000008 = some ⟨0xc008, ⟨true, true, false, false⟩⟩ ∧
      (interruptHandler (bootHandlers kernel 0x40000008) readFrame s).1 ≠ .returns ∧
      ¬ DemandPaged (KernelMem.frames Pmm.inUse hhdmOffset) kernel area 0x40000008 s
        (interruptHandler (bootHandlers kernel 0x40000008) readFrame s) := by
  obtain ⟨s₀, kernel, s, area, hinit, hs, hmissing, hmapped⟩ := pageMissing_bootArea
  have hend := interruptHandler_exception (bootHandlers kernel 0x40000008)
    (show readFrame.intNo ≤ 31 by decide) s
  exact ⟨s₀, kernel, s, area, hinit, hs, hmissing, hmapped, hend, fun h => hend h.resumed⟩

end Flos.Mm
