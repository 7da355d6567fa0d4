import Flos.Mm.CallInvariants
import Flos.Mm.KernelMem

/-!
# Firmware mappings

The kernel's own address space, in which the ACPI interpreter maps and unmaps firmware tables.
`init_pmap` maps all of physical memory below the image at its own address and in the direct map;
the sections of the kernel image lie above both and are left out.
-/

namespace Flos.Mm

open Flos.Lib

section Kernel

variable {S : Type*} (A : KernelAlloc S)

/-- The loop of `init_pmap` over the memory map. -/
def mapMemory (hhdm table : ℕ) : List MemoryMapEntry → Machine S → Machine S
  | [], s => s
  | e :: rest, s =>
    if e.type = .badMemory ∨ e.type = .executableAndModules then mapMemory hhdm table rest s
    else
      let flags := mmuFlagWrite ||| mmuFlagNoExec ||| mmuFlagHugeOk
      let s := (pmapMapRange A table e.base e.base flags e.length s).2
      mapMemory hhdm table rest
        (pmapMapRange A table ((e.base + hhdm) % wordSize) e.base flags e.length s).2

/-- `init_pmap`, up to the sections of the kernel image; without an address space it halts. -/
def initPmap (hhdm : ℕ) (map : MemoryMap) (s : Machine S) : Option VmMap × Machine S :=
  match vmMapCreate A none s with
  | (none, s) => (none, s)
  | (some kernel, s) => (some kernel, mapMemory A hhdm kernel.pageTable.pml4Phy map.entries s)

/-- Mapping firmware memory into a range that was found, if any; the result of `pmap_map_range` is
ignored. -/
def mapFound (table virt phys size : ℕ) (s : Machine S) : Machine S :=
  if virt = 0 then s
  else (pmapMapRange A table virt phys (mmuFlagNoExec ||| mmuFlagWrite) size s).2

/-- `uacpi_kernel_map`: the virtual address, or `0`. -/
def uacpiKernelMap (kernel : VmMap) (addr len : ℕ) (s : Machine S) : ℕ × VmMap × Machine S :=
  let phys := alignDown addr pageSize
  let offset := addr - phys
  let size := alignUp (offset + len) pageSize
  let r := vmMapAllocate A kernel size (mmuFlagWrite ||| mmuFlagNoExec) s
  (if r.1 = 0 then 0 else (r.1 + offset) % wordSize, r.2.1,
    mapFound A kernel.pageTable.pml4Phy r.1 phys size r.2.2)

/-- The loop of `uacpi_kernel_unmap`, which unmaps pages and ignores what they mapped. -/
def unmapWithoutFree (table : ℕ) : (n virt : ℕ) → Machine S → Machine S
  | 0, _, s => s
  | n + 1, virt, s =>
    unmapWithoutFree table n ((virt + pageSize) % wordSize) (pmapUnmapPage A table virt s).2

/-- `uacpi_kernel_unmap` behind the rounding. -/
def unmapFirmware (kernel : VmMap) (virt size : ℕ) (s : Machine S) : VmMap × Machine S :=
  let r := vmMapFreeRegion A kernel virt size s
  (r.1, unmapWithoutFree A kernel.pageTable.pml4Phy (size / pageSize) virt r.2)

/-- `uacpi_kernel_unmap`. -/
def uacpiKernelUnmap (kernel : VmMap) (addr len : ℕ) (s : Machine S) : VmMap × Machine S :=
  let virt := alignDown addr pageSize
  let offset := addr - virt
  unmapFirmware A kernel virt (alignUp (offset + len) pageSize) s

variable {A} {free : ℕ → Prop} {P : Machine S → Prop} {s : Machine S}

/-- Mapping the memory of the boot map keeps what all calls keep. -/
theorem CallInvariant.mapMemory (h : CallInvariant A free P) (hhdm table : ℕ)
    (entries : List MemoryMapEntry) (hs : P s) : P (mapMemory A hhdm table entries s) := by
  induction entries generalizing s with
  | nil => exact hs
  | cons e rest ih =>
    rw [Mm.mapMemory]
    split
    · exact ih hs
    · exact ih (h.pmapMapRange _ _ _ _ _ (h.pmapMapRange _ _ _ _ _ hs))

/-- `init_pmap` keeps what all calls keep. -/
theorem CallInvariant.initPmap (h : CallInvariant A free P) {hhdm : ℕ} {map : MemoryMap}
    {kernel : VmMap} {s' : Machine S} (hinit : initPmap A hhdm map s = (some kernel, s'))
    (hs : P s) : P s' := by
  rw [Mm.initPmap] at hinit
  split at hinit
  · cases hinit
  next space s₁ hcreate =>
    cases hinit
    exact h.mapMemory _ _ _ (h.vmMapCreate hcreate hs)

/-- Mapping firmware memory into a range keeps what all calls keep. -/
theorem CallInvariant.mapFound (h : CallInvariant A free P) (table virt phys size : ℕ) (hs : P s) :
    P (mapFound A table virt phys size s) := by
  have hmapped := h.pmapMapRange table virt phys (mmuFlagNoExec ||| mmuFlagWrite) size hs
  unfold Mm.mapFound
  split
  · exact hs
  · exact hmapped

/-- The addresses that a call of `vm_map_free_region` unmaps. -/
def regionRange (start size : ℕ) : Set ℕ :=
  {x | start ≤ x ∧ x < (start + alignUp size pageSize) % wordSize}

/-- The addresses that `uacpi_kernel_unmap` unmaps. -/
def unmapRange (addr len : ℕ) : Set ℕ :=
  regionRange (alignDown addr pageSize) (alignUp (addr - alignDown addr pageSize + len) pageSize)

/-- Unmapping without freeing keeps what all calls keep. -/
theorem CallInvariant.unmapWithoutFree (h : CallInvariant A free P) (table n virt : ℕ)
    (hs : P s) : P (unmapWithoutFree A table n virt s) := by
  induction n generalizing virt s with
  | zero => exact hs
  | succ n ih => exact ih _ (h.pmapUnmapPage table virt hs)

/-- Unmapping firmware memory keeps it when the frames named by the pages of the range may be
freed. -/
theorem CallInvariant.unmapFirmware (h : CallInvariant A free P) {kernel : VmMap} {virt size : ℕ}
    (hvirt : 4096 ∣ virt)
    (hfree : ∀ x ∈ regionRange virt size, ∀ f, PageLeaf s.mem kernel.pageTable.pml4Phy x f →
      f ≠ 0 → free f) (hs : P s) : P (unmapFirmware A kernel virt size s).2 := by
  -- the end of the range is aligned, so one more page fits
  have hend : (virt + alignUp size pageSize) % wordSize + 4096 ≤ wordSize := by
    have hsize := dvd_alignUp_page size
    simp only [wordSize]
    omega
  have hregion := h.vmMapFreeRegion hend (fun x f hlo hhi => hfree x ⟨hlo, hhi⟩ f) hs
  rw [Mm.unmapFirmware]
  exact h.unmapWithoutFree _ _ _ hregion

/-- `uacpi_kernel_map` keeps what all calls keep. -/
theorem CallInvariant.uacpiKernelMap (h : CallInvariant A free P) (kernel : VmMap) (addr len : ℕ)
    (hs : P s) : P (uacpiKernelMap A kernel addr len s).2.2 :=
  h.mapFound _ _ _ _ (h.vmMapAllocate kernel _ _ hs)

/-- `uacpi_kernel_unmap` keeps it when the frames named by the pages of its range may be freed. -/
theorem CallInvariant.uacpiKernelUnmap (h : CallInvariant A free P) {kernel : VmMap} {addr len : ℕ}
    (haddr : addr < wordSize)
    (hfree : ∀ x ∈ unmapRange addr len, ∀ f, PageLeaf s.mem kernel.pageTable.pml4Phy x f →
      f ≠ 0 → free f) (hs : P s) : P (uacpiKernelUnmap A kernel addr len s).2 := by
  have hvirt : 4096 ∣ alignDown addr pageSize := by
    rw [alignDown_page haddr]
    exact Nat.dvd_mul_left _ _
  exact h.unmapFirmware hvirt hfree hs

end Kernel

end Flos.Mm
