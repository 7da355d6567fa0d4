import Flos.Lib.Runs
import Flos.Mm.Firmware
import Flos.Mm.UserTree

/-!
# Firmware mappings and the frame manager

Unmapping firmware memory goes through the general release of a region, which frees whatever frame
a page of the region is mapped to. A run keeps the frame manager to the frames that were free at
boot as long as every unmapping meets only pages that the manager itself handed out for the range;
a mapping of a used frame that the manager did not hand out makes it allocatable.
-/

namespace Flos.Mm

open Flos.Lib

/-! ## What the calls do to the frame manager -/

/-- A property of the frame manager that taking a page and freeing certain frames keep. -/
theorem callInvariant_pages {P : Type*} {F : PageSource P} {hhdm : ℕ} {free : ℕ → Prop}
    {Q : P → Prop} (halloc : ∀ p, Q p → Q (F.allocPage p).2)
    (hfree : ∀ p f, free f → Q p → Q (F.freePage p f)) :
    CallInvariant (kernelAlloc F hhdm) free fun s => Q s.alloc.heap.pages where
  setMem _ _ h := h
  allocPage _ h := halloc _ h
  freePage _ _ hf h := hfree _ _ hf h
  cacheAlloc s c h := by
    simp only [Machine.cacheAlloc, kernelAlloc]
    split
    · exact h
    next heq => exact kmemCacheAlloc_pages halloc h heq
  cacheFree s c a h := by
    simp only [Machine.cacheFree, kernelAlloc, kmemCacheFree, KernelMem.setCache]
    split
    · exact h
    · split
      · exact h
      · exact h

/-- The manager has `total` pages and its free frames lie in `bound`. -/
structure PagesWithin (total : ℕ) (bound : Set ℕ) (p : Pmm) : Prop where
  small : total < 2 ^ 31
  totalPages : p.totalPages = total
  cursor : p.cachedIndex ≤ total
  free : p.freeSet ⊆ bound
  managed : ∀ q ∈ bound, q < total

namespace PagesWithin

variable {total : ℕ} {bound : Set ℕ} {p : Pmm}

/-- Taking a page frees nothing. -/
theorem allocPage (h : PagesWithin total bound p) : PagesWithin total bound (pmmAllocPage p).2 := by
  obtain ⟨hlayout, hcursor⟩ := PmmOp.allocPage.exec_layout p (h.totalPages ▸ h.cursor)
  refine ⟨h.small, hlayout.totalPages.trans h.totalPages, h.totalPages ▸ hcursor, ?_, h.managed⟩
  have hsmall : p.totalPages < 2 ^ 31 := h.totalPages ▸ h.small
  rcases pmmAllocPage_cases (h.totalPages ▸ h.cursor) with ⟨i, hi, heq⟩ | ⟨-, heq⟩
  · rw [heq, takeFrame_freeSet hsmall (hi.1.trans hsmall)]
    exact Set.sdiff_subset.trans h.free
  · rw [heq]
    exact h.free

/-- Freeing a page frees one frame, if it is managed. -/
theorem freePage {f : ℕ} (h : PagesWithin total bound p) (hf : f / 4096 ∈ bound ∨ total ≤ f / 4096) :
    PagesWithin total bound (pmmFreePage p f) := by
  obtain ⟨hlayout, hcursor⟩ := pmmFreePage_layout p f
  refine ⟨h.small, hlayout.totalPages.trans h.totalPages, hcursor.trans h.cursor, ?_,
    h.managed⟩
  rw [pmmFreePage_freeSet (h.totalPages ▸ h.small)]
  rintro q (hq | ⟨rfl, hq⟩)
  · exact h.free hq
  · rw [h.totalPages] at hq
    exact hf.resolve_right (Nat.not_le.mpr hq)

/-- The rest of the kernel takes any pages and frees pages within the bound. -/
theorem exec {op : PmmOp} (h : PagesWithin total bound p) (hgiven : op.given ⊆ bound) :
    PagesWithin total bound (op.exec p).2 := by
  obtain ⟨hlayout, hcursor⟩ := op.exec_layout p (h.totalPages ▸ h.cursor)
  refine ⟨h.small, hlayout.totalPages.trans h.totalPages, h.totalPages ▸ hcursor, ?_, h.managed⟩
  have hsmall : p.totalPages < 2 ^ 31 := h.totalPages ▸ h.small
  cases op with
  | allocPage => exact h.allocPage.free
  | allocPages count =>
    rcases Nat.eq_zero_or_pos count with rfl | hcount
    · exact h.free
    rcases pmmAllocPages_cases hsmall hcount (h.totalPages ▸ h.cursor) with
      ⟨i, -, -, -, -, hset, -⟩ | ⟨-, heq⟩
    · exact hset ▸ Set.sdiff_subset.trans h.free
    · simp only [PmmOp.exec, heq]
      exact h.free
  | freePage phys => exact (h.freePage (.inl (hgiven rfl))).free
  | freePages phys count =>
    rcases Nat.eq_zero_or_pos count with rfl | hcount
    · exact h.free
    have hlast := h.managed _ (hgiven (a := phys / 4096 + count - 1) ⟨by omega, by omega⟩)
    simp only [PmmOp.exec]
    rw [pmmFreePages_freeSet hsmall (by rw [h.totalPages]; omega)]
    exact Set.union_subset h.free hgiven

/-- What `pmm_alloc_page` returns was within the bound. -/
theorem allocPage_mem (h : PagesWithin total bound p) (hne : (pmmAllocPage p).1 ≠ 0) :
    (pmmAllocPage p).1 / 4096 ∈ bound := by
  rcases pmmAllocPage_cases (h.totalPages ▸ h.cursor) with ⟨i, hi, heq⟩ | ⟨-, heq⟩
  · rw [heq, Nat.mul_div_cancel i (by decide)]
    exact h.free hi
  · rw [heq] at hne
    exact absurd rfl hne

/-- What an operation takes was within the bound. -/
theorem taken {op : PmmOp} (h : PagesWithin total bound p) : op.taken (op.exec p).1 ⊆ bound := by
  have hsmall : p.totalPages < 2 ^ 31 := h.totalPages ▸ h.small
  cases op with
  | allocPage =>
    rintro _ ⟨hne, rfl⟩
    exact h.allocPage_mem hne
  | allocPages count =>
    rintro q ⟨hne, hq⟩
    rcases Nat.eq_zero_or_pos count with rfl | hcount
    · exact absurd hq.2 (Nat.not_lt.mpr hq.1)
    rcases pmmAllocPages_cases hsmall hcount (h.totalPages ▸ h.cursor) with
      ⟨i, -, -, hrange, haddr, -, -⟩ | ⟨-, heq⟩
    · simp only [PmmOp.exec, haddr, Nat.mul_div_cancel i (show 0 < 4096 by decide)] at hq
      exact h.free (hrange q hq)
    · simp only [PmmOp.exec, heq] at hne
      exact absurd rfl hne
  | freePage phys => exact Set.empty_subset _
  | freePages phys count => exact Set.empty_subset _

/-- The calls of the address-space code keep the bound when they free only frames within it. -/
theorem callInvariant : CallInvariant kernelAllocators (fun f => f / 4096 ∈ bound ∨ total ≤ f / 4096)
    fun s => PagesWithin total bound s.alloc.heap.pages :=
  callInvariant_pages (fun _ h => h.allocPage) fun _ _ hf h => h.freePage hf

end PagesWithin

/-! ## Runs -/

/-- The kernel's address space, with the frames that faults in it were given, each with the address
of its page, and the frames that the rest of the kernel holds. -/
structure FirmwareState where
  kernel : VmMap
  machine : Machine (KernelMem Pmm)
  data : Set (ℕ × ℕ)
  held : Set ℕ

/-- Mapping and unmapping firmware memory, page faults in the kernel's address space, calls of the
frame manager by the rest of the kernel, and anything else that leaves the frame manager alone. -/
inductive FirmwareOp
  | map (addr len : ℕ)
  | unmap (addr len : ℕ)
  | fault (faultAddress errorCode : ℕ)
  | pages (op : PmmOp)
  | other (kernel : VmMap) (machine : Machine (KernelMem Pmm))

/-- The state with other pages in the frame manager. -/
def FirmwareState.setPages (st : FirmwareState) (pages : Pmm) : Machine (KernelMem Pmm) :=
  { st.machine with alloc := { st.machine.alloc with heap := ⟨st.machine.alloc.heap.mem, pages⟩ } }

/-- The first frame that the calls since `s` took. -/
def firstFrame {S : Type*} (s s' : Machine S) : ℕ :=
  match (s'.log.drop s.log.length).head? with
  | some (.allocFrame f) => f
  | _ => 0

/-- The state behind an operation. A fault gets its page before the tables on the path to it. -/
def FirmwareOp.exec (st : FirmwareState) : FirmwareOp → FirmwareState
  | .map addr len =>
    let r := uacpiKernelMap kernelAllocators st.kernel addr len st.machine
    { st with kernel := r.2.1, machine := r.2.2 }
  | .unmap addr len =>
    let r := uacpiKernelUnmap kernelAllocators st.kernel addr len st.machine
    { st with
      kernel := r.1, machine := r.2
      data := {d | d ∈ st.data ∧ d.1 ∉ unmapRange addr len} }
  | .fault faultAddress errorCode =>
    let s := (vmFaultHandler kernelAllocators st.kernel faultAddress errorCode st.machine).2
    let frame := firstFrame st.machine s
    { st with
      machine := s
      data := st.data ∪ {d | d = (alignDown faultAddress pageSize, frame) ∧ frame ≠ 0} }
  | .pages op =>
    let r := op.exec st.machine.alloc.heap.pages
    { st with machine := st.setPages r.2, held := (st.held ∪ op.taken r.1) \ op.given }
  | .other kernel machine => { st with kernel := kernel, machine := machine }

/-- The rest of the kernel frees only what it holds, and nothing else reaches the frame manager. -/
def FirmwareOp.Legal (st : FirmwareState) : FirmwareOp → Prop
  | .unmap addr _ => addr < wordSize
  | .pages op => op.given ⊆ st.held
  | .other _ machine => machine.alloc.heap.pages = st.machine.alloc.heap.pages
  | _ => True

/-- The numbers of the frames that the frame manager handed out for pages of a range. -/
def FirmwareState.rangeData (st : FirmwareState) (addr len : ℕ) : Set ℕ :=
  {q | ∃ x ∈ unmapRange addr len, ∃ f, (alignDown x pageSize, f) ∈ st.data ∧ q = f / 4096}

/-- Every page of the range is mapped to nothing, to a frame that the frame manager handed out for
the range, or to one that it does not have in use. -/
def UnmapSafe (st : FirmwareState) (addr len : ℕ) : Prop :=
  ∀ x ∈ unmapRange addr len, ∀ f,
    PageLeaf st.machine.mem st.kernel.pageTable.pml4Phy x f → f ≠ 0 →
      f / 4096 ∈ st.machine.alloc.heap.pages.freeSet ∪ st.rangeData addr len ∨
        st.machine.alloc.heap.pages.totalPages ≤ f / 4096

/-- Each unmapping of the operation is safe. -/
def FirmwareOp.Safe (st : FirmwareState) : FirmwareOp → Prop
  | .unmap addr len => UnmapSafe st addr len
  | _ => True

/-- A legal operation that is safe. -/
structure FirmwareStep (st : FirmwareState) (op : FirmwareOp) (st' : FirmwareState) : Prop where
  legal : op.Legal st
  safe : op.Safe st
  next : st' = op.exec st

/-- The free frames, the frames handed out for data and those held elsewhere lie in the bound. -/
structure FirmwareInv (total : ℕ) (bound : Set ℕ) (st : FirmwareState) : Prop where
  pages : PagesWithin total bound st.machine.alloc.heap.pages
  data : ∀ d ∈ st.data, d.2 / 4096 ∈ bound
  held : st.held ⊆ bound

variable {total : ℕ} {bound : Set ℕ} {st st' : FirmwareState}

/-- A safe unmapping keeps every bound on the free frames and the frames handed out for its range. -/
theorem PagesWithin.unmap {addr len : ℕ} (haddr : addr < wordSize)
    (h : PagesWithin total bound st.machine.alloc.heap.pages) (hsafe : UnmapSafe st addr len)
    (hdata : st.rangeData addr len ⊆ bound) :
    PagesWithin total bound
      (uacpiKernelUnmap kernelAllocators st.kernel addr len st.machine).2.alloc.heap.pages := by
  refine PagesWithin.callInvariant.uacpiKernelUnmap haddr (fun x hx f hleaf hne => ?_) h
  rcases hsafe x hx f hleaf hne with (hfree | hrange) | hout
  · exact .inl (h.free hfree)
  · exact .inl (hdata hrange)
  · exact .inr (h.totalPages ▸ hout)

/-- The first frame is the one that the first call took. -/
theorem firstFrame_eq {S : Type*} {s s' : Machine S} {f : ℕ}
    (h : s.log ++ [.allocFrame f] <+: s'.log) : firstFrame s s' = f := by
  obtain ⟨rest, hrest⟩ := h
  rw [firstFrame, ← hrest, List.append_assoc, List.drop_left]
  rfl

/-- The page of a fault was within the bound. -/
theorem firstFrame_fault {space : VmMap} {s : Machine (KernelMem Pmm)} {faultAddress errorCode : ℕ}
    (h : PagesWithin total bound s.alloc.heap.pages)
    (hne : firstFrame s (vmFaultHandler kernelAllocators space faultAddress errorCode s).2 ≠ 0) :
    firstFrame s (vmFaultHandler kernelAllocators space faultAddress errorCode s).2 / 4096 ∈
      bound := by
  have hsame : firstFrame s s = 0 := by rw [firstFrame, List.drop_length]; rfl
  have hlog := callInvariant_log kernelAllocators
    (s.log ++ [.allocFrame (s.allocPage kernelAllocators).1])
  generalize hs' : (vmFaultHandler kernelAllocators space faultAddress errorCode s).2 = s' at hne ⊢
  simp only [vmFaultHandler] at hs'
  -- without a call of the manager there is no first frame
  split at hs'
  · exact absurd (hs' ▸ hsame) hne
  split at hs'
  · exact absurd (hs' ▸ hsame) hne
  split at hs'
  · exact absurd (hs' ▸ hsame) hne
  have hfirst : firstFrame s s' = (s.allocPage kernelAllocators).1 := by
    refine firstFrame_eq ?_
    split at hs'
    · rw [← hs']
      exact List.prefix_rfl
    · rw [← hs']
      exact hlog.pmapMapPage _ _ _ _ List.prefix_rfl
  rw [hfirst] at hne ⊢
  exact h.allocPage_mem hne

/-- A safe step keeps the bound. -/
theorem FirmwareInv.step {op : FirmwareOp} (h : FirmwareInv total bound st)
    (hstep : FirmwareStep st op st') : FirmwareInv total bound st' := by
  obtain ⟨hlegal, hsafe, rfl⟩ := hstep
  cases op with
  | map addr len =>
    exact ⟨PagesWithin.callInvariant.uacpiKernelMap _ _ _ h.pages, h.data, h.held⟩
  | unmap addr len =>
    refine ⟨h.pages.unmap hlegal hsafe ?_, fun d hd => h.data d hd.1, h.held⟩
    rintro _ ⟨x, -, f, hf, rfl⟩
    exact h.data _ hf
  | fault faultAddress errorCode =>
    refine ⟨PagesWithin.callInvariant.vmFaultHandler _ _ _ h.pages, ?_, h.held⟩
    rintro d (hd | ⟨rfl, hne⟩)
    · exact h.data d hd
    · exact firstFrame_fault h.pages hne
  | pages op =>
    refine ⟨h.pages.exec (hlegal.trans h.held), h.data, ?_⟩
    exact Set.sdiff_subset.trans (Set.union_subset h.held h.pages.taken)
  | other kernel machine =>
    refine ⟨?_, h.data, h.held⟩
    have hpages : machine.alloc.heap.pages = st.machine.alloc.heap.pages := hlegal
    simp only [FirmwareOp.exec, hpages]
    exact h.pages

/-- Firmware mappings never feed the frame allocator, as long as each unmapping meets only pages
that the allocator handed out for its range or does not have in use.

In every state reached from `init_pmap`, a frame that was not free at boot is not free, and the next
such unmapping adds no frame to the free set but those handed out for page data of its range. -/
theorem uacpiKernelUnmap_run_keepsFree {m : MemoryMap} (hm : m.Bootable) {mem : ℤ → BitVec 8}
    {s₀ : Pmm} (hinit : initBitmapPmm m mem = some s₀) {s : Machine (KernelMem Pmm)}
    (hpages : s.alloc.heap.pages = s₀) {hhdm : ℕ} {st st' : FirmwareState}
    (hkernel : initPmap kernelAllocators hhdm m s = (some st.kernel, st.machine))
    (hdata : st.data = ∅) (hheld : st.held = ∅)
    {ops : List FirmwareOp} (hrun : Run FirmwareStep st ops st') :
    (∀ p, ¬ s₀.Free p → ¬ st'.machine.alloc.heap.pages.Free p) ∧
      ∀ addr len, addr < wordSize → UnmapSafe st' addr len →
        (uacpiKernelUnmap kernelAllocators st'.kernel addr len
            st'.machine).2.alloc.heap.pages.freeSet ⊆
          st'.machine.alloc.heap.pages.freeSet ∪ st'.rangeData addr len := by
  have hok := Pmm.Ok.of_init hm hinit
  have hboot : PagesWithin s₀.totalPages s₀.freeSet s.alloc.heap.pages :=
    hpages.symm ▸ ⟨hok.small, rfl, hok.cursor, le_rfl, fun q hq => hq.1⟩
  have hinv := hrun.invariant (FirmwareInv s₀.totalPages s₀.freeSet) (fun _ _ _ h hs => h.step hs)
    ⟨PagesWithin.callInvariant.initPmap hkernel hboot, by simp [hdata], by simp [hheld]⟩
  refine ⟨fun p hp hfree => hp (hinv.pages.free hfree), fun addr len haddr hsafe => ?_⟩
  have hbound : PagesWithin s₀.totalPages
      (st'.machine.alloc.heap.pages.freeSet ∪ st'.rangeData addr len)
      st'.machine.alloc.heap.pages := by
    refine ⟨hok.small, hinv.pages.totalPages, hinv.pages.cursor, Set.subset_union_left, ?_⟩
    rintro q (hq | ⟨x, -, f, hf, rfl⟩)
    · exact hinv.pages.managed q (hinv.pages.free hq)
    · exact hinv.pages.managed _ (hinv.data _ hf)
  exact (hbound.unmap haddr hsafe Set.subset_union_right).free

/-- The kernel's address space right after boot, with no data handed out. -/
def bootFirmware (pages : Pmm) : Option FirmwareState :=
  let r := initPmap kernelAllocators hhdmOffset sixteenFrameMap (bootMachine pages)
  r.1.map fun kernel => ⟨kernel, r.2, ∅, ∅⟩

/-- The boot state is what `init_pmap` leaves. -/
theorem initPmap_of_bootFirmware {pages : Pmm} {st : FirmwareState}
    (h : bootFirmware pages = some st) :
    initPmap kernelAllocators hhdmOffset sixteenFrameMap (bootMachine pages) =
      (some st.kernel, st.machine) ∧ st.data = ∅ ∧ st.held = ∅ := by
  obtain ⟨kernel, hkernel, rfl⟩ := Option.map_eq_some_iff.mp h
  exact ⟨by rw [← hkernel], rfl, rfl⟩

/-- On a map with sixteen USABLE frames, a device page far above them is mapped and unmapped. -/
theorem uacpiKernelUnmap_run_keepsFree_sixteenFrameMap :
    ∃ s₀ st st', initBitmapPmm sixteenFrameMap (fun _ => 0#8) = some s₀ ∧
      Run FirmwareStep st [.map 0xFEE00000 16, .unmap 0x1000 16] st' ∧
      (uacpiKernelMap kernelAllocators st.kernel 0xFEE00000 16 st.machine).1 = 0x1000 ∧
      ∀ p, ¬ s₀.Free p → ¬ st'.machine.alloc.heap.pages.Free p := by
  obtain ⟨s₀, hinit⟩ := initBitmapPmm_isSome sixteenFrameMap_bootable (fun _ => 0#8)
  have hconcrete : ((initBitmapPmm sixteenFrameMap (fun _ => 0#8)).bind fun pages =>
      (bootFirmware pages).map fun st =>
        let st₁ := FirmwareOp.exec st (.map 0xFEE00000 16)
        ((uacpiKernelMap kernelAllocators st.kernel 0xFEE00000 16 st.machine).1,
          st₁.machine.alloc.heap.pages.totalPages,
          (tableAt tableEntry st₁.machine.mem st₁.kernel.pageTable.pml4Phy
            [pml4Idx 0x1000, pdptIdx 0x1000, pdIdx 0x1000]).map fun t =>
              st₁.machine.mem t (ptIdx 0x1000) &&& pagePhysMask)) =
      some (0x1000, 17, some 0xFEE00000) := by decide +kernel
  rw [hinit, Option.bind_some] at hconcrete
  obtain ⟨st, hst, hconcrete⟩ := Option.map_eq_some_iff.mp hconcrete
  obtain ⟨hvirt, hrest⟩ := Prod.mk.inj hconcrete
  obtain ⟨htotal, hleaf⟩ := Prod.mk.inj hrest
  obtain ⟨hkernel, hdata, hheld⟩ := initPmap_of_bootFirmware hst
  have hsafe : UnmapSafe (FirmwareOp.exec st (.map 0xFEE00000 16)) 0x1000 16 := by
    rintro x ⟨hlo, hhi⟩ f hpage -
    have hlo' : 0x1000 ≤ x := hlo
    have hhi' : x < 0x2000 := hhi
    obtain ⟨t, ht, hf⟩ := hpage.of_page (b := 0x1000) (by omega)
    rw [ht, Option.map_some, Option.some.injEq] at hleaf
    rw [hleaf] at hf
    refine .inr ?_
    rw [htotal, ← hf]
    decide
  have hrun : Run FirmwareStep st [.map 0xFEE00000 16, .unmap 0x1000 16] _ :=
    .cons ⟨trivial, trivial, rfl⟩ (.single ⟨show 0x1000 < wordSize by decide, hsafe, rfl⟩)
  exact ⟨s₀, st, _, hinit, hrun, hvirt, (uacpiKernelUnmap_run_keepsFree sixteenFrameMap_bootable
    hinit rfl hkernel hdata hheld hrun).1⟩

/-- Mapping an ACPI table in a reclaimable page and unmapping it makes that page allocatable: it was
not free at boot, and no page data was handed out. -/
theorem uacpiKernelUnmap_frees_firmware :
    ∃ s₀ st st', initBitmapPmm sixteenFrameMap (fun _ => 0#8) = some s₀ ∧
      bootFirmware s₀ = some st ∧
      Run (fun (st : FirmwareState) (op : FirmwareOp) st' => op.Legal st ∧ st' = op.exec st) st
        [.map 0x8000 36, .unmap 0x1000 36] st' ∧
      (uacpiKernelMap kernelAllocators st.kernel 0x8000 36 st.machine).1 = 0x1000 ∧
      st.data = ∅ ∧ ¬ s₀.Free 8 ∧ st'.machine.alloc.heap.pages.Free 8 := by
  obtain ⟨s₀, hinit⟩ := initBitmapPmm_isSome sixteenFrameMap_bootable (fun _ => 0#8)
  have hconcrete : ((initBitmapPmm sixteenFrameMap (fun _ => 0#8)).bind fun pages =>
      (bootFirmware pages).map fun st =>
        let st₂ := FirmwareOp.exec (FirmwareOp.exec st (.map 0x8000 36)) (.unmap 0x1000 36)
        ((uacpiKernelMap kernelAllocators st.kernel 0x8000 36 st.machine).1,
          pages.isClear 8, decide (8 < st₂.machine.alloc.heap.pages.totalPages),
          st₂.machine.alloc.heap.pages.isClear 8)) =
      some (0x1000, false, true, true) := by decide +kernel
  rw [hinit, Option.bind_some] at hconcrete
  obtain ⟨st, hst, hconcrete⟩ := Option.map_eq_some_iff.mp hconcrete
  obtain ⟨hvirt, hrest⟩ := Prod.mk.inj hconcrete
  obtain ⟨hused, hrest⟩ := Prod.mk.inj hrest
  obtain ⟨hmanaged, hclear⟩ := Prod.mk.inj hrest
  refine ⟨s₀, st, _, hinit, hst,
    .cons ⟨trivial, rfl⟩ (.single ⟨show 0x1000 < wordSize by decide, rfl⟩), hvirt,
    (initPmap_of_bootFirmware hst).2.1, fun hfree => ?_, of_decide_eq_true hmanaged, hclear⟩
  rw [hfree.2] at hused
  cases hused

end Flos.Mm
