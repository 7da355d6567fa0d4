import Flos.Mm.CoveredPages
import Flos.Mm.KernelSpace
import Flos.Mm.LeafChanges

/-!
# Unused ranges of the kernel's address space

`vm_map_allocate` goes by the areas. `init_pmap` maps all of memory in the lower half and records no area
for it, so the page table that it leaves has to be compared with the gap that is given out. Everything
that is mapped later lies in areas. As long as each gap holds nothing that `init_pmap` has mapped, a
range that is given out is therefore translated nowhere, and mapping into it and unmapping it leave all
other translations alone.
-/

namespace Flos.Mm

open Flos.Lib

/-- Nothing in the range is translated. -/
def RangeUnused (mem : ℕ → Fin 512 → ℕ) (root start size : ℕ) : Prop :=
  ∀ x, start ≤ x → x < start + size → translate mem root x = none

/-- The lowest gap that is large enough lies in the lower half, and nothing in it was mapped at boot. -/
def GapClear (boot : ℕ → Fin 512 → ℕ) (root : ℕ) (areas : List VmArea) (size : ℕ) : Prop :=
  ∃ a, IsLeast {a | vmAllocBase ≤ a ∧ AreaGap areas a (pageCeil size)} a ∧ a + pageCeil size ≤ 2 ^ 47 ∧
    RangeUnused boot root a (pageCeil size)

/-- An allocation of addresses has nothing to do, finds no node, or finds a clear gap. -/
def AllocatesClear (boot : ℕ → Fin 512 → ℕ) (st : KernelState) (size : ℕ) : Prop :=
  size = 0 ∨ NodeFails kernelAllocators st.machine ∨
    GapClear boot st.space.pageTable.pml4Phy st.space.areas size

/-- Addresses are allocated in clear gaps only, pages are mapped in areas, and unmapping neither reaches
a table or a slab nor drops the tail of an area. -/
def KernelOp.KeepsClear (boot : ℕ → Fin 512 → ℕ) (st : KernelState) : KernelOp → Prop
  | .allocate size _ => AllocatesClear boot st size
  | .map addr len => addr < wordSize ∧ AllocatesClear boot st (firmwareSize addr len)
  | .unmap addr len => addr < wordSize ∧ addr / 4096 * 4096 + firmwareSize addr len < wordSize ∧
      UnmapSpares st addr len ∧ (0 < firmwareSize addr len →
        ¬ SplitFails kernelAllocators st (addr / 4096 * 4096) (firmwareSize addr len))
  | .mapPage virt _ _ => ∀ x, x / 4096 = virt / 4096 → x ∈ areasCover st.space.areas
  | .other machine => LeavesKernel st machine
  | .fault _ _ | .mapRange _ _ _ _ => False

/-- A range that `vm_map_allocate` returns is unused. -/
def ReturnsUnused (st : KernelState) (size flags : ℕ) : Prop :=
  (vmMapAllocate kernelAllocators st.space size flags st.machine).1 ≠ 0 →
    RangeUnused st.machine.mem st.space.pageTable.pml4Phy
      (vmMapAllocate kernelAllocators st.space size flags st.machine).1 (pageCeil size)

/-- A range that is given out is unused. Mapping into it changes no translation that was there, mapping a
page of an area or unmapping a range of areas changes none that was there at boot, and unmapping changes
nothing outside its range. -/
def KernelOp.SparesMappings (boot : ℕ → Fin 512 → ℕ) (st : KernelState) (op : KernelOp) : Prop :=
  let root := st.space.pageTable.pml4Phy
  let same := fun x => translate (op.exec st).machine.mem root x = translate st.machine.mem root x
  match op with
  | .allocate size flags => ReturnsUnused st size flags
  | .map addr len => ReturnsUnused st (firmwareSize addr len) (mmuFlagWrite ||| mmuFlagNoExec) ∧
      ∀ x, translate st.machine.mem root x ≠ none → same x
  | .unmap addr len =>
      let range := Set.Ico (addr / 4096 * 4096) (addr / 4096 * 4096 + firmwareSize addr len)
      range ⊆ areasCover st.space.areas → ∀ x, x ∉ range ∨ translate boot root x ≠ none → same x
  | .mapPage _ _ _ => ∀ x, translate boot root x ≠ none → same x
  | _ => True

/-- What holds in a run: nothing in an area was mapped at boot, and what is translated and was not at boot
lies in an area, behind a 4 KiB leaf. -/
structure ClearOfBoot (boot : ℕ → Fin 512 → ℕ) (st : KernelState) : Prop where
  space : KernelSpace st
  chain : AreasChain st.space.areas
  low : ∀ v ∈ st.space.areas, v.endAddr ≤ 2 ^ 47
  apart : ∀ x ∈ areasCover st.space.areas, translate boot st.space.pageTable.pml4Phy x = none
  within : ∀ x, translate st.machine.mem st.space.pageTable.pml4Phy x ≠ none →
    translate boot st.space.pageTable.pml4Phy x = none →
    x ∈ areasCover st.space.areas ∧ ∃ f, SmallLeaf st.machine.mem st.space.pageTable.pml4Phy x f

/-- The areas with a new one cover what they covered and the new one. -/
theorem mem_areasCover_insertVma {areas : List VmArea} {new : VmArea} {x : ℕ} :
    x ∈ areasCover (insertVma areas new) ↔ new.start ≤ x ∧ x < new.endAddr ∨ x ∈ areasCover areas := by
  constructor
  · rintro ⟨v, hv, hx⟩
    rcases mem_insertVma.mp hv with rfl | hv
    · exact .inl hx
    · exact .inr ⟨v, hv, hx⟩
  · rintro (hx | ⟨v, hv, hx⟩)
    · exact ⟨new, mem_insertVma.mpr (.inl rfl), hx⟩
    · exact ⟨v, mem_insertVma.mpr (.inr hv), hx⟩

namespace ClearOfBoot

variable {boot : ℕ → Fin 512 → ℕ} {st : KernelState}

/-- An allocation in a clear gap: it fails, or the gap is given out. -/
theorem vmMapAllocate (h : ClearOfBoot boot st) {size : ℕ} (flags : ℕ) (hclear : AllocatesClear boot st size) :
    ((vmMapAllocate kernelAllocators st.space size flags st.machine).1 = 0 ∧
      (vmMapAllocate kernelAllocators st.space size flags st.machine).2.1 = st.space) ∨
    ∃ a node, a ≠ 0 ∧ 4096 ∣ a ∧ 0 < pageCeil size ∧ a + pageCeil size ≤ 2 ^ 47 ∧
      AreaGap st.space.areas a (pageCeil size) ∧
      RangeUnused boot st.space.pageTable.pml4Phy a (pageCeil size) ∧
      (vmMapAllocate kernelAllocators st.space size flags st.machine).1 = a ∧
      (vmMapAllocate kernelAllocators st.space size flags st.machine).2.1 =
        { st.space with areas := insertVma st.space.areas ⟨node, a, a + pageCeil size, flags⟩ } := by
  by_cases hfail : size = 0 ∨ NodeFails kernelAllocators st.machine
  · exact .inl (vmMapAllocate_of_fails kernelAllocators st.space flags st.machine hfail)
  obtain ⟨hsize, hnode⟩ := not_or.mp hfail
  obtain ⟨a, hleast, hlow, hunused⟩ := (hclear.resolve_left hsize).resolve_left hnode
  have hwords : AreasWords st.space.areas := fun v hv => (h.space.ends v hv).2
  have hfit : pageCeil size < wordSize := by
    simp only [wordSize]
    omega
  have hround := alignUp_eq_pageCeil hfit
  -- the scan ends at the gap
  have hcandidate : findCandidate (pageCeil size) st.space.areas vmAllocBase = a := by
    obtain ⟨-, -, hfits, hfirst⟩ := findCandidate_spec (SpanChain.inOrder h.chain) hwords (pageCeil size)
      vmAllocBase
    refine (hfirst (hfits.mpr ⟨a, hleast.1.1, ?_, hleast.1.2⟩)).unique hleast
    exact hlow.trans_lt (by decide)
  have hdvd : 4096 ∣ a := hcandidate ▸ (h.space.ends.findCandidate _).1
  have hne : a ≠ 0 := (Nat.lt_of_lt_of_le (by decide) hleast.1.1).ne'
  refine .inr ⟨a, (st.machine.cacheAlloc kernelAllocators .vmAreaCache).1, hne, hdvd,
    pageCeil_pos (Nat.pos_of_ne_zero hsize), hlow, hleast.1.2, hunused, ?_, ?_⟩
  all_goals rw [vmMapAllocate_of_node kernelAllocators flags st.machine (SpanChain.inOrder h.chain) hwords
    hsize hnode, hround, hcandidate]
  rw [nextArea, hround, Nat.mod_eq_of_lt (hlow.trans_lt (by decide))]

/-- A range that is given out is unused: what is translated there was so at boot or lies in an area. -/
theorem returnsUnused (h : ClearOfBoot boot st) {size : ℕ} (flags : ℕ)
    (hclear : AllocatesClear boot st size) : ReturnsUnused st size flags := by
  intro hne x hlo hhi
  rcases h.vmMapAllocate flags hclear with ⟨hzero, -⟩ | ⟨a, -, -, -, -, -, hgap, hunused, hresult, -⟩
  · exact absurd hzero hne
  rw [hresult] at hlo hhi
  by_contra hsome
  obtain ⟨⟨v, hv, hx⟩, -⟩ := h.within x hsome (hunused x hlo hhi)
  rcases hgap v hv with hout | hout
  · exact absurd hx.2 (not_lt.mpr (hout.trans hlo))
  · exact absurd hx.1 (not_le.mpr (hhi.trans_le hout))

/-- An allocation in a clear gap keeps the areas clear. -/
theorem allocate (h : ClearOfBoot boot st) {size : ℕ} (flags : ℕ) (hclear : AllocatesClear boot st size) :
    ClearOfBoot boot (KernelOp.exec st (.allocate size flags)) := by
  have hspace := h.space.allocate size flags
  obtain ⟨hmem, -⟩ := vmMapAllocate_frame kernelAllocators st.space flags st.machine size
  rw [KernelOp.exec] at hspace ⊢
  rcases h.vmMapAllocate flags hclear with ⟨-, hsame⟩ | ⟨a, node, -, -, hpos, hlow, hgap, hunused, -, hnew⟩
  · rw [hsame] at hspace ⊢
    refine ⟨hspace, h.chain, h.low, h.apart, fun x hx => ?_⟩
    simp only [hmem] at hx ⊢
    exact h.within x hx
  · rw [hnew] at hspace ⊢
    refine ⟨hspace, ?_, fun v hv => ?_, fun x hx => ?_, fun x hx hnone => ?_⟩
    · exact AreasChain.insertVma h.chain (Nat.lt_add_of_pos_right hpos) hgap
    · rcases mem_insertVma.mp hv with rfl | hv
      · exact hlow
      · exact h.low v hv
    · rcases mem_areasCover_insertVma.mp hx with hx | hx
      · exact hunused x hx.1 hx.2
      · exact h.apart x hx
    · simp only [hmem] at hx ⊢
      obtain ⟨hin, hleaf⟩ := h.within x hx hnone
      exact ⟨mem_areasCover_insertVma.mpr (.inr hin), hleaf⟩

/-- Adding 4 KiB leaves in areas keeps the areas clear. -/
theorem addPages (h : ClearOfBoot boot st) {machine : Machine (KernelMem Pmm)} {lo hi : ℕ}
    (hspace : KernelSpace ⟨st.space, machine⟩)
    (hadds : AddsPages st.space.pageTable.pml4Phy lo hi st.machine.mem machine.mem)
    (hin : ∀ x, lo ≤ x → x < hi → x ∈ areasCover st.space.areas) : ClearOfBoot boot ⟨st.space, machine⟩ := by
  refine ⟨hspace, h.chain, h.low, h.apart, fun x hx hnone => ?_⟩
  by_cases hold : translate st.machine.mem st.space.pageTable.pml4Phy x = none
  · refine ⟨?_, hadds.added x hold hx⟩
    by_contra hout
    refine hx ((hadds.outside x fun hrange => hout ?_).trans hold)
    exact hin x hrange.1 hrange.2
  · obtain ⟨hcover, f, hf⟩ := h.within x hold hnone
    exact ⟨hcover, hadds.small x f hf⟩

/-- Mapping firmware memory into a clear gap keeps the areas clear and changes no translation. -/
theorem map (h : ClearOfBoot boot st) {addr len : ℕ} (haddr : addr < wordSize)
    (hclear : AllocatesClear boot st (firmwareSize addr len)) :
    ClearOfBoot boot (KernelOp.exec st (.map addr len)) ∧
      ∀ x, translate st.machine.mem st.space.pageTable.pml4Phy x ≠ none →
        translate (KernelOp.exec st (.map addr len)).machine.mem st.space.pageTable.pml4Phy x =
          translate st.machine.mem st.space.pageTable.pml4Phy x := by
  have hspace := h.space.map addr len
  have hunused := h.returnsUnused (mmuFlagWrite ||| mmuFlagNoExec) hclear
  have halloc := h.allocate (mmuFlagWrite ||| mmuFlagNoExec) hclear
  obtain ⟨hmem, htable⟩ := vmMapAllocate_frame kernelAllocators st.space
    (mmuFlagWrite ||| mmuFlagNoExec) st.machine (firmwareSize addr len)
  have hsize : alignUp (addr - alignDown addr pageSize + len) pageSize = firmwareSize addr len := by
    rw [alignDown_page haddr, firmwareSize, show addr - addr / 4096 * 4096 = addr % 4096 by omega]
  have hdvd : 4096 ∣ firmwareSize addr len := dvd_alignUp_page _
  have hceil : pageCeil (firmwareSize addr len) = firmwareSize addr len := by
    simp only [pageCeil]
    omega
  have hphys : alignDown addr pageSize < wordSize := by
    rw [alignDown_page haddr]
    exact (Nat.div_mul_le_self addr 4096).trans_lt haddr
  simp only [KernelOp.exec, uacpiKernelMap, mapFound, hsize, ReturnsUnused] at hspace hunused halloc ⊢
  rcases h.vmMapAllocate (mmuFlagWrite ||| mmuFlagNoExec) hclear with
    ⟨hzero, -⟩ | ⟨a, node, hne, hpage, -, hlow, -, -, hresult, hareas⟩
  · rw [if_pos hzero]
    exact ⟨halloc, fun x _ => by rw [hmem]⟩
  · rw [hresult, hceil] at hunused
    rw [if_neg (hresult ▸ hne), hresult] at hspace ⊢
    rw [hceil] at hlow hareas
    have hstate := halloc.space.state
    simp only [htable] at hstate
    have hadds := pmapMapRange_addsPages kernelAllocators_lawful.toLawfulPages
      (show (mmuFlagNoExec ||| mmuFlagWrite) &&& mmuFlagHugeOk = 0 by decide) hstate
      (show a < wordSize by simp only [wordSize]; omega) hpage hdvd (.inl hlow) hphys
    refine ⟨halloc.addPages hspace (by simpa only [htable] using hadds) fun x hlo hhi => ?_, fun x hx => ?_⟩
    · dsimp only
      rw [hareas]
      exact mem_areasCover_insertVma.mpr (.inl ⟨hlo, hhi⟩)
    · rw [hadds.kept (fun y hlo hhi => ?_) (hmem.symm ▸ hx), hmem]
      rw [hmem]
      exact hunused hne y hlo hhi

/-- Mapping a page of an area keeps the areas clear and what was mapped at boot. -/
theorem mapPage (h : ClearOfBoot boot st) {virt : ℕ} (phys flags : ℕ)
    (hin : ∀ x, x / 4096 = virt / 4096 → x ∈ areasCover st.space.areas) :
    ClearOfBoot boot (KernelOp.exec st (.mapPage virt phys flags)) ∧
      ∀ x, translate boot st.space.pageTable.pml4Phy x ≠ none →
        translate (KernelOp.exec st (.mapPage virt phys flags)).machine.mem st.space.pageTable.pml4Phy x =
          translate st.machine.mem st.space.pageTable.pml4Phy x := by
  have hspace := h.space.step (show KernelStep st (.mapPage virt phys flags) _ from ⟨trivial, rfl⟩)
  have hcanon : Canonical virt := by
    obtain ⟨v, hv, hx⟩ := hin virt rfl
    exact .inl (hx.2.trans_le (h.low v hv))
  have hadds := pmapMapPage_addsPages kernelAllocators_lawful.toLawfulPages phys flags h.space.state hcanon
  refine ⟨h.addPages hspace hadds fun x hlo hhi => hin x (by omega), fun x hx => ?_⟩
  refine hadds.outside x fun hrange => hx (h.apart x (hin x ?_))
  omega

/-- Removing 4 KiB leaves and the areas over them keeps the areas clear. -/
theorem removePages (h : ClearOfBoot boot st) {areas : List VmArea} {machine : Machine (KernelMem Pmm)}
    {lo hi : ℕ} (hspace : KernelSpace ⟨{ st.space with areas := areas }, machine⟩)
    (hremoves : RemovesPages st.space.pageTable.pml4Phy lo hi st.machine.mem machine.mem)
    (hnone : ∀ x, lo ≤ x → x < hi → ∀ f, ¬ SmallLeaf machine.mem st.space.pageTable.pml4Phy x f)
    (hchain : AreasChain areas)
    (hsub : ∀ b ∈ areas, ∃ v ∈ st.space.areas, v.start ≤ b.start ∧ b.endAddr ≤ v.endAddr)
    (hcover : ∀ x ∈ areasCover st.space.areas, ¬ (lo ≤ x ∧ x < hi) → x ∈ areasCover areas) :
    ClearOfBoot boot ⟨{ st.space with areas := areas }, machine⟩ := by
  refine ⟨hspace, hchain, fun b hb => ?_, fun x hx => ?_, fun x hx hboot => ?_⟩
  · obtain ⟨v, hv, -, hend⟩ := hsub b hb
    exact hend.trans (h.low v hv)
  · obtain ⟨b, hb, hlo, hhi⟩ := hx
    obtain ⟨v, hv, hstart, hend⟩ := hsub b hb
    exact h.apart x ⟨v, hv, hstart.trans hlo, hhi.trans_le hend⟩
  · obtain ⟨hin, f, hf⟩ := h.within x (hremoves.kept hx ▸ hx) hboot
    have hleaf := (hremoves.smallLeaf_iff hx f).mpr hf
    exact ⟨hcover x hin fun hrange => hnone x hrange.1 hrange.2 f hleaf, f, hleaf⟩

/-- Unmapping keeps the areas clear, and what it unmaps in areas was not mapped at boot. -/
theorem unmap (h : ClearOfBoot boot st) {addr len : ℕ} (haddr : addr < wordSize)
    (hfit : addr / 4096 * 4096 + firmwareSize addr len < wordSize) (hspares : UnmapSpares st addr len)
    (htail : 0 < firmwareSize addr len →
      ¬ SplitFails kernelAllocators st (addr / 4096 * 4096) (firmwareSize addr len)) :
    ClearOfBoot boot (KernelOp.exec st (.unmap addr len)) ∧
      (KernelOp.unmap addr len).SparesMappings boot st := by
  have hspace := h.space.unmap haddr hspares
  have hsize : alignUp (addr - addr / 4096 * 4096 + len) pageSize = firmwareSize addr len := by
    rw [firmwareSize, show addr - addr / 4096 * 4096 = addr % 4096 by omega]
  have hdvd : 4096 ∣ firmwareSize addr len := dvd_alignUp_page _
  have hvirt : 4096 ∣ addr / 4096 * 4096 := Nat.dvd_mul_left _ _
  simp only [KernelOp.SparesMappings, KernelOp.exec, uacpiKernelUnmap, unmapFirmware, alignDown_page haddr,
    hsize] at hspace ⊢
  generalize firmwareSize addr len = size at hfit htail hdvd hspace ⊢
  generalize addr / 4096 * 4096 = virt at hfit htail hvirt hspace ⊢
  have hceil : pageCeil size = size := by
    simp only [pageCeil]
    omega
  rcases Nat.eq_zero_or_pos size with rfl | hpos
  · rw [vmMapFreeRegion, if_pos rfl]
    exact ⟨h, fun _ _ _ => rfl⟩
  have hhi : 4096 ∣ virt + size := Nat.dvd_add hvirt hdvd
  rw [vmMapFreeRegion_eq st.machine hpos (by rwa [hceil]), hceil] at hspace ⊢
  dsimp only at hspace ⊢
  rw [SplitFails, hceil] at htail
  -- the pages are unmapped first, then the areas are cut, then the pages are unmapped once more
  have hpages := unmapPages_removesPages (A := kernelAllocators) h.space.state.table.distinct hvirt hhi
    (by simp only [wordSize] at hfit ⊢; omega) (pagesBetween virt (virt + size))
  generalize unmapPages kernelAllocators st.space.pageTable.pml4Phy (virt + size)
    (pagesBetween virt (virt + size)) virt st.machine = s₁ at hpages htail hspace ⊢
  have hmem := @freeAreas_mem _ kernelAllocators virt (virt + size) st.space.areas s₁
  have hcover := (freeAreas_keepsFlags_iff (A := kernelAllocators) (s := s₁)
    (Nat.lt_add_of_pos_right hpos) (SpanChain.disjoint h.chain)).mpr (htail hpos)
  have hsub := fun {b} (hb : b ∈ (freeAreas kernelAllocators virt (virt + size) st.space.areas s₁).1) =>
    mem_freeAreas hb
  have hchain := AreasChain.freeAreas (A := kernelAllocators) h.chain s₁ (Nat.le_add_right virt size)
  generalize freeAreas kernelAllocators virt (virt + size) st.space.areas s₁ = r at hmem hcover hsub hchain hspace ⊢
  obtain ⟨hrest, hnone⟩ := unmapWithoutFree_removesPages (A := kernelAllocators) (s := r.2)
    (n := size / pageSize) (hmem ▸ hpages.distinct) hvirt hhi hvirt le_rfl
    (by simp only [pageSize]; omega) hfit
  rw [hmem] at hrest
  have hremoves := hpages.trans hrest
  refine ⟨h.removePages hspace hremoves hnone hchain (fun b hb => ?_) fun x hx hout => ?_,
    fun hin x hx => ?_⟩
  · obtain ⟨-, v, hv, hstart, hend, -⟩ := hsub hb
    exact ⟨v, hv, hstart, hend⟩
  · obtain ⟨v, hv, hx⟩ := hx
    obtain ⟨b, hb, -, hxb⟩ := hcover v.flags x hout ⟨v, hv, rfl, hx⟩
    exact ⟨b, hb, hxb⟩
  · -- a range of areas lies in the lower half
    have hlow : virt + size ≤ 2 ^ 47 := by
      obtain ⟨v, hv, hx⟩ := hin (show virt + size - 1 ∈ Set.Ico virt (virt + size) from
        ⟨by omega, by omega⟩)
      have hend := h.low v hv
      have hlast : virt + size - 1 < v.endAddr := hx.2
      omega
    refine hremoves.outside hlow x fun hrange => ?_
    rcases hx with hout | hboot
    · exact hout hrange
    · exact hboot (h.apart x (hin hrange))

/-- What the rest of the kernel does keeps the areas clear. -/
theorem other (h : ClearOfBoot boot st) {machine : Machine (KernelMem Pmm)}
    (hleaves : LeavesKernel st machine) : ClearOfBoot boot (KernelOp.exec st (.other machine)) := by
  have htables : WellFormedTable (tablesOf st.machine.mem st.space.pageTable.pml4Phy) st.machine.mem
      st.space.pageTable.pml4Phy :=
    ⟨h.space.state.table.distinct, h.space.state.table.openLink, fun p t hp ht => ⟨p, hp, ht⟩⟩
  have hwalks : ∀ x, walkEntries tableEntry machine.mem st.space.pageTable.pml4Phy (pathOf x) =
      walkEntries tableEntry st.machine.mem st.space.pageTable.pml4Phy (pathOf x) := fun x =>
    ((htables.congr hleaves.same hleaves.held).2 (pathOf x) (pathOf_length x).le).walkEntries_eq
  have hsame := fun x => translate_congr (hwalks x)
  have hadds : AddsPages st.space.pageTable.pml4Phy 0 0 st.machine.mem machine.mem :=
    ⟨fun x _ => hsame x, fun x f hf => ⟨f, by rwa [SmallLeaf, hwalks, hsame]⟩,
      fun x hnone hsome => absurd ((hsame x).trans hnone) hsome⟩
  exact h.addPages (h.space.other hleaves) hadds fun x _ hx => absurd hx (Nat.not_lt_zero x)

/-- The kernel's address space behind `init_pmap`. -/
theorem init {map : MemoryMap} {hhdm : ℕ} {s : Machine (KernelMem Pmm)} (hok : KernelOk s.alloc)
    (hinit : initPmap kernelAllocators hhdm map s = (some st.space, st.machine)) :
    ClearOfBoot st.machine.mem st := by
  have hareas := initPmap_areas hinit
  refine ⟨.init hok hinit, ?_, ?_, ?_, fun x hx hnone => absurd hnone hx⟩
  all_goals rw [hareas]
  · exact ⟨by simp, List.Pairwise.nil⟩
  · simp
  · rintro x ⟨v, hv, -⟩
    cases hv

/-- Every operation that keeps the areas clear spares what is mapped. -/
theorem step {op : KernelOp} (h : ClearOfBoot boot st) (hclear : op.KeepsClear boot st) :
    ClearOfBoot boot (op.exec st) ∧ op.SparesMappings boot st := by
  cases op with
  | allocate size flags => exact ⟨h.allocate flags hclear, h.returnsUnused flags hclear⟩
  | map addr len =>
    obtain ⟨haddr, hclear⟩ := hclear
    obtain ⟨hnext, hsame⟩ := h.map haddr hclear
    exact ⟨hnext, h.returnsUnused _ hclear, hsame⟩
  | unmap addr len => exact h.unmap hclear.1 hclear.2.1 hclear.2.2.1 hclear.2.2.2
  | fault faultAddress errorCode => exact hclear.elim
  | mapPage virt phys flags => exact h.mapPage phys flags hclear
  | mapRange virt phys flags remain => exact hclear.elim
  | other machine => exact ⟨h.other hclear, trivial⟩

end ClearOfBoot

end Flos.Mm
