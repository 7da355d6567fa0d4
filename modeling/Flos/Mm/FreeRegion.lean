import Flos.Mm.UnmapPage
import Flos.Mm.VmMapSearch

/-!
# Freeing a region

`vm_map_free_region` subtracts a range from an address space: from the areas, cutting those that reach
over its ends, and from the page table, whose 4 KiB pages in the range are given back one by one. The
frames it gives back are those that the range translated to, in order.
-/

namespace Flos.Mm

open Flos.Lib

/-- The frames that the `n` pages from `va` on have in their 4 KiB leaves, less the null frame. -/
def framesOfPages (mem : ℕ → Fin 512 → ℕ) (root va n : ℕ) : List ℕ :=
  (List.range' va n 4096).filterMap fun x => (smallFrame mem root x).filter (· ≠ 0)

/-- The frame that a call gave back. -/
def MemEvent.freedFrame : MemEvent → Option ℕ
  | .freeFrame f => some f
  | _ => none

/-- The frames given back between two states, in order. -/
def framesFreed {S : Type*} (s s' : Machine S) : List ℕ :=
  (s'.log.drop s.log.length).filterMap MemEvent.freedFrame

section Loop

variable {S : Type*} (A : KernelAlloc S) {root : ℕ}

/-- What the unmapping loop does to the pages from `va` below `endAddr`. -/
structure UnmapsPages (root va endAddr : ℕ) (s s' : Machine S) : Prop where
  translate : ∀ x, (va ≤ x ∧ x < endAddr → ¬ ∃ f, SmallLeaf s.mem root x f) →
    translate s'.mem root x = translate s.mem root x
  leaves : ∀ x f, SmallLeaf s'.mem root x f ↔ ¬ (va ≤ x ∧ x < endAddr) ∧ SmallLeaf s.mem root x f
  log : s'.log = s.log ++ (framesOfPages s.mem root va (pagesBetween va endAddr)).map .freeFrame
  clean : CleanTable s'.mem root

/-- Nothing is unmapped from an empty range. -/
theorem UnmapsPages.refl {va endAddr : ℕ} {s : Machine S} (hclean : CleanTable s.mem root)
    (h : endAddr ≤ va) : UnmapsPages root va endAddr s s := by
  have hzero : pagesBetween va endAddr = 0 := by
    simp only [pagesBetween]
    omega
  refine ⟨fun _ _ => rfl, fun x f => (and_iff_right ?_).symm, ?_, hclean⟩
  · omega
  · rw [hzero]
    simp [framesOfPages]

/-- The 4 KiB leaves decide the frames that are given back. -/
theorem framesOfPages_congr {mem mem' : ℕ → Fin 512 → ℕ} {va n : ℕ}
    (h : ∀ x ∈ List.range' va n 4096, smallFrame mem' root x = smallFrame mem root x) :
    framesOfPages mem' root va n = framesOfPages mem root va n :=
  List.filterMap_congr fun x hx => by rw [h x hx]

/-- The frames of the first page and of the rest. -/
theorem framesOfPages_succ (mem : ℕ → Fin 512 → ℕ) (root va n : ℕ) :
    framesOfPages mem root va (n + 1) =
      ((smallFrame mem root va).filter (· ≠ 0)).toList ++ framesOfPages mem root (va + 4096) n := by
  rw [framesOfPages, List.range'_succ, List.filterMap_cons]
  cases (smallFrame mem root va).filter (· ≠ 0) <;> rfl

/-- What unmapping one page and giving back its frame does. -/
theorem UnmapsPage.release {va : ℕ} {s : Machine S} {r : ℕ × Machine S} (h : UnmapsPage root va s r)
    (hva : Canonical va) :
    (if r.1 ≠ 0 then r.2.freePage A r.1 else r.2).mem = r.2.mem ∧
      (if r.1 ≠ 0 then r.2.freePage A r.1 else r.2).log =
        s.log ++ ((smallFrame s.mem root va).filter (· ≠ 0)).toList.map .freeFrame := by
  refine ⟨freePage_ite_mem _ _, ?_⟩
  cases hframe : smallFrame s.mem root va with
  | none =>
    have hmissing : ¬ ∃ frame, SmallLeaf s.mem root va frame := by
      rintro ⟨frame, hleaf⟩
      rw [smallLeaf_iff_smallFrame hva, hframe] at hleaf
      cases hleaf
    rw [(h.missing hmissing).1, if_neg (not_not.mpr rfl), h.log]
    simp
  | some frame =>
    rw [(h.found frame ((smallLeaf_iff_smallFrame hva).mpr hframe)).1]
    by_cases hzero : frame = 0
    · rw [if_neg (not_not.mpr hzero), h.log]
      simp [hzero]
    · rw [if_pos hzero, Machine.freePage, h.log]
      simp [Option.filter, hzero]

/-- The unmapping loop removes the 4 KiB pages of its range and gives back their frames. -/
theorem unmapPages_unmapsPages {va endAddr fuel : ℕ} {s : Machine S} (hclean : CleanTable s.mem root)
    (hva : 4096 ∣ va) (hdvd : 4096 ∣ endAddr) (hend : endAddr ≤ 2 ^ 47)
    (hfuel : pagesBetween va endAddr ≤ fuel) :
    UnmapsPages root va endAddr s (unmapPages A root endAddr fuel va s) := by
  induction fuel generalizing va s with
  | zero =>
    refine .refl hclean ?_
    simp only [pagesBetween] at hfuel
    omega
  | succ fuel ih =>
    rw [unmapPages]
    by_cases hlt : va < endAddr
    · rw [if_pos hlt, Nat.mod_eq_of_lt (by simp only [wordSize]; omega)]
      have hcanon : Canonical va := .inl (hlt.trans_le hend)
      have hpage := pmapUnmapPage_unmapsPage A hclean hcanon
      obtain ⟨hmem, hlog⟩ := hpage.release A hcanon
      have hcount : pagesBetween va endAddr = pagesBetween (va + 0x1000) endAddr + 1 := by
        simp only [pagesBetween]
        omega
      dsimp only
      generalize (if (pmapUnmapPage A root va s).1 ≠ 0 then
        (pmapUnmapPage A root va s).2.freePage A (pmapUnmapPage A root va s).1
        else (pmapUnmapPage A root va s).2) = s₁ at hmem hlog ⊢
      have hrest := @ih (va + 0x1000) s₁ (by rw [hmem]; exact hpage.clean) (by omega) (by omega)
      refine ⟨fun x hx => ?_, fun x f => ?_, ?_, hrest.clean⟩
      · rw [hrest.translate x fun hin => ?_, hmem]
        · by_cases hleaf : ∃ f, SmallLeaf s.mem root va f
          · obtain ⟨f, hleaf⟩ := hleaf
            rw [(hpage.found f hleaf).2 x, if_neg]
            intro hsame
            exact hx (by omega) ⟨f, hleaf.of_page hsame⟩
          · exact (hpage.missing hleaf).2 x
        · rintro ⟨f, hleaf⟩
          rw [hmem, hpage.leaves] at hleaf
          exact hx (by omega) ⟨f, hleaf.2⟩
      · rw [hrest.leaves, hmem, hpage.leaves, ← and_assoc]
        refine and_congr_left fun _ => ?_
        omega
      · have hframes : framesOfPages s₁.mem root (va + 0x1000) (pagesBetween (va + 0x1000) endAddr) =
            framesOfPages s.mem root (va + 0x1000) (pagesBetween (va + 0x1000) endAddr) := by
          refine framesOfPages_congr fun x hx => Option.ext fun f => ?_
          obtain ⟨k, hk, rfl⟩ := List.mem_range'.mp hx
          have hin : va + 0x1000 + 4096 * k < endAddr := by
            simp only [pagesBetween] at hk
            omega
          have hx : Canonical (va + 0x1000 + 4096 * k) := .inl (hin.trans_le hend)
          rw [← smallLeaf_iff_smallFrame hx, ← smallLeaf_iff_smallFrame hx, hmem, hpage.leaves]
          exact and_iff_right (by omega)
        rw [hrest.log, hframes, hlog, hcount, framesOfPages_succ, List.map_append, List.append_assoc]
    · rw [if_neg hlt]
      exact .refl hclean (not_lt.mp hlt)

/-! ## The areas -/

/-- The area loop gives back no frame. -/
theorem freeAreas_framesFreed (start endAddr : ℕ) (areas : List VmArea) (s : Machine S) :
    ∃ calls, (freeAreas A start endAddr areas s).2.log = s.log ++ calls ∧
      calls.filterMap MemEvent.freedFrame = [] := by
  induction areas generalizing s with
  | nil => exact ⟨[], (List.append_nil _).symm, rfl⟩
  | cons vma rest ih =>
    obtain ⟨pieces, s', hstep, heq⟩ := freeAreas_cons A start endAddr vma rest s
    obtain ⟨calls, hlog, hnone⟩ := ih s'
    have hfirst : ∃ calls, s'.log = s.log ++ calls ∧ calls.filterMap MemEvent.freedFrame = [] := by
      cases hstep
      case skip => exact ⟨[], (List.append_nil _).symm, rfl⟩
      case drop => exact ⟨_, rfl, rfl⟩
      case split => exact ⟨_, rfl, rfl⟩
      case truncate => exact ⟨_, rfl, rfl⟩
      case trimEnd => exact ⟨[], (List.append_nil _).symm, rfl⟩
      case trimStart => exact ⟨[], (List.append_nil _).symm, rfl⟩
    obtain ⟨first, hfirst, hnone'⟩ := hfirst
    refine ⟨first ++ calls, ?_, ?_⟩
    · rw [heq, hlog, hfirst, List.append_assoc]
    · rw [List.filterMap_append, hnone, hnone', List.append_nil]

/-- Areas that lie outside the region are skipped. -/
theorem freeAreas_of_outside {start endAddr : ℕ} {areas : List VmArea} (s : Machine S)
    (h : ∀ v ∈ areas, v.endAddr ≤ start ∨ endAddr ≤ v.start) :
    freeAreas A start endAddr areas s = (areas, s) := by
  induction areas with
  | nil => rfl
  | cons v rest ih =>
    rw [freeAreas, if_pos (h v List.mem_cons_self), ih fun w hw => h w (List.mem_cons_of_mem v hw)]

/-- Freeing the range of an inserted area takes it out again. -/
theorem freeAreas_inserted {areas areas' : List VmArea} {new : VmArea} (hins : Inserted areas areas' new)
    (hnew : new.start < new.endAddr)
    (hout : ∀ v ∈ areas, v.endAddr ≤ new.start ∨ new.endAddr ≤ v.start) (s : Machine S) :
    (freeAreas A new.start new.endAddr areas' s).1 = areas := by
  obtain ⟨before, after, rfl, rfl⟩ := hins
  induction before with
  | nil =>
    have hafter : ∀ v ∈ after, v.endAddr ≤ new.start ∨ new.endAddr ≤ v.start := hout
    rw [List.nil_append, freeAreas, if_neg (by omega), if_pos ⟨le_rfl, le_rfl⟩,
      freeAreas_of_outside A _ hafter]
    rfl
  | cons v before ih =>
    rw [List.cons_append, freeAreas, if_pos (hout v List.mem_cons_self)]
    exact congrArg (List.cons v) (ih fun w hw => hout w (List.mem_cons_of_mem v hw))

/-- An area of the list with these flags lies over the address. -/
def FlaggedAt (areas : List VmArea) (flags x : ℕ) : Prop :=
  ∃ v ∈ areas, v.flags = flags ∧ v.start ≤ x ∧ x < v.endAddr

/-- The area loop subtracts the region from the areas. -/
theorem flaggedAt_freeAreas {start endAddr : ℕ} {areas : List VmArea} {s : Machine S}
    (hsucc : ¬ Failed s (freeAreas A start endAddr areas s).2)
    (flags x : ℕ) :
    FlaggedAt (freeAreas A start endAddr areas s).1 flags x ↔
      FlaggedAt areas flags x ∧ ¬ (start ≤ x ∧ x < endAddr) := by
  constructor
  · rintro ⟨b, hb, hflags, hin⟩
    obtain ⟨hout, v, hv, hlo, hhi, hsame⟩ := mem_freeAreas hb
    exact ⟨⟨v, hv, hsame.symm.trans hflags, by omega⟩, by omega⟩
  · rintro ⟨⟨v, hv, hflags, hin⟩, hout⟩
    obtain ⟨b, hb, hsame, hin'⟩ := freeAreas_covers hsucc hv hin (by omega)
    exact ⟨b, hb, hsame.trans hflags, hin'⟩

end Loop

/-! ## The call -/

section Call

variable {S : Type*} (A : KernelAlloc S) {space : VmMap} {start size : ℕ} {s : Machine S}

/-- Where `vm_map_allocate` succeeds, it inserts an area that meets no other. -/
theorem vmMapAllocate_inserted {flags : ℕ} (hsize : 0 < size)
    (hfit : start + pageCeil size < wordSize) (hstart : start ≠ 0)
    (hresult : (vmMapAllocate A space size flags s).1 = start) :
    (∀ v ∈ space.areas, v.endAddr ≤ start ∨ start + pageCeil size ≤ v.start) ∧
      (vmMapAllocate A space size flags s).2.1.pageTable = space.pageTable ∧
      Inserted space.areas (vmMapAllocate A space size flags s).2.1.areas
        ⟨(s.cacheAlloc A .vmAreaCache).1, start, start + pageCeil size, flags⟩ := by
  rw [vmMapAllocate_eq flags s hsize (by omega)] at hresult ⊢
  dsimp only at hresult ⊢
  generalize findCandidate (pageCeil size) space.areas vmAllocBase = candidate at hresult ⊢
  by_cases hzero : (vmMapAllocateRegion A space candidate (pageCeil size) flags s).1 = 0
  · rw [if_pos hzero] at hresult
    exact absurd hresult.symm hstart
  rw [if_neg hzero] at hresult ⊢
  obtain rfl : candidate = start := hresult
  have hcases := vmMapAllocateRegion_cases A space flags s
    (show candidate + pageCeil (pageCeil size) < wordSize by rwa [pageCeil_pageCeil])
  rw [pageCeil_pageCeil] at hcases
  rcases hcases with ⟨-, hr⟩ | ⟨-, hr⟩ | ⟨-, hout, hr⟩
  · exact absurd (by rw [hr]) hzero
  · exact absurd (by rw [hr]) hzero
  · rw [hr]
    exact ⟨hout, rfl, inserted_insertVma space.areas _⟩

/-- Freeing a region is set subtraction. For any list of areas, a clean page table, and a page-aligned
region of the lower half: if no node allocation fails, an address lies in an area afterwards, with the
same flags, exactly when it did before and is outside of the region; no address of the region has a 4 KiB
translation; the frames given back are the non-zero ones that these pages named, each once for its page;
and no other address changes its translation. Freeing what `vm_map_allocate` has just returned restores
the list of areas. -/
theorem vmMapFreeRegion_subtracts (hclean : CleanTable s.mem space.pageTable.pml4Phy) (hsize : 0 < size)
    (hstart : 4096 ∣ start) (hend : start + pageCeil size ≤ 2 ^ 47) :
    (¬ Failed s (vmMapFreeRegion A space start size s).2 → ∀ flags x,
      FlaggedAt (vmMapFreeRegion A space start size s).1.areas flags x ↔
        FlaggedAt space.areas flags x ∧ ¬ (start ≤ x ∧ x < start + pageCeil size)) ∧
    (∀ x, start ≤ x → x < start + pageCeil size →
      ¬ ∃ f, SmallLeaf (vmMapFreeRegion A space start size s).2.mem space.pageTable.pml4Phy x f) ∧
    framesFreed s (vmMapFreeRegion A space start size s).2 =
      framesOfPages s.mem space.pageTable.pml4Phy start (pageCeil size / 4096) ∧
    (∀ x, ¬ (start ≤ x ∧ x < start + pageCeil size) →
      translate (vmMapFreeRegion A space start size s).2.mem space.pageTable.pml4Phy x =
        translate s.mem space.pageTable.pml4Phy x) ∧
    ∀ flags, start ≠ 0 → (vmMapAllocate A space size flags s).1 = start →
      (vmMapFreeRegion A (vmMapAllocate A space size flags s).2.1 start size
        (vmMapAllocate A space size flags s).2.2).1.areas = space.areas := by
  have hfit : start + pageCeil size < wordSize := hend.trans_lt (by decide)
  have hpos := pageCeil_pos hsize
  have hdvd : 4096 ∣ start + pageCeil size := Nat.dvd_add hstart (Nat.dvd_mul_left _ _)
  have hcount : pagesBetween start (start + pageCeil size) = pageCeil size / 4096 := by
    simp only [pagesBetween, pageCeil]
    omega
  have hpages := unmapPages_unmapsPages A hclean hstart hdvd hend le_rfl
  obtain ⟨calls, hcalls, hnone⟩ := freeAreas_framesFreed A start (start + pageCeil size) space.areas
    (unmapPages A space.pageTable.pml4Phy (start + pageCeil size)
      (pagesBetween start (start + pageCeil size)) start s)
  rw [vmMapFreeRegion_eq s hsize hfit]
  dsimp only
  rw [freeAreas_mem]
  refine ⟨fun hsucc flags x => ?_, fun x hlo hhi => ?_, ?_, fun x hout => ?_, ?_⟩
  · refine flaggedAt_freeAreas A (fun hfail => hsucc ?_) flags x
    exact hfail.extend (hpages.log ▸ List.prefix_append _ _) List.prefix_rfl
  · rintro ⟨f, hleaf⟩
    exact ((hpages.leaves x f).mp hleaf).1 ⟨hlo, hhi⟩
  · rw [framesFreed, hcalls, hpages.log, List.append_assoc, List.drop_left, List.filterMap_append,
      hnone, List.append_nil, hcount, List.filterMap_map]
    exact List.filterMap_some
  · exact hpages.translate x fun hin => absurd hin hout
  · intro flags hne hresult
    obtain ⟨hout, -, hins⟩ := vmMapAllocate_inserted A hsize hfit hne hresult
    rw [vmMapFreeRegion_eq _ hsize hfit]
    exact freeAreas_inserted A hins (Nat.lt_add_of_pos_right hpos) hout _

end Call

/-- `pmap_map_page` for several pages. -/
def mapPages {S : Type*} (A : KernelAlloc S) (root : ℕ) (pages : List (ℕ × ℕ)) (s : Machine S) : Machine S :=
  pages.foldl (fun s page => (pmapMapPage A root page.1 page.2 7 s).2) s

/-- Mapping whole pages of the lower half keeps the page table clean. -/
theorem CleanTable.mapPages {S : Type*} {A : KernelAlloc S} {Ok : S → Prop} {frames : S → Set ℕ} {root : ℕ}
    (hA : A.LawfulPages Ok frames) {pages : List (ℕ × ℕ)} {s : Machine S} (hs : PtState Ok frames root s)
    (h : CleanTable s.mem root)
    (hpages : ∀ page ∈ pages, page.1 + 4096 ≤ 2 ^ 47 ∧ page.2 < 2 ^ 52) :
    CleanTable (mapPages A root pages s).mem root := by
  induction pages generalizing s with
  | nil => exact h
  | cons page rest ih =>
    obtain ⟨hvirt, hphys⟩ := hpages page List.mem_cons_self
    have hdown : ∀ addr < 2 ^ 52, 4096 ∣ alignDown addr pageSize ∧ alignDown addr pageSize ≤ addr := by
      intro addr haddr
      rw [alignDown_page (by simp only [wordSize]; omega)]
      exact ⟨Nat.dvd_mul_left _ _, Nat.div_mul_le_self _ _⟩
    obtain ⟨hvirtPage, hvirtLe⟩ := hdown page.1 (by omega)
    obtain ⟨hphysPage, hphysLe⟩ := hdown page.2 hphys
    have hmap := map_spec hA 7 hs hvirtPage hphysPage (by omega) (.inl (by omega))
    exact ih hmap.1 (h.pmapMapPage hA hs page.1 page.2 7) fun p hp => hpages p (List.mem_cons_of_mem page hp)

/-- A new address space with three adjacent areas and four mapped pages, one page in the first area and
the next ones around and behind the second. -/
def threeAreasMapped (pages : Pmm) : Option (VmMap × Machine (KernelMem Pmm)) :=
  let r := vmMapCreate kernelAllocators none (bootMachine pages)
  r.1.map fun space =>
    allocateRegions kernelAllocators [(0x1000, 0x2000), (0x3000, 0x1000), (0x4000, 0x2000)] space
      (mapPages kernelAllocators space.pageTable.pml4Phy
        [(0x1000, 0xc000), (0x2000, 0xd000), (0x4000, 0xe000), (0x5000, 0xf000)] r.2)

/-- Its page table is clean. -/
theorem threeAreasMapped_clean {pages : Pmm} (hpages : pages.Ok) {space : VmMap}
    {s : Machine (KernelMem Pmm)} (h : threeAreasMapped pages = some (space, s)) :
    CleanTable s.mem space.pageTable.pml4Phy := by
  obtain ⟨space₀, hcreate, heq⟩ := Option.map_eq_some_iff.mp h
  have hnew : vmMapCreate kernelAllocators none (bootMachine pages) =
      (some space₀, (vmMapCreate kernelAllocators none (bootMachine pages)).2) := by rw [← hcreate]
  obtain ⟨hs, hclean⟩ :=
    vmMapCreate_none_clean kernelAllocators_lawful (show (bootMachine pages).alloc.Ok _ _ _ from bootMem_ok hpages) hnew
  have hmapped := hclean.mapPages kernelAllocators_lawful.toLawfulPages hs
    (show ∀ page ∈ [(0x1000, 0xc000), (0x2000, 0xd000), (0x4000, 0xe000), (0x5000, 0xf000)],
      page.1 + 4096 ≤ 2 ^ 47 ∧ page.2 < 2 ^ 52 by decide)
  obtain ⟨hmem, htable⟩ := allocateRegions_frame kernelAllocators
    [(0x1000, 0x2000), (0x3000, 0x1000), (0x4000, 0x2000)] space₀
    (mapPages kernelAllocators space₀.pageTable.pml4Phy
      [(0x1000, 0xc000), (0x2000, 0xd000), (0x4000, 0xe000), (0x5000, 0xf000)]
      (vmMapCreate kernelAllocators none (bootMachine pages)).2)
  rw [heq] at hmem htable
  rw [htable, hmem]
  exact hmapped

/-- On a map with sixteen USABLE frames: freeing the three pages in the middle cuts the first area at its
end and the third one at its start, drops the second, and gives back the two frames mapped there. -/
theorem vmMapFreeRegion_subtracts_sixteenFrameMap :
    ∃ s₀ space s, initBitmapPmm sixteenFrameMap (fun _ => 0#8) = some s₀ ∧
      threeAreasMapped s₀ = some (space, s) ∧
      space.areas.map (fun v => (v.start, v.endAddr)) =
        [(0x1000, 0x3000), (0x3000, 0x4000), (0x4000, 0x6000)] ∧
      framesFreed s (vmMapFreeRegion kernelAllocators space 0x2000 0x2001 s).2 = [0xd000, 0xe000] ∧
      ∀ flags x, FlaggedAt (vmMapFreeRegion kernelAllocators space 0x2000 0x2001 s).1.areas flags x ↔
        FlaggedAt space.areas flags x ∧ ¬ (0x2000 ≤ x ∧ x < 0x5000) := by
  obtain ⟨s₀, hinit⟩ := initBitmapPmm_isSome sixteenFrameMap_bootable (fun _ => 0#8)
  have hconcrete : ((initBitmapPmm sixteenFrameMap (fun _ => 0#8)).bind fun pages =>
      (threeAreasMapped pages).map fun (r : VmMap × Machine (KernelMem Pmm)) =>
        let s := (vmMapFreeRegion kernelAllocators r.1 0x2000 0x2001 r.2).2
        (r.1.areas.map fun v => (v.start, v.endAddr),
          framesOfPages r.2.mem r.1.pageTable.pml4Phy 0x2000 (pageCeil 0x2001 / 4096),
          decide (∀ e ∈ s.log.drop r.2.log.length, e.Succeeds))) =
      some ([(0x1000, 0x3000), (0x3000, 0x4000), (0x4000, 0x6000)], [0xd000, 0xe000], true) := by
    decide +kernel
  rw [hinit, Option.bind_some] at hconcrete
  obtain ⟨⟨space, s⟩, hs, hconcrete⟩ := Option.map_eq_some_iff.mp hconcrete
  obtain ⟨hspans, hconcrete⟩ := Prod.mk.inj hconcrete
  obtain ⟨hframes, hsucc⟩ := Prod.mk.inj hconcrete
  obtain ⟨hareas, -, hfreed, -, -⟩ := vmMapFreeRegion_subtracts kernelAllocators
    (threeAreasMapped_clean (Pmm.Ok.of_init sixteenFrameMap_bootable hinit) hs)
    (show 0 < 0x2001 by decide) (show 4096 ∣ 0x2000 by decide) (by decide)
  refine ⟨s₀, space, s, hinit, hs, hspans, hfreed.trans hframes, hareas ?_⟩
  rintro ⟨e, he, hfail⟩
  exact hfail (of_decide_eq_true hsucc e he)

end Flos.Mm
