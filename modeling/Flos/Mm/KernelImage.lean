import Flos.Mm.BootInvariants

/-!
# The sections of the kernel image

After the memory of the boot map, `init_pmap` maps the kernel image by four ranges between symbols of the
linker script. The symbol at the start of the last range, `_data_start`, lies behind the per-CPU data, so
the per-CPU data is reached only as far as it shares the page of that symbol.
-/

namespace Flos.Mm

open Flos.Lib

/-- `_kernel_start`. -/
@[irreducible] def kernelStart : ℕ := 0xffffffff80000000

/-- The image starts 2 GiB below the end of the address space. -/
theorem kernelStart_eq : kernelStart = 2 ^ 64 - 2 ^ 31 := by
  rw [kernelStart]
  rfl

/-- The sizes of the output sections. `.rodata` stands for both sections of its segment, and `.data` for
`.data` and `.bss` with the padding before them. -/
structure KernelLayout where
  limineRequests : ℕ
  text : ℕ
  rodata : ℕ
  percpu : ℕ
  data : ℕ

/-- Limits and flags of a call of `KSECT`. -/
structure KernelSection where
  lo : ℕ
  hi : ℕ
  flags : ℕ

namespace KernelLayout

variable (L : KernelLayout)

/-- `_text_start`. -/
@[irreducible] def textStart : ℕ := pageCeil (kernelStart + L.limineRequests)

/-- `_text_end`. -/
@[irreducible] def textEnd : ℕ := L.textStart + L.text

/-- `_rodata_start`. -/
@[irreducible] def rodataStart : ℕ := pageCeil L.textEnd

/-- `_rodata_end`. -/
@[irreducible] def rodataEnd : ℕ := L.rodataStart + L.rodata

/-- `_percpu_start`. -/
@[irreducible] def percpuStart : ℕ := pageCeil L.rodataEnd

/-- `_data_start`, which is also `_percpu_end`. -/
@[irreducible] def dataStart : ℕ := L.percpuStart + L.percpu

/-- `_kernel_end`. -/
@[irreducible] def kernelEnd : ℕ := L.dataStart + L.data

/-- The address belongs to `.text`. -/
def InText (va : ℕ) : Prop := L.textStart ≤ va ∧ va < L.textEnd

/-- The address belongs to a section. -/
def InSection (va : ℕ) : Prop :=
  kernelStart ≤ va ∧ va < kernelStart + L.limineRequests ∨ L.InText va ∨
    L.rodataStart ≤ va ∧ va < L.rodataEnd ∨ L.percpuStart ≤ va ∧ va < L.dataStart ∨
    L.dataStart ≤ va ∧ va < L.kernelEnd

/-- The calls of `KSECT`, in order. -/
def ksects : List KernelSection :=
  [⟨kernelStart, L.textStart, mmuFlagNoExec⟩, ⟨L.textStart, L.textEnd, 0⟩,
    ⟨L.rodataStart, L.rodataEnd, mmuFlagNoExec⟩,
    ⟨L.dataStart, L.kernelEnd, mmuFlagWrite ||| mmuFlagNoExec⟩]

end KernelLayout

section Mapping

variable {S : Type*} (A : KernelAlloc S)

/-- `KPHYS`, in 64-bit arithmetic. -/
def kphysOf (kphys virt : ℕ) : ℕ := (kphys + (virt + (wordSize - kernelStart))) % wordSize

/-- `KSECT`; `kphys` is `kernel.phys`. -/
def ksect (table kphys : ℕ) (sect : KernelSection) (s : Machine S) : ℕ × Machine S :=
  pmapMapRange A table sect.lo (kphysOf kphys sect.lo) sect.flags (sect.hi - sect.lo) s

/-- The end of `init_pmap`: the sections of the kernel image. -/
def mapKernelImage (table kphys : ℕ) (sects : List KernelSection) (s : Machine S) : Machine S :=
  sects.foldl (fun s sect => (ksect A table kphys sect s).2) s

end Mapping

/-- Every byte of a section is translated to its place in the image, `.text` without write permission and
the others without execute permission. -/
def ImageMapped {S : Type*} (L : KernelLayout) (kphys root : ℕ) (s : Machine S) : Prop :=
  ∀ va, L.InSection va → ∃ a, translate s.mem root va = some ⟨kphys + (va - kernelStart), a⟩ ∧
    (L.InText va → a.write = false) ∧ (¬ L.InText va → a.noExec = true)

namespace KernelSection

/-- The address lies in a page of the section. -/
def InPages (sect : KernelSection) (va : ℕ) : Prop :=
  sect.lo / 4096 * 4096 ≤ va ∧ va < pageCeil sect.hi

/-- The section lies in the image, and the image in physical memory. -/
structure Fits (sect : KernelSection) (kphys : ℕ) : Prop where
  start : kernelStart ≤ sect.lo
  ordered : sect.lo ≤ sect.hi
  virt : sect.hi < 2 ^ 64
  phys : kphys + (sect.hi - kernelStart) ≤ 2 ^ 52

end KernelSection

section Sections

variable {S : Type*} {A : KernelAlloc S} {Ok : S → Prop} {frames : S → Set ℕ} {root kphys : ℕ}
  {s : Machine S} (hA : A.LawfulPages Ok frames) (hkphys : 4096 ∣ kphys)

/-- Mapping a section extends the log. -/
theorem ksect_log (sect : KernelSection) : s.log <+: (ksect A root kphys sect s).2.log := by
  rw [ksect]
  exact (callInvariant_log A s.log).pmapMapRange root sect.lo (kphysOf kphys sect.lo) sect.flags
    (sect.hi - sect.lo) List.prefix_rfl

/-- Mapping sections extends the log. -/
theorem mapKernelImage_log (sects : List KernelSection) :
    s.log <+: (mapKernelImage A root kphys sects s).log := by
  induction sects generalizing s with
  | nil => exact List.prefix_rfl
  | cons sect rest ih =>
    rw [mapKernelImage, List.foldl_cons]
    exact (ksect_log sect).trans ih

/-- A section is a range of the upper half, and its place in the image is physical memory. -/
theorem KernelSection.Fits.range {sect : KernelSection} (hfits : sect.Fits kphys) :
    sect.lo < wordSize ∧ InOneHalf sect.lo (sect.hi - sect.lo) ∧
      sect.lo + (sect.hi - sect.lo) = sect.hi ∧
      (4096 ∣ kphys → (kphys + (sect.lo - kernelStart)) / 4096 * 4096 +
        (pageCeil (sect.lo + (sect.hi - sect.lo)) - sect.lo / 4096 * 4096) ≤ 2 ^ 52) ∧
      kphysOf kphys sect.lo = kphys + (sect.lo - kernelStart) := by
  obtain ⟨hstart, hordered, hvirt, hphys⟩ := hfits
  have hbase := kernelStart_eq
  refine ⟨?_, ?_, by omega, fun hkphys => ?_, ?_⟩
  · simp only [wordSize]
    omega
  · simp only [InOneHalf]
    omega
  · simp only [pageCeil]
    omega
  · simp only [kphysOf, wordSize]
    omega

include hA hkphys

/-- A section whose pages are not blocked is mapped whole. -/
theorem ksect_spec {sect : KernelSection} (hfits : sect.Fits kphys) (hsmall : sect.flags &&& mmuFlagHugeOk = 0)
    (hs : PtState Ok frames root s) (hfree : ∀ va, sect.InPages va → ¬ Blocked s.mem root va)
    (hsucc : ¬ Failed s (ksect A root kphys sect s).2) :
    PtState Ok frames root (ksect A root kphys sect s).2 ∧
      (∀ va, sect.InPages va → translate (ksect A root kphys sect s).2.mem root va =
        some ⟨kphys + (va - kernelStart), flagsAccess sect.flags⟩) ∧
      (∀ va, ¬ sect.InPages va →
        translate (ksect A root kphys sect s).2.mem root va = translate s.mem root va) ∧
      ∀ va, Blocked (ksect A root kphys sect s).2.mem root va ↔ Blocked s.mem root va := by
  obtain ⟨hlt, hhalf, hhi, htop, hmod⟩ := hfits.range
  obtain ⟨hstart, -, -, -⟩ := hfits
  have hbase := kernelStart_eq
  rw [ksect, hmod] at hsucc ⊢
  obtain ⟨hs', hover, hsame⟩ := pmapMapRange_free hA hlt hhalf (htop hkphys) hsmall hs
    (by rw [hhi]; exact fun x h1 h2 => hfree x ⟨h1, h2⟩) hsucc
  clear hmod
  rw [hhi] at hover
  have hpages : ∀ va, sect.lo / 4096 * 4096 ≤ va ∧
      va < sect.lo / 4096 * 4096 + (pageCeil sect.hi - sect.lo / 4096 * 4096) ↔ sect.InPages va := by
    intro va
    simp only [KernelSection.InPages, pageCeil]
    omega
  refine ⟨hs', fun va hva => ?_, fun va hva => ?_, hsame⟩
  · rw [hover va, if_pos ((hpages va).mpr hva)]
    obtain ⟨hlow, -⟩ := hva
    congr 2
    omega
  · rw [hover va, if_neg ((hpages va).not.mpr hva)]

/-- Sections with different pages that are not blocked are mapped whole, and nothing else is. -/
theorem mapKernelImage_spec {sects : List KernelSection} (hfits : ∀ sect ∈ sects, sect.Fits kphys)
    (hsmall : ∀ sect ∈ sects, sect.flags &&& mmuFlagHugeOk = 0)
    (hapart : sects.Pairwise fun a b => ∀ va, a.InPages va → ¬ b.InPages va)
    (hs : PtState Ok frames root s)
    (hfree : ∀ sect ∈ sects, ∀ va, sect.InPages va → ¬ Blocked s.mem root va)
    (hsucc : ¬ Failed s (mapKernelImage A root kphys sects s)) :
    (∀ sect ∈ sects, ∀ va, sect.InPages va →
      translate (mapKernelImage A root kphys sects s).mem root va =
        some ⟨kphys + (va - kernelStart), flagsAccess sect.flags⟩) ∧
      ∀ va, (∀ sect ∈ sects, ¬ sect.InPages va) →
        translate (mapKernelImage A root kphys sects s).mem root va = translate s.mem root va := by
  induction sects generalizing s with
  | nil => exact ⟨fun _ h => absurd h List.not_mem_nil, fun _ _ => rfl⟩
  | cons sect rest ih =>
    obtain ⟨hfirst, hrest⟩ := List.pairwise_cons.mp hapart
    rw [mapKernelImage, List.foldl_cons, ← mapKernelImage] at hsucc ⊢
    have hlog := @mapKernelImage_log _ A root kphys (ksect A root kphys sect s).2 rest
    have hlog' := @ksect_log _ A root kphys s sect
    obtain ⟨hs', hin, hout, hsame⟩ := ksect_spec hA hkphys (hfits _ List.mem_cons_self)
      (hsmall _ List.mem_cons_self) hs (hfree _ List.mem_cons_self)
      fun h => hsucc (h.extend List.prefix_rfl hlog)
    obtain ⟨ihin, ihout⟩ := ih (fun sect h => hfits sect (List.mem_cons_of_mem _ h))
      (fun sect h => hsmall sect (List.mem_cons_of_mem _ h)) hrest hs'
      (fun sect h va hva => (hsame va).not.mpr (hfree sect (List.mem_cons_of_mem _ h) va hva))
      fun h => hsucc (h.extend hlog' List.prefix_rfl)
    constructor
    · intro sect' hsect va hva
      rcases List.mem_cons.mp hsect with rfl | hsect
      · exact (ihout va fun b hb => hfirst b hb va hva).trans (hin va hva)
      · exact ihin sect' hsect va hva
    · intro va hva
      exact (ihout va fun b hb => hva b (List.mem_cons_of_mem _ hb)).trans
        (hout va (hva _ List.mem_cons_self))

end Sections

section Window

variable {S : Type*} {A : KernelAlloc S} {Ok : S → Prop} {frames : S → Set ℕ} {root : ℕ}
  {s : Machine S}

/-- Nothing from the start of the kernel image on is translated or blocked. -/
structure ImageFree (Ok : S → Prop) (frames : S → Set ℕ) (root : ℕ) (s : Machine S) : Prop where
  state : PtState Ok frames root s
  untranslated : ∀ va, kernelStart ≤ va → va < 2 ^ 64 → translate s.mem root va = none
  unblocked : ∀ va, kernelStart ≤ va → va < 2 ^ 64 → ¬ Blocked s.mem root va

/-- The boot mapping of an entry stays below the kernel image. -/
theorem ImageFree.mapEntry (hA : A.LawfulPages Ok frames) {off : ℕ} {e : MemoryMapEntry}
    (h : ImageFree Ok frames root s) (hoff : BootOffset off) (hend : e.base + e.length ≤ 2 ^ 46) :
    ImageFree Ok frames root (mapEntry A root off e s).2 := by
  have hhhdm : off ≤ hhdmOffset := by
    rcases hoff with rfl | rfl
    · exact Nat.zero_le _
    · exact le_rfl
  have houtside : ∀ va, kernelStart ≤ va → pageCeil (e.base + off + e.length) ≤ va := fun va hva => by
    simp only [kernelStart, hhdmOffset, pageCeil] at hva hhhdm ⊢
    omega
  obtain ⟨m, s', hrun, hm, hs', hover, hblocked⟩ := mapEntry_overlay hA h.state hoff hend
  rw [hrun]
  refine ⟨hs', fun va h1 h2 => ?_, fun va h1 h2 => ?_⟩
  · rw [hover va, if_neg fun hin => hin.2.not_ge (hm.trans (houtside va h1))]
    exact h.untranslated va h1 h2
  · have hcanon : Canonical va := by
      rw [kernelStart_eq] at h1
      exact .inr ⟨h1.trans' (by decide), h2⟩
    exact (hblocked va hcanon (.inr (houtside va h1))).not.mpr (h.unblocked va h1 h2)

/-- `init_pmap` leaves the place of the kernel image free. -/
theorem initPmap_imageFree {objects : CacheName → S → Set ℕ} (hA : A.Lawful Ok frames objects)
    {map : MemoryMap} {kernel : VmMap} {s' : Machine S} (hok : Ok s.alloc)
    (hlow : ∀ e ∈ map.entries, e.base + e.length ≤ 2 ^ 46)
    (hinit : initPmap A hhdmOffset map s = (some kernel, s')) :
    ImageFree Ok frames kernel.pageTable.pml4Phy s' := by
  refine initPmap_keeps hA hok hlow hinit (fun root s hs hempty => ?_)
    fun root off e s hoff hend h => h.mapEntry hA.toLawfulPages hoff hend
  refine ⟨hs, fun va _ _ => translate_of_empty hempty va, fun va _ _ => ?_⟩
  rw [Blocked, (missingTables_of_empty hempty _).2]
  decide

end Window

/-! ## The layout -/

namespace KernelLayout

variable (L : KernelLayout)

/-- The order of the symbols, and which of them are at the start of a page. -/
structure Ordered : Prop where
  requests : kernelStart + L.limineRequests ≤ L.textStart
  text : L.textStart ≤ L.textEnd
  textCeil : L.textEnd ≤ L.rodataStart
  rodata : L.rodataStart ≤ L.rodataEnd
  rodataCeil : L.rodataEnd ≤ L.percpuStart
  percpu : L.percpuStart ≤ L.dataStart
  data : L.dataStart ≤ L.kernelEnd
  textPage : 4096 ∣ L.textStart
  rodataPage : 4096 ∣ L.rodataStart
  percpuPage : 4096 ∣ L.percpuStart

/-- The linker script puts the symbols in this order. -/
theorem ordered : L.Ordered := by
  have hceil : ∀ x, x ≤ pageCeil x ∧ 4096 ∣ pageCeil x := fun x => by
    simp only [pageCeil]
    omega
  refine ⟨?_, ?_, ?_, ?_, ?_, ?_, ?_, ?_, ?_, ?_⟩
  · exact textStart.eq_def L ▸ (hceil _).1
  · exact textEnd.eq_def L ▸ Nat.le_add_right _ _
  · exact rodataStart.eq_def L ▸ (hceil _).1
  · exact rodataEnd.eq_def L ▸ Nat.le_add_right _ _
  · exact percpuStart.eq_def L ▸ (hceil _).1
  · exact dataStart.eq_def L ▸ Nat.le_add_right _ _
  · exact kernelEnd.eq_def L ▸ Nat.le_add_right _ _
  · exact textStart.eq_def L ▸ (hceil _).2
  · exact rodataStart.eq_def L ▸ (hceil _).2
  · exact percpuStart.eq_def L ▸ (hceil _).2

/-- The start of the image is the start of a page. -/
theorem kernelStart_page : 4096 ∣ kernelStart := by
  rw [kernelStart_eq]
  decide

/-- The sections lie in the image. -/
theorem ksects_fit {kphys : ℕ} (hend : L.kernelEnd < 2 ^ 64)
    (hphys : kphys + (L.kernelEnd - kernelStart) ≤ 2 ^ 52) : ∀ sect ∈ L.ksects, sect.Fits kphys := by
  have h := L.ordered
  obtain ⟨h1, h2, h3, h4, h5, h6, h7, -, -, -⟩ := h
  simp only [ksects, List.forall_mem_cons]
  refine ⟨⟨?_, ?_, ?_, ?_⟩, ⟨?_, ?_, ?_, ?_⟩, ⟨?_, ?_, ?_, ?_⟩, ⟨?_, ?_, ?_, ?_⟩, by simp⟩
  all_goals
    simp only
    omega

/-- The pages of the sections, by symbols. -/
theorem inPages_ksects {va : ℕ} :
    ((⟨kernelStart, L.textStart, mmuFlagNoExec⟩ : KernelSection).InPages va ↔
        kernelStart ≤ va ∧ va < L.textStart) ∧
      ((⟨L.textStart, L.textEnd, 0⟩ : KernelSection).InPages va ↔
        L.textStart ≤ va ∧ va < L.rodataStart) ∧
      ((⟨L.rodataStart, L.rodataEnd, mmuFlagNoExec⟩ : KernelSection).InPages va ↔
        L.rodataStart ≤ va ∧ va < L.percpuStart) ∧
      ((⟨L.dataStart, L.kernelEnd, mmuFlagWrite ||| mmuFlagNoExec⟩ : KernelSection).InPages va ↔
        L.dataStart / 4096 * 4096 ≤ va ∧ va < pageCeil L.kernelEnd) := by
  have h := L.ordered
  have hfloor : ∀ {x}, 4096 ∣ x → x / 4096 * 4096 = x := fun h => Nat.div_mul_cancel h
  have htext : pageCeil L.textStart = L.textStart := by
    have := h.textPage
    simp only [pageCeil]
    omega
  have hrodata : pageCeil L.textEnd = L.rodataStart := by rw [rodataStart]
  have hpercpu : pageCeil L.rodataEnd = L.percpuStart := by rw [percpuStart]
  simp only [KernelSection.InPages, hfloor kernelStart_page, hfloor h.textPage, hfloor h.rodataPage,
    htext, hrodata, hpercpu, and_self]

/-- No page belongs to two sections. -/
theorem ksects_apart : L.ksects.Pairwise fun a b => ∀ va, a.InPages va → ¬ b.InPages va := by
  obtain ⟨h1, h2, h3, h4, h5, h6, h7, -, -, hpage⟩ := L.ordered
  have hpages := fun va => @inPages_ksects L va
  simp only [ksects, List.pairwise_cons, List.forall_mem_cons, fun va => (hpages va).1,
    fun va => (hpages va).2.1, fun va => (hpages va).2.2.1, fun va => (hpages va).2.2.2]
  refine ⟨⟨?_, ?_, ?_, by simp⟩, ⟨?_, ?_, by simp⟩, ⟨?_, by simp⟩, by simp⟩
  all_goals
    intro va h
    omega

end KernelLayout

/-- Which parts of the image are mapped. -/
theorem mapKernelImage_imageMapped_iff {S : Type*} {A : KernelAlloc S} {Ok : S → Prop}
    {frames : S → Set ℕ} {root kphys : ℕ} {s : Machine S} (hA : A.LawfulPages Ok frames)
    (L : KernelLayout) (hkphys : 4096 ∣ kphys) (hend : L.kernelEnd < 2 ^ 64)
    (hphys : kphys + (L.kernelEnd - kernelStart) ≤ 2 ^ 52) (hfree : ImageFree Ok frames root s)
    (hsucc : ¬ Failed s (mapKernelImage A root kphys L.ksects s)) :
    ImageMapped L kphys root (mapKernelImage A root kphys L.ksects s) ↔ L.percpu < 4096 := by
  have hfits := L.ksects_fit hend hphys
  have hunblocked : ∀ sect ∈ L.ksects, ∀ va, sect.InPages va → ¬ Blocked s.mem root va := by
    intro sect hsect va hva
    obtain ⟨hstart, -, hvirt, -⟩ := hfits sect hsect
    obtain ⟨hlow, hhigh⟩ := hva
    have hpage := KernelLayout.kernelStart_page
    simp only [pageCeil] at hhigh
    exact hfree.unblocked va (by omega) (by omega)
  obtain ⟨hin, hout⟩ := mapKernelImage_spec hA hkphys hfits
    (by simp only [KernelLayout.ksects, List.forall_mem_cons]; decide) L.ksects_apart hfree.state
    hunblocked hsucc
  obtain ⟨h1, h2, h3, h4, h5, h6, h7, -, -, hpage⟩ := L.ordered
  have hpages := fun va => @KernelLayout.inPages_ksects L va
  have hsize : L.dataStart = L.percpuStart + L.percpu := by rw [KernelLayout.dataStart]
  generalize mapKernelImage A root kphys L.ksects s = s' at hin hout ⊢
  simp only [KernelLayout.ksects, List.forall_mem_cons, fun va => (hpages va).1,
    fun va => (hpages va).2.1, fun va => (hpages va).2.2.1, fun va => (hpages va).2.2.2] at hin hout
  obtain ⟨hrequests, htext, hrodata, hdata, -⟩ := hin
  constructor
  · intro himage
    by_contra hlarge
    -- the first byte of the per-CPU data
    obtain ⟨a, hmapped, -⟩ := himage L.percpuStart (.inr (.inr (.inr (.inl ⟨le_rfl, by omega⟩))))
    rw [hout _ ⟨by omega, by omega, by omega, by omega, by simp⟩,
      hfree.untranslated _ (by omega) (by omega)] at hmapped
    cases hmapped
  · intro hsmall va hva
    have hfloor : L.dataStart / 4096 * 4096 = L.percpuStart := by omega
    have hceil : L.kernelEnd ≤ pageCeil L.kernelEnd := by
      simp only [pageCeil]
      omega
    simp only [KernelLayout.InText]
    rcases hva with hva | hva | hva | hva | hva
    · exact ⟨_, hrequests va (by omega), fun h => by omega, fun _ => rfl⟩
    · exact ⟨_, htext va (by simp only [KernelLayout.InText] at hva; omega), fun _ => rfl,
        fun h => absurd hva h⟩
    · exact ⟨_, hrodata va (by omega), fun h => by omega, fun _ => rfl⟩
    · exact ⟨_, hdata va (by omega), fun h => by omega, fun _ => rfl⟩
    · exact ⟨_, hdata va (by omega), fun h => by omega, fun _ => rfl⟩

/-- When `init_pmap` maps the whole kernel image.

For a memory map below the direct map's end, any sizes of the sections, any page-aligned physical address
of the image and enough frames for tables, every byte of every section is mapped to its place with the
right permissions if and only if the per-CPU data is smaller than a page. -/
theorem initPmap_imageMapped_iff {S : Type*} {A : KernelAlloc S} {Ok : S → Prop} {frames : S → Set ℕ}
    {objects : CacheName → S → Set ℕ} (hA : A.Lawful Ok frames objects) {map : MemoryMap}
    {kernel : VmMap} {s s' : Machine S} {kphys : ℕ} (hok : Ok s.alloc)
    (hlow : ∀ e ∈ map.entries, e.base + e.length ≤ 2 ^ 46)
    (hinit : initPmap A hhdmOffset map s = (some kernel, s')) (L : KernelLayout)
    (hkphys : 4096 ∣ kphys) (hend : L.kernelEnd < 2 ^ 64)
    (hphys : kphys + (L.kernelEnd - kernelStart) ≤ 2 ^ 52)
    (hsucc : ¬ Failed s (mapKernelImage A kernel.pageTable.pml4Phy kphys L.ksects s')) :
    ImageMapped L kphys kernel.pageTable.pml4Phy
        (mapKernelImage A kernel.pageTable.pml4Phy kphys L.ksects s') ↔ L.percpu < 4096 := by
  have hlog : s.log <+: s'.log := (callInvariant_log A s.log).initPmap hinit List.prefix_rfl
  exact mapKernelImage_imageMapped_iff hA.toLawfulPages L hkphys hend hphys
    (initPmap_imageFree hA hok hlow hinit) fun h => hsucc (h.extend hlog List.prefix_rfl)

/-- A small image, with 64 bytes of per-CPU data. -/
def smallLayout : KernelLayout := ⟨0x100, 0x1234, 0x300, 0x40, 0x1800⟩

/-- On a map with sixteen USABLE frames the small image is mapped whole. -/
theorem initPmap_imageMapped_sixteenFrameMap :
    ∃ s₀ kernel s', initBitmapPmm sixteenFrameMap (fun _ => 0#8) = some s₀ ∧
      initPmap kernelAllocators hhdmOffset sixteenFrameMap (bootMachine s₀) = (some kernel, s') ∧
      ImageMapped smallLayout 0x200000 kernel.pageTable.pml4Phy
        (mapKernelImage kernelAllocators kernel.pageTable.pml4Phy 0x200000 smallLayout.ksects s') := by
  obtain ⟨s₀, hinit⟩ := initBitmapPmm_isSome sixteenFrameMap_bootable (fun _ => 0#8)
  have hconcrete : ((initBitmapPmm sixteenFrameMap (fun _ => 0#8)).bind fun pages =>
      let r := initPmap kernelAllocators hhdmOffset sixteenFrameMap (bootMachine pages)
      r.1.map fun kernel => decide (Failed (bootMachine pages) (mapKernelImage kernelAllocators
        kernel.pageTable.pml4Phy 0x200000 smallLayout.ksects r.2))) = some false := by
    decide +kernel
  rw [hinit, Option.bind_some] at hconcrete
  obtain ⟨kernel, hkernel, hsucc⟩ := Option.map_eq_some_iff.mp hconcrete
  exact ⟨s₀, kernel, _, hinit, Prod.ext hkernel rfl, (initPmap_imageMapped_iff kernelAllocators_lawful
    (bootMem_ok (Pmm.Ok.of_init sixteenFrameMap_bootable hinit)) (by decide) (Prod.ext hkernel rfl)
    smallLayout (by decide) (by decide +kernel) (by decide +kernel)
    (of_decide_eq_false hsucc)).mpr (by decide)⟩

/-- The same image with a page and a half of per-CPU data. -/
def percpuLayout : KernelLayout := { smallLayout with percpu := 0x1800 }

/-- The first page of the per-CPU data is not mapped. -/
theorem initPmap_missesPercpu :
    ∃ s₀ kernel s', initBitmapPmm sixteenFrameMap (fun _ => 0#8) = some s₀ ∧
      initPmap kernelAllocators hhdmOffset sixteenFrameMap (bootMachine s₀) = (some kernel, s') ∧
      ¬ Failed (bootMachine s₀)
        (mapKernelImage kernelAllocators kernel.pageTable.pml4Phy 0x200000 percpuLayout.ksects s') ∧
      percpuLayout.InSection percpuLayout.percpuStart ∧
      translate (mapKernelImage kernelAllocators kernel.pageTable.pml4Phy 0x200000 percpuLayout.ksects
        s').mem kernel.pageTable.pml4Phy percpuLayout.percpuStart = none ∧
      ¬ ImageMapped percpuLayout 0x200000 kernel.pageTable.pml4Phy
        (mapKernelImage kernelAllocators kernel.pageTable.pml4Phy 0x200000 percpuLayout.ksects s') := by
  obtain ⟨s₀, hinit⟩ := initBitmapPmm_isSome sixteenFrameMap_bootable (fun _ => 0#8)
  have hconcrete : ((initBitmapPmm sixteenFrameMap (fun _ => 0#8)).bind fun pages =>
      let r := initPmap kernelAllocators hhdmOffset sixteenFrameMap (bootMachine pages)
      r.1.map fun kernel =>
        let s := mapKernelImage kernelAllocators kernel.pageTable.pml4Phy 0x200000 percpuLayout.ksects r.2
        decide (¬ Failed (bootMachine pages) s ∧
          translate s.mem kernel.pageTable.pml4Phy percpuLayout.percpuStart = none)) = some true := by
    decide +kernel
  rw [hinit, Option.bind_some] at hconcrete
  obtain ⟨kernel, hkernel, hcheck⟩ := Option.map_eq_some_iff.mp hconcrete
  obtain ⟨hsucc, hnone⟩ := of_decide_eq_true hcheck
  have hpercpu : percpuLayout.InSection percpuLayout.percpuStart :=
    .inr (.inr (.inr (.inl (by decide +kernel))))
  refine ⟨s₀, kernel, _, hinit, Prod.ext hkernel rfl, hsucc, hpercpu, hnone, fun himage => ?_⟩
  obtain ⟨a, hsome, -⟩ := himage _ hpercpu
  rw [hnone] at hsome
  cases hsome

end Flos.Mm
