import Flos.Mm.SpaceOps

/-!
# The set-up of a user image

`ktask_execve` gives the current task a new address space. The two code pages of the entry function
are frames of the kernel image, entered in the page table like any other page; the two stack pages
come from the frame manager, whose result is not looked at. The nodes of the two areas come from
the kernel heap. The set-up is followed up to the switch to user mode.
-/

namespace Flos.Mm

open Flos.Lib

/-- `kernel_addr_t`: where the kernel image is loaded. -/
structure KernelAddr where
  phys : ℕ
  virt : ℕ
  deriving DecidableEq, Repr

/-- `kernel_virt_to_phys`; `k` is the result of `boot_get_executable_addr`. -/
def kernelVirtToPhys (k : KernelAddr) (address : ℕ) : ℕ :=
  (k.phys + (address + wordSize - k.virt) % wordSize) % wordSize

/-- The allocators of the address-space code and `kmalloc`. -/
structure HeapAlloc (S : Type*) extends KernelAlloc S where
  kmalloc : ℕ → S → ℕ × S

variable {S : Type*}

/-- `kmalloc`. -/
def Machine.kmalloc (A : HeapAlloc S) (size : ℕ) (s : Machine S) : ℕ × Machine S :=
  let r := A.kmalloc size s.alloc
  (r.1, { s with alloc := r.2 })

/-- `UTASK_ENTRY`. -/
abbrev utaskEntry : ℕ := 0x1000

/-- `UTASK_STACK_BOTTOM`. -/
abbrev utaskStackBottom : ℕ := 0x3000

/-- `sizeof(vm_area_t)`. -/
abbrev vmAreaSize : ℕ := 48

section Execve

variable (A : KernelAlloc S)

/-- One iteration of the stack loop of `ktask_execve`: the frame is neither checked nor cleared. -/
def mapStackPage (table va : ℕ) (s : Machine S) : Machine S :=
  let r := s.allocPage A
  (pmapMapPage A table va (alignDown r.1 pageSize) (mmuFlagUser ||| mmuFlagWrite ||| mmuFlagPresent)
    r.2).2

/-- The pages that `ktask_execve` maps: two code pages at the physical address of the entry
function, then two stack pages. -/
def mapUserPages (table fnPhys : ℕ) (s : Machine S) : Machine S :=
  let s := (pmapMapPage A table utaskEntry (alignDown fnPhys pageSize)
    (mmuFlagUser ||| mmuFlagPresent) s).2
  let s := (pmapMapPage A table (utaskEntry + pageSize)
    (alignDown ((fnPhys + pageSize) % wordSize) pageSize) (mmuFlagUser ||| mmuFlagPresent) s).2
  let s := mapStackPage A table utaskStackBottom s
  mapStackPage A table (utaskStackBottom + pageSize) s

end Execve

/-- `ktask_execve` on an entry function, up to the switch of the page table: the address space of the
task, or `none` where the code would follow a null pointer. -/
def ktaskExecve (A : HeapAlloc S) (kernel : Option PageTable) (k : KernelAddr) (fn : ℕ)
    (s : Machine S) : Option (VmMap × Machine S) :=
  match vmMapCreate A.toKernelAlloc kernel s with
  | (none, _) => none
  | (some space, s) =>
    let s := mapUserPages A.toKernelAlloc space.pageTable.pml4Phy (kernelVirtToPhys k fn) s
    let code := s.kmalloc A vmAreaSize
    let stack := code.2.kmalloc A vmAreaSize
    if code.1 = 0 ∨ stack.1 = 0 then none
    else
      some ({ space with areas := mapUserVmAreaCodeAndStack code.1 stack.1 space.areas }, stack.2)

/-- The frames of the kernel image that hold the code of the entry function. -/
def codeFrames (k : KernelAddr) (fn : ℕ) : Set ℕ :=
  {alignDown (kernelVirtToPhys k fn) pageSize,
    alignDown ((kernelVirtToPhys k fn + pageSize) % wordSize) pageSize}

/-- The frames of the code at a physical address, in the order in which `ktask_execve` maps them. -/
def codePages (fnPhys : ℕ) : List ℕ :=
  [alignDown fnPhys pageSize, alignDown ((fnPhys + pageSize) % wordSize) pageSize]

/-- They are the frames of the code. -/
theorem mem_codePages {k : KernelAddr} {fn f : ℕ} :
    f ∈ codePages (kernelVirtToPhys k fn) ↔ f ∈ codeFrames k fn := by
  rw [codePages, List.mem_cons, List.mem_singleton]
  rfl

/-- They are two frames of physical memory. -/
theorem codePages_spec {fnPhys : ℕ} (hphys : fnPhys + pageSize < 2 ^ 52) :
    (codePages fnPhys).Nodup ∧ ∀ f ∈ codePages fnPhys, 4096 ∣ f ∧ f < 2 ^ 52 := by
  have hround : ∀ pa, pa < 2 ^ 52 → alignDown pa pageSize = pa / 4096 * 4096 := fun pa hpa =>
    alignDown_page (hpa.trans (by decide))
  rw [codePages, Nat.mod_eq_of_lt (hphys.trans (by decide)), hround _ (by omega), hround _ hphys]
  simp only [List.nodup_cons, List.mem_cons, List.not_mem_nil, or_false, List.nodup_nil,
    not_false_eq_true, and_true, forall_eq_or_imp, forall_eq]
  simp only [pageSize] at hphys ⊢
  omega

/-- Those of some frames that are not borrowed. -/
noncomputable def ownFrames (borrowed : Set ℕ) (fs : List ℕ) : List ℕ :=
  open Classical in fs.filter fun f => f ∉ borrowed

/-- Of borrowed frames there is nothing to own. -/
theorem ownFrames_eq_nil {borrowed : Set ℕ} {fs : List ℕ} (h : ∀ f ∈ fs, f ∈ borrowed) :
    ownFrames borrowed fs = [] :=
  List.filter_eq_nil_iff.mpr fun f hf => by simpa using h f hf

/-- Frames that are not borrowed. -/
theorem ownFrames_eq_self {borrowed : Set ℕ} {fs : List ℕ} (h : ∀ f ∈ fs, f ∉ borrowed) :
    ownFrames borrowed fs = fs :=
  List.filter_eq_self.mpr fun f hf => by simpa using h f hf

/-- The frames of two lists. -/
theorem ownFrames_append (borrowed : Set ℕ) (fs gs : List ℕ) :
    ownFrames borrowed (fs ++ gs) = ownFrames borrowed fs ++ ownFrames borrowed gs :=
  List.filter_append ..

/-- The areas of a user image are ranges of whole pages of the lower half. -/
theorem mapUserVmAreaCodeAndStack_aligned {code stack : ℕ} {areas : List VmArea}
    (h : ∀ v ∈ areas, v.Aligned) :
    ∀ v ∈ mapUserVmAreaCodeAndStack code stack areas, v.Aligned := by
  intro v hv
  rcases List.mem_cons.mp hv with rfl | hv
  · simp [VmArea.Aligned]
  rcases List.mem_cons.mp hv with rfl | hv
  · simp [VmArea.Aligned, pageSize]
  · exact h v hv

section Pages

variable {A : KernelAlloc S} {H : Machine S → List Resource → Prop} {Good : Machine S → Prop}
  {borrowed nodes fixed : Set ℕ} {root : ℕ} {others : List Resource} {s : Machine S}
  (hH : Holding A H Good borrowed nodes fixed)

include hH

/-- Mapping a frame that is borrowed, or else held beside the page table. -/
theorem UserTables.mapPage {va pa : ℕ} (flags : ℕ) (hva : va < 2 ^ 47) (hdvd : 4096 ∣ va)
    (hpa : 4096 ∣ pa) (hpalt : pa < 2 ^ 52) (hfix : fixed ⊆ {root})
    (h : UserTables H borrowed root ((ownFrames borrowed [pa]).map .frame ++ others) s)
    (hgood : Good (pmapMapPage A root va pa flags s).2) :
    ∃ left : List ℕ, UserTables H borrowed root (left.map .frame ++ others)
      (pmapMapPage A root va pa flags s).2 := by
  have hleaf := leafEntry_small flags hpa hpalt
  have hentry : tableEntry (pa ||| parseCommonFlags flags) = some pa :=
    tableEntry_eq_some.mpr ⟨hleaf.present, hleaf.pageSize, hleaf.addr⟩
  have hown : (ownEntry borrowed (pa ||| parseCommonFlags flags)).toList =
      ownFrames borrowed [pa] := by
    by_cases hmem : pa ∈ borrowed
    · rw [ownFrames_eq_nil (by simpa using hmem), ownEntry_eq_none.mpr fun f hf => ?_]
      · rfl
      · rwa [← Option.some.inj (hentry.symm.trans hf)]
    · rw [ownFrames_eq_self (by simpa using hmem), ownEntry_eq_some.mpr ⟨hentry, hmem⟩]
      rfl
  rw [← hown] at h
  rw [pmapMapPage_eq hva hdvd hpalt hpa] at hgood ⊢
  rcases h.mapEntry hH hva ⟨_, hentry⟩ hfix hgood with ⟨-, -, hrest, -⟩ | ⟨-, hrest, -⟩
  · exact ⟨_, hrest⟩
  · exact ⟨_, hrest⟩

/-- A stack page is a held frame, or the null frame when there is none. -/
theorem UserTables.mapStackPage {va : ℕ} (hva : va < 2 ^ 47) (hdvd : 4096 ∣ va)
    (hzero : 0 ∈ borrowed) (hfix : fixed ⊆ {root}) (h : UserTables H borrowed root others s)
    (hgood : Good (mapStackPage A root va s)) :
    ∃ left : List ℕ, UserTables H borrowed root (left.map .frame ++ others)
      (mapStackPage A root va s) := by
  have hlog := (callInvariant_log A (s.allocPage A).2.log).pmapMapPage root va
    (alignDown (s.allocPage A).1 pageSize) (mmuFlagUser ||| mmuFlagWrite ||| mmuFlagPresent)
    List.prefix_rfl
  have hgood' := hH.good_of_isPrefix hlog hgood
  by_cases hframe : (s.allocPage A).1 = 0
  · have hnone : ownFrames borrowed [alignDown (s.allocPage A).1 pageSize] = [] :=
      ownFrames_eq_nil (by simp [hframe, alignDown, hzero])
    refine UserTables.mapPage hH _ hva hdvd ?_ ?_ hfix ?_ hgood
    · simp [hframe, alignDown]
    · simp [hframe, alignDown]
    · rw [hnone]
      exact h.allocPage_fail hH hframe hgood'
  · obtain ⟨fs, hfs, hholds⟩ := h.holds
    have hheld : UserTables H borrowed root (.frame (s.allocPage A).1 :: others)
        (s.allocPage A).2 :=
      ⟨h.tree, fs, hfs, hH.perm (hH.allocPage hholds hframe) List.perm_middle.symm⟩
    obtain ⟨-, hpa, hpalt, hown⟩ := hH.frame_addr (hH.allocPage hholds hframe) List.mem_cons_self
    have halign : alignDown (s.allocPage A).1 pageSize = (s.allocPage A).1 := by
      rw [alignDown_page (hpalt.trans (by decide)), Nat.div_mul_cancel hpa]
    simp only [Mm.mapStackPage, halign] at hgood ⊢
    refine UserTables.mapPage hH _ hva hdvd hpa hpalt hfix ?_ hgood
    rw [ownFrames_eq_self (by simpa using hown)]
    exact hheld

/-- The pages of a user image, when the frames of the code are borrowed, or else held beside the page
table. -/
theorem UserTables.mapUserPages {fnPhys : ℕ} (hphys : fnPhys + pageSize < 2 ^ 52)
    (hzero : 0 ∈ borrowed) (hfix : fixed ⊆ {root})
    (h : UserTables H borrowed root
      ((ownFrames borrowed (codePages fnPhys)).map .frame ++ others) s)
    (hgood : Good (mapUserPages A root fnPhys s)) :
    ∃ left : List ℕ, UserTables H borrowed root (left.map .frame ++ others)
      (mapUserPages A root fnPhys s) := by
  have hrange := (codePages_spec hphys).2
  have hlow := hrange _ List.mem_cons_self
  have hhigh := hrange _ (List.mem_cons_of_mem _ List.mem_cons_self)
  have hlog := fun log => callInvariant_log A log
  have hstack : ∀ va (s : Machine S), s.log <+: (Mm.mapStackPage A root va s).log := fun va s =>
    (hlog s.log).pmapMapPage root va _ _ (List.prefix_append _ _)
  rw [codePages, ← List.singleton_append, ownFrames_append, List.map_append, List.append_assoc] at h
  simp only [Mm.mapUserPages] at hgood ⊢
  -- the pages in the order of the source, each beside what the one before it left
  set s₁ := (pmapMapPage A root utaskEntry (alignDown fnPhys pageSize)
    (mmuFlagUser ||| mmuFlagPresent) s).2 with hs₁
  set s₂ := (pmapMapPage A root (utaskEntry + pageSize)
    (alignDown ((fnPhys + pageSize) % wordSize) pageSize) (mmuFlagUser ||| mmuFlagPresent)
    s₁).2 with hs₂
  have hgood₃ := hH.good_of_isPrefix (hstack _ _) hgood
  have hgood₂ := hH.good_of_isPrefix (hstack _ _) hgood₃
  have hgood₁ : Good s₁ := by
    refine hH.good_of_isPrefix ?_ hgood₂
    rw [hs₂]
    exact (hlog s₁.log).pmapMapPage _ _ _ _ List.prefix_rfl
  obtain ⟨left₁, h₁⟩ := h.mapPage hH _ (by decide) (by decide) hlow.1 hlow.2 hfix hgood₁
  obtain ⟨left₂, h₂⟩ := (h₁.perm hH (List.perm_append_comm_assoc _ _ _)).mapPage hH _ (by decide)
    (by decide) hhigh.1 hhigh.2 hfix hgood₂
  obtain ⟨left₃, h₃⟩ := h₂.mapStackPage hH (by decide) (by decide) hzero hfix hgood₃
  obtain ⟨left₄, h₄⟩ := h₃.mapStackPage hH (by decide) (by decide) hzero hfix hgood
  refine ⟨left₄ ++ (left₃ ++ (left₂ ++ left₁)), ?_⟩
  simpa only [List.map_append, List.append_assoc] using h₄

end Pages

/-- A user image is set up in a new address space: its pages are mapped, and two blocks of the kernel
heap become the nodes of its areas. The frames of the code are borrowed, or else held beforehand. -/
theorem Holding.execve {A : HeapAlloc S} {H : Machine S → List Resource → Prop}
    {Good : Machine S → Prop} {borrowed nodes : Set ℕ}
    (hH : Holding A.toKernelAlloc H Good borrowed nodes ∅) (hgood : ∀ s, Good s)
    {kernel : Option PageTable} {k : KernelAddr} {fn : ℕ} {s s' : Machine S}
    {space : VmMap} {others : List Resource} (hphys : kernelVirtToPhys k fn + pageSize < 2 ^ 52)
    (hzero : 0 ∈ borrowed)
    (h : H s ((ownFrames borrowed (codePages (kernelVirtToPhys k fn))).map .frame ++ others))
    (hexec : ktaskExecve A kernel k fn s = some (space, s')) :
    ∃ (left : List ℕ) (s₁ : Machine S),
      UserTables H borrowed space.pageTable.pml4Phy
        (left.map .frame ++ (.object .pageTableCache space.pageTable.obj ::
          .object .vmMapCache space.addr :: others)) s₁ ∧
      let code := s₁.kmalloc A vmAreaSize
      let stack := code.2.kmalloc A vmAreaSize
      code.1 ≠ 0 ∧ stack.1 ≠ 0 ∧ s' = stack.2 ∧
        space.areas = mapUserVmAreaCodeAndStack code.1 stack.1 [] := by
  obtain ⟨-, hcreated⟩ := hH.create rfl h (hgood (vmMapCreate A.toKernelAlloc kernel s).2)
  rw [ktaskExecve] at hexec
  rcases hr : vmMapCreate A.toKernelAlloc kernel s with ⟨_ | new, s₁⟩
  all_goals
    rw [hr] at hexec hcreated
    simp only at hexec
  · cases hexec
  obtain ⟨howns, hareas, -⟩ := hcreated new rfl
  have htables := howns.tables
  simp only [spaceObjects, hareas, areaNodes_nil, List.nil_append] at htables
  obtain ⟨left, hpages⟩ := (htables.perm hH (List.perm_append_comm_assoc _ _ _)).mapUserPages hH hphys
    hzero (Set.empty_subset _) (hgood _)
  split at hexec
  · cases hexec
  next hnodes =>
    obtain ⟨rfl, rfl⟩ := Prod.mk.inj (Option.some.inj hexec)
    obtain ⟨hcode, hstack⟩ := not_or.mp hnodes
    exact ⟨left, _, hpages, hcode, hstack, rfl, by rw [hareas]⟩

end Flos.Mm
