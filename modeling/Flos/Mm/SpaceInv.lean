import Flos.Mm.UserTables

/-!
# What an address space owns

An address space owns the frames of the user half of its page table, the nodes of its areas, its
own record and that of its page table. Its areas are page-aligned. Each operation keeps this;
destroying the address space gives everything back but the pages that no area covers.
-/

namespace Flos.Mm

open Flos.Lib

variable {S : Type*} {A : KernelAlloc S} {H : Machine S → List Resource → Prop}
  {Good : Machine S → Prop} {borrowed nodes fixed : Set ℕ} {root : ℕ} {others : List Resource}

/-- The nodes of the areas, less the borrowed ones. -/
noncomputable def areaNodes (nodes : Set ℕ) (areas : List VmArea) : List Resource :=
  open Classical in (areas.filter fun v => v.node ∉ nodes).map fun v => .object .vmAreaCache v.node

/-- No areas have no nodes. -/
@[simp] theorem areaNodes_nil (nodes : Set ℕ) : areaNodes nodes [] = [] := rfl

/-- The nodes of two lists of areas. -/
@[simp] theorem areaNodes_append (nodes : Set ℕ) (areas areas' : List VmArea) :
    areaNodes nodes (areas ++ areas') = areaNodes nodes areas ++ areaNodes nodes areas' := by
  rw [areaNodes, List.filter_append, List.map_append]
  rfl

/-- An area with a node of its own. -/
theorem areaNodes_cons {v : VmArea} (hv : v.node ∉ nodes) (areas : List VmArea) :
    areaNodes nodes (v :: areas) = .object .vmAreaCache v.node :: areaNodes nodes areas := by
  rw [areaNodes, List.filter_cons_of_pos (by simpa using hv), List.map_cons]
  rfl

/-- Only the nodes of the areas matter. -/
theorem areaNodes_congr {areas areas' : List VmArea}
    (h : areas.map VmArea.node = areas'.map VmArea.node) :
    areaNodes nodes areas = areaNodes nodes areas' := by
  have hmap : ∀ areas : List VmArea, areaNodes nodes areas = open Classical in
      ((areas.map VmArea.node).filter (· ∉ nodes)).map (.object .vmAreaCache) := by
    intro areas
    rw [areaNodes, List.filter_map, List.map_map]
    rfl
  rw [hmap, hmap, h]

/-- Inserting an area adds its node. -/
theorem areaNodes_insertVma (areas : List VmArea) {new : VmArea} (hnew : new.node ∉ nodes) :
    (areaNodes nodes (insertVma areas new)).Perm
      (.object .vmAreaCache new.node :: areaNodes nodes areas) := by
  rw [← areaNodes_cons hnew]
  exact ((insertVma_perm areas new).filter _).map _

/-- What an address space owns beside the frames of its page table. -/
noncomputable def spaceObjects (nodes : Set ℕ) (space : VmMap) : List Resource :=
  areaNodes nodes space.areas ++
    [.object .pageTableCache space.pageTable.obj, .object .vmMapCache space.addr]

/-- An area is a range of whole pages of the lower half. -/
def VmArea.Aligned (v : VmArea) : Prop :=
  4096 ∣ v.start ∧ 4096 ∣ v.endAddr ∧ v.endAddr ≤ 2 ^ 47

/-- What holds of an address space between operations, with `others` held beside what it owns. -/
structure SpaceInv (H : Machine S → List Resource → Prop) (borrowed nodes : Set ℕ)
    (others : List Resource) (space : VmMap) (s : Machine S) : Prop where
  tables : UserTables H borrowed space.pageTable.pml4Phy (spaceObjects nodes space ++ others) s
  aligned : ∀ v ∈ space.areas, v.Aligned

/-! ## Other resources beside the page table -/

section Others

variable {s : Machine S} (hH : Holding A H Good borrowed nodes fixed)

include hH

/-- The order of the other resources does not matter. -/
theorem UserTables.perm {others' : List Resource} (h : UserTables H borrowed root others s)
    (hperm : others.Perm others') : UserTables H borrowed root others' s := by
  obtain ⟨fs, hfs, hholds⟩ := h.holds
  exact ⟨h.tree, fs, hfs, hH.perm hholds (hperm.append_left _)⟩

/-- An object is taken beside the page table. -/
theorem UserTables.cacheAlloc (c : CacheName)
    (h : UserTables H borrowed root others s) (hsome : (s.cacheAlloc A c).1 ≠ 0) :
    UserTables H borrowed root (.object c (s.cacheAlloc A c).1 :: others) (s.cacheAlloc A c).2 := by
  obtain ⟨fs, hfs, hholds⟩ := h.holds
  exact ⟨h.tree, fs, hfs, hH.perm (hH.cacheAlloc hholds hsome) List.perm_middle.symm⟩

/-- No object is taken. -/
theorem UserTables.cacheAlloc_fail (c : CacheName)
    (h : UserTables H borrowed root others s) (hfail : (s.cacheAlloc A c).1 = 0)
    (hgood : Good (s.cacheAlloc A c).2) :
    UserTables H borrowed root others (s.cacheAlloc A c).2 := by
  obtain ⟨fs, hfs, hholds⟩ := h.holds
  exact ⟨h.tree, fs, hfs, hH.cacheAlloc_fail hholds hfail hgood⟩

/-- An object beside the page table is given back. -/
theorem UserTables.cacheFree {c : CacheName} {a : ℕ}
    (h : UserTables H borrowed root (.object c a :: others) s) :
    UserTables H borrowed root others (s.cacheFree A c a) := by
  obtain ⟨fs, hfs, hholds⟩ := h.holds
  exact ⟨h.tree, fs, hfs, hH.cacheFree (hH.perm hholds List.perm_middle)⟩

/-- A cleared frame is taken beside the page table. -/
theorem UserTables.allocPage (h : UserTables H borrowed root others s) (hfix : fixed ⊆ {root})
    (hsome : (s.allocPage A).1 ≠ 0) :
    UserTables H borrowed root (.frame (s.allocPage A).1 :: others)
        ((s.allocPage A).2.zeroFrame (s.allocPage A).1) ∧
      ∀ q, UserPath q →
        tableAt (ownEntry borrowed) ((s.allocPage A).2.zeroFrame (s.allocPage A).1).mem root q =
          tableAt (ownEntry borrowed) s.mem root q := by
  obtain ⟨fs, hfs, hholds⟩ := h.holds
  have hheld := hH.perm (hH.allocPage hholds hsome) List.perm_middle.symm
  have htaken : UserTables H borrowed root (.frame (s.allocPage A).1 :: others) (s.allocPage A).2 :=
    ⟨h.tree, fs, hfs, hheld⟩
  exact htaken.zeroFrame hH hfix List.mem_cons_self

/-- No frame is taken. -/
theorem UserTables.allocPage_fail (h : UserTables H borrowed root others s)
    (hfail : (s.allocPage A).1 = 0) (hgood : Good (s.allocPage A).2) :
    UserTables H borrowed root others (s.allocPage A).2 := by
  obtain ⟨fs, hfs, hholds⟩ := h.holds
  exact ⟨h.tree, fs, hfs, hH.allocPage_fail hholds hfail hgood⟩

end Others

/-! ## The area loop -/

section Areas

variable {start endAddr : ℕ}

/-- The area loop leaves memory as it is. -/
theorem freeAreas_mem (areas : List VmArea) (s : Machine S) :
    (freeAreas A start endAddr areas s).2.mem = s.mem := by
  induction areas generalizing s with
  | nil => rfl
  | cons vma rest ih =>
    obtain ⟨pieces, s', hstep, heq⟩ := freeAreas_cons A start endAddr vma rest s
    rw [heq]
    refine (ih s').trans ?_
    cases hstep <;> rfl

/-- The pieces of an aligned area are aligned. -/
theorem CutStep.aligned {vma : VmArea} {s s' : Machine S} {pieces : List VmArea}
    (h : CutStep A start endAddr vma s pieces s') (hstart : 4096 ∣ start) (hend : 4096 ∣ endAddr)
    (hv : vma.Aligned) {b : VmArea} (hb : b ∈ pieces) : b.Aligned := by
  obtain ⟨h1, h2, h3⟩ := hv
  cases h <;> simp only [List.mem_cons, List.not_mem_nil, or_false] at hb
  case skip => subst hb; exact ⟨h1, h2, h3⟩
  case split =>
    rcases hb with rfl | rfl
    · exact ⟨h1, hstart, by simp only; omega⟩
    · exact ⟨hend, h2, h3⟩
  case truncate => subst hb; exact ⟨h1, hstart, by simp only; omega⟩
  case trimEnd => subst hb; exact ⟨h1, hstart, by simp only; omega⟩
  case trimStart => subst hb; exact ⟨hend, h2, h3⟩

/-- The areas left by the loop are aligned. -/
theorem freeAreas_aligned {areas : List VmArea} {s : Machine S} (hstart : 4096 ∣ start)
    (hend : 4096 ∣ endAddr) (h : ∀ v ∈ areas, v.Aligned) :
    ∀ b ∈ (freeAreas A start endAddr areas s).1, b.Aligned := by
  induction areas generalizing s with
  | nil => simp [freeAreas]
  | cons vma rest ih =>
    obtain ⟨pieces, s', hstep, heq⟩ := freeAreas_cons A start endAddr vma rest s
    intro b hb
    rw [heq] at hb
    rcases List.mem_append.mp hb with hb | hb
    · exact hstep.aligned hstart hend (h vma List.mem_cons_self) hb
    · exact ih (fun v hv => h v (List.mem_cons_of_mem _ hv)) b hb

/-- An iteration of the area loop only adds to the log. -/
theorem CutStep.log_prefix {vma : VmArea} {s s' : Machine S} {pieces : List VmArea}
    (h : CutStep A start endAddr vma s pieces s') : s.log <+: s'.log := by
  cases h
  case skip => exact List.prefix_rfl
  case drop => exact List.prefix_append _ _
  case split => exact List.prefix_append _ _
  case truncate => exact List.prefix_append _ _
  case trimEnd => exact List.prefix_rfl
  case trimStart => exact List.prefix_rfl

/-- Unless an allocation failed, the areas left by the loop cover the old ones outside the region, with
their flags. -/
theorem freeAreas_covers {areas : List VmArea} {s : Machine S}
    (hsucc : ¬ Failed s (freeAreas A start endAddr areas s).2) {v : VmArea} (hv : v ∈ areas) {x : ℕ}
    (hin : v.start ≤ x ∧ x < v.endAddr) (hout : x < start ∨ endAddr ≤ x) :
    ∃ b ∈ (freeAreas A start endAddr areas s).1, b.flags = v.flags ∧ b.start ≤ x ∧ x < b.endAddr := by
  induction areas generalizing s with
  | nil => cases hv
  | cons vma rest ih =>
    obtain ⟨pieces, s', hstep, heq⟩ := freeAreas_cons A start endAddr vma rest s
    rw [heq] at hsucc ⊢
    have hlog : s'.log <+: (freeAreas A start endAddr rest s').2.log :=
      (callInvariant_log A _).freeAreas start endAddr rest List.prefix_rfl
    rcases List.mem_cons.mp hv with rfl | hv
    · have hnode : s'.log ≠ s.log ++ [.allocObject .vmAreaCache 0] := fun hnode =>
        hsucc ((Failed.of_log hnode (by simp [MemEvent.Succeeds])).extend List.prefix_rfl hlog)
      obtain ⟨b, hb, hflags, hin'⟩ := hstep.covers hnode hin hout
      exact ⟨b, List.mem_append_left _ hb, hflags, hin'⟩
    · obtain ⟨b, hb, hflags, hin'⟩ :=
        ih (fun hfail => hsucc (hfail.extend hstep.log_prefix List.prefix_rfl)) hv
      exact ⟨b, List.mem_append_right _ hb, hflags, hin'⟩

/-- The area does not lie in the region, so it keeps its node. -/
def VmArea.KeepsNode (start endAddr : ℕ) (v : VmArea) : Prop :=
  v.start < start ∨ endAddr < v.endAddr

variable (hH : Holding A H Good borrowed nodes fixed)

include hH

/-- An iteration of the area loop trades the node of an area for those of its pieces. -/
theorem CutStep.heldNodes {vma : VmArea} {s s' : Machine S} {pieces : List VmArea}
    (h : CutStep A start endAddr vma s pieces s')
    (hkeep : vma.node ∈ nodes → vma.KeepsNode start endAddr)
    (htables : UserTables H borrowed root (areaNodes nodes [vma] ++ others) s) (hgood : Good s') :
    UserTables H borrowed root (areaNodes nodes pieces ++ others) s' := by
  have htrim : ∀ start endAddr, areaNodes nodes [{ vma with start := start, endAddr := endAddr }] =
      areaNodes nodes [vma] := fun _ _ => areaNodes_congr rfl
  cases h
  case skip => exact htables
  case drop hlow hhigh =>
    have hown : vma.node ∉ nodes := fun hmem => by
      rcases hkeep hmem with hlt | hlt <;> omega
    rw [areaNodes_cons hown] at htables
    exact htables.cacheFree hH
  case split hnode =>
    have htaken := htables.cacheAlloc hH _ hnode
    obtain ⟨fs, -, hholds⟩ := htaken.holds
    have hown := hH.node_addr hholds (List.mem_append_right _ List.mem_cons_self)
    have htail : areaNodes nodes
        [⟨(s.cacheAlloc A .vmAreaCache).1, endAddr, vma.endAddr, vma.flags⟩] =
          [.object .vmAreaCache (s.cacheAlloc A .vmAreaCache).1] := areaNodes_cons hown []
    rw [← List.singleton_append, areaNodes_append, htail, htrim, List.append_assoc]
    exact htaken.perm hH List.perm_middle.symm
  case truncate hnode =>
    rw [htrim]
    exact htables.cacheAlloc_fail hH _ hnode hgood
  case trimEnd => rwa [htrim]
  case trimStart => rwa [htrim]

/-- The area loop trades the nodes of the areas for those of the areas it leaves. Unless an allocation
failed, what it leaves covers the old areas outside the region. -/
theorem UserTables.freeAreas {areas : List VmArea} {s : Machine S}
    (h : UserTables H borrowed root (areaNodes nodes areas ++ others) s)
    (hkeep : ∀ v ∈ areas, v.node ∈ nodes → v.KeepsNode start endAddr)
    (hgood : Good (freeAreas A start endAddr areas s).2) :
    UserTables H borrowed root (areaNodes nodes (freeAreas A start endAddr areas s).1 ++ others)
        (freeAreas A start endAddr areas s).2 ∧
      (¬ Failed s (freeAreas A start endAddr areas s).2 →
        ∀ v ∈ areas, ∀ x, v.start ≤ x → x < v.endAddr → x < start ∨ endAddr ≤ x →
          ∃ b ∈ (freeAreas A start endAddr areas s).1, b.start ≤ x ∧ x < b.endAddr) := by
  refine ⟨?_, fun hsucc v hv x hlo hhi hout => ?_⟩
  · induction areas generalizing s others with
    | nil => exact h
    | cons vma rest ih =>
      obtain ⟨pieces, s', hstep, heq⟩ := freeAreas_cons A start endAddr vma rest s
      rw [heq] at hgood ⊢
      have hlog : s'.log <+: (Mm.freeAreas A start endAddr rest s').2.log :=
        (callInvariant_log A _).freeAreas start endAddr rest List.prefix_rfl
      rw [← List.singleton_append, areaNodes_append, List.append_assoc] at h
      have hpieces := hstep.heldNodes hH (hkeep vma List.mem_cons_self) h
        (hH.good_of_isPrefix hlog hgood)
      have hrest := ih (hpieces.perm hH (List.perm_append_comm_assoc _ _ _))
        (fun v hv => hkeep v (List.mem_cons_of_mem _ hv)) hgood
      rw [areaNodes_append, List.append_assoc]
      exact hrest.perm hH (List.perm_append_comm_assoc _ _ _)
  · obtain ⟨b, hb, -, hin⟩ := freeAreas_covers hsucc hv ⟨hlo, hhi⟩ hout
    exact ⟨b, hb, hin⟩

/-- The loop of `vm_map_destroy` gives back the nodes and the pages of all areas. -/
theorem UserTables.destroyAreas {areas : List VmArea} {s : Machine S}
    (h : UserTables H borrowed root (areaNodes nodes areas ++ others) s) (hfix : fixed ⊆ {root})
    (haligned : ∀ v ∈ areas, v.Aligned) (hnodes : ∀ v ∈ areas, v.node ∉ nodes)
    (hsafe : ∀ v ∈ areas, ∀ x, v.start ≤ x → x < v.endAddr → ∀ f ∈ borrowed,
      PageLeaf s.mem root x f → f = 0) :
    UserTables H borrowed root others (destroyAreas A root areas s) ∧
      ∀ q f, UserPath q →
        tableAt (ownEntry borrowed) (destroyAreas A root areas s).mem root q = some f →
        tableAt (ownEntry borrowed) s.mem root q = some f ∧
          ∀ v ∈ areas, ∀ x, v.start ≤ x → x < v.endAddr → 4096 ∣ x → pathOf x ≠ q := by
  induction areas generalizing s with
  | nil => exact ⟨h, fun q f _ hf => ⟨hf, by simp⟩⟩
  | cons vma rest ih =>
    obtain ⟨hstart, -, hend⟩ := haligned vma List.mem_cons_self
    obtain ⟨hpages, hunmapped⟩ := h.unmapPages hH hfix hstart hend le_rfl (hsafe vma List.mem_cons_self)
    rw [areaNodes_cons (hnodes vma List.mem_cons_self)] at hpages
    obtain ⟨hrest, hgone⟩ := ih (hpages.cacheFree hH)
      (fun v hv => haligned v (List.mem_cons_of_mem _ hv))
      (fun v hv => hnodes v (List.mem_cons_of_mem _ hv)) (by
        intro v hv x hlo hhi f hf hleaf
        by_contra hne
        exact hne (hsafe v (List.mem_cons_of_mem _ hv) x hlo hhi f hf (hleaf.of_unmapPages hne)))
    refine ⟨hrest, fun q f hq hf => ?_⟩
    obtain ⟨hmid, hout⟩ := hgone q f hq hf
    refine ⟨hunmapped.kept q f hq hmid, fun v hv x hlo hhi hdvd => ?_⟩
    rcases List.mem_cons.mp hv with rfl | hv
    · rintro rfl
      have hnone := hunmapped.none x hlo hhi hdvd
      exact Option.some_ne_none f (hmid.symm.trans hnone)
    · exact hout v hv x hlo hhi hdvd

end Areas

end Flos.Mm
