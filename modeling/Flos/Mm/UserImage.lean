import Flos.Mm.VmMapSearch

/-!
# User images and the area list

`ktask_execve` puts its code and stack areas in front of the list itself, and the stack area,
which lies above the code, comes first. On a sorted list the single scan of `vm_map_allocate`
finds every gap; on the list of a fresh user image it finds none for small sizes.
-/

namespace Flos.Mm

open Flos.Lib

variable {S : Type*} {A : KernelAlloc S}

/-- What other code relies on: the areas are sorted and disjoint, and an allocation succeeds when a
node can be allocated and some range in the user half meets no area. -/
structure AreasUsable (A : KernelAlloc S) (space : VmMap) (s : Machine S) : Prop where
  sorted : space.areas.Pairwise fun a b => a.start < b.start
  disjoint : space.areas.Pairwise fun a b =>
    Disjoint (Set.Ico a.start a.endAddr) (Set.Ico b.start b.endAddr)
  allocates : ∀ size flags x, 0 < size → (s.cacheAlloc A .vmAreaCache).1 ≠ 0 → vmAllocBase ≤ x →
    x + pageCeil size ≤ 2 ^ 47 →
    (∀ v ∈ space.areas, Disjoint (Set.Ico v.start v.endAddr) (Set.Ico x (x + pageCeil size))) →
    (vmMapAllocate A space size flags s).1 ≠ 0

/-- The address space after `map_user_vm_area_code_and_stack`. -/
def installUserImage (code stack : ℕ) (space : VmMap) : VmMap :=
  { space with areas := mapUserVmAreaCodeAndStack code stack space.areas }

/-- On a chain the scan finds a free range that lies no higher than any other. -/
theorem findCandidate_free {areas : List VmArea} (hchain : AreasChain areas) {size x : ℕ}
    (hx : x + size < wordSize) (hfree : ∀ v ∈ areas, v.endAddr ≤ x ∨ x + size ≤ v.start) {c : ℕ}
    (hc : c ≤ x) :
    c ≤ findCandidate size areas c ∧ findCandidate size areas c ≤ x ∧
      ∀ v ∈ areas, v.endAddr ≤ findCandidate size areas c ∨
        findCandidate size areas c + size ≤ v.start := by
  have hle : firstFit VmArea.start VmArea.endAddr size areas c ≤ x := firstFit_le hc hfree
  rw [findCandidate_eq, firstFitMod_eq ((Nat.add_le_add_right hle size).trans_lt hx)]
  exact ⟨le_firstFit size areas c, hle, gap_firstFit (SpanChain.inOrder hchain) size c⟩

/-- A range without overlap passes the overlap scan. -/
theorem vmaOverlaps_eq_false {areas : List VmArea} {start size : ℕ}
    (hfit : start + size < wordSize)
    (h : ∀ v ∈ areas, v.endAddr ≤ start ∨ start + size ≤ v.start) :
    vmaOverlaps areas start size = false := by
  refine vmaOverlaps_eq_false_iff.mpr fun v hv => ?_
  rw [Nat.mod_eq_of_lt hfit]
  exact h v hv

/-- On a chain an allocation succeeds when a node can be allocated and some range is free. -/
theorem vmMapAllocate_ne_zero {space : VmMap} {s : Machine S} (hchain : AreasChain space.areas)
    {size x : ℕ} (flags : ℕ) (hsize : 0 < size) (hnode : (s.cacheAlloc A .vmAreaCache).1 ≠ 0)
    (hbase : vmAllocBase ≤ x) (hx : x + pageCeil size < wordSize)
    (hfree : ∀ v ∈ space.areas, v.endAddr ≤ x ∨ x + pageCeil size ≤ v.start) :
    (vmMapAllocate A space size flags s).1 ≠ 0 := by
  obtain ⟨h1, h2, h3⟩ := findCandidate_free hchain hx hfree hbase
  have hceil : pageCeil size < wordSize := (Nat.le_add_left _ _).trans_lt hx
  have hover := vmaOverlaps_eq_false ((Nat.add_le_add_right h2 _).trans_lt hx) h3
  have hne : findCandidate (pageCeil size) space.areas vmAllocBase ≠ 0 :=
    (Nat.lt_of_lt_of_le (by decide) h1).ne'
  have hfit : findCandidate (pageCeil size) space.areas vmAllocBase +
      pageCeil (pageCeil size) < wordSize := by
    rw [pageCeil_pageCeil]
    exact (Nat.add_le_add_right h2 _).trans_lt hx
  rw [vmMapAllocate_eq flags s hsize hceil]
  rcases vmMapAllocateRegion_cases A space flags s hfit with ⟨h, -⟩ | ⟨h, -⟩ | ⟨-, -, h⟩
  · rw [pageCeil_pageCeil, hover] at h
    cases h
  · exact absurd h hnode
  · simpa only [h, hne, if_false] using hne

/-- One operation on ranges that fit keeps non-empty disjoint areas so, sorted or not. -/
theorem VmStep.disjoint {st st' : VmState S} {op : VmOp} (h : VmStep A st op st')
    (hinv : AreasNonempty st.space.areas ∧ AreasDisjoint st.space.areas) :
    AreasNonempty st'.space.areas ∧ AreasDisjoint st'.space.areas := by
  obtain ⟨hpos, hdisjoint⟩ := hinv
  obtain ⟨hfit, rfl⟩ := h
  rcases VmOp.exec_areas (A := A) hfit with heq | ⟨new, hlt, hnew, heq⟩ | ⟨_, _, s, hrange, heq⟩
  · rw [heq]
    exact ⟨hpos, hdisjoint⟩
  · rw [heq]
    refine ⟨fun v hv => ?_, hdisjoint.insertVma hnew⟩
    rcases mem_insertVma.mp hv with rfl | hv
    · exact hlt
    · exact hpos v hv
  · rw [heq]
    exact ⟨AreasNonempty.freeAreas hpos s, AreasDisjoint.freeAreas hdisjoint s hrange⟩

/-- The code area lies behind the stack area in the list of a fresh user image. -/
theorem installUserImage_areas {kernel : Option PageTable} {s s' : Machine S} {space : VmMap}
    (hcreate : vmMapCreate A kernel s = (some space, s')) (code stack : ℕ) :
    (installUserImage code stack space).areas =
      [⟨stack, 0x3000, 0x5000, 7⟩, ⟨code, 0x1000, 0x3000, 5⟩] := by
  rw [installUserImage, vmMapCreate_areas hcreate]
  rfl

/-- The scan stops below the stack area with a candidate inside the code area. -/
theorem vmMapAllocate_userImage {kernel : Option PageTable} {s s' : Machine S} {space : VmMap}
    (hcreate : vmMapCreate A kernel s = (some space, s')) (code stack : ℕ) {size : ℕ} (flags : ℕ)
    (hpos : 0 < size) (hsize : size ≤ 0x2000) (s₁ : Machine S) :
    (vmMapAllocate A (installUserImage code stack space) size flags s₁).1 = 0 := by
  have hareas := installUserImage_areas hcreate code stack
  have hceil : 0 < pageCeil size ∧ pageCeil size ≤ 0x2000 := by
    simp only [pageCeil]
    omega
  rw [vmMapAllocate_eq flags s₁ hpos (by simp only [wordSize]; omega), hareas]
  have hcandidate : findCandidate (pageCeil size) [⟨stack, 0x3000, 0x5000, 7⟩,
      ⟨code, 0x1000, 0x3000, 5⟩] vmAllocBase = 0x1000 := by
    rw [findCandidate, if_pos]
    simp only [vmAllocBase, wordSize]
    omega
  rw [hcandidate]
  have hfit : 0x1000 + pageCeil (pageCeil size) < wordSize := by
    simp only [pageCeil_pageCeil, wordSize]
    omega
  have hover : ¬ ∀ v ∈ (installUserImage code stack space).areas,
      v.endAddr ≤ 0x1000 ∨ 0x1000 + pageCeil (pageCeil size) ≤ v.start := by
    rw [hareas, pageCeil_pageCeil]
    intro h
    have := h ⟨code, 0x1000, 0x3000, 5⟩ (by simp)
    simp only at this
    omega
  rcases vmMapAllocateRegion_cases A (installUserImage code stack space) flags s₁ hfit with
    ⟨-, h⟩ | ⟨-, h⟩ | ⟨-, h, -⟩
  · simp only [h, if_true]
  · simp only [h, if_true]
  · exact absurd h hover

/-- User images and the area list. The list of every fresh user image is out of order: no
allocation of up to two pages succeeds, whatever is free, so it is not usable. In every state that
operations on ranges that fit lead to from there, the list is usable exactly if it is sorted. -/
theorem userImage_areasUsable_iff {kernel : Option PageTable} {s s' : Machine S} {space : VmMap}
    (hcreate : vmMapCreate A kernel s = (some space, s')) (code stack : ℕ) (s₁ : Machine S) :
    (¬ AreasUsable A (installUserImage code stack space) s₁ ∧
      ¬ (installUserImage code stack space).areas.Pairwise (fun a b => a.start < b.start) ∧
      ∀ size flags, 0 < size → size ≤ 0x2000 →
        (vmMapAllocate A (installUserImage code stack space) size flags s₁).1 = 0) ∧
    ∀ ops st, Run (VmStep A) ⟨installUserImage code stack space, s₁⟩ ops st →
      (AreasUsable A st.space st.machine ↔
        st.space.areas.Pairwise fun a b => a.start < b.start) := by
  have hareas := installUserImage_areas hcreate code stack
  have hunsorted :
      ¬ (installUserImage code stack space).areas.Pairwise (fun a b => a.start < b.start) := by
    rw [hareas]
    simp
  refine ⟨⟨fun h => hunsorted h.sorted, hunsorted,
    fun size flags hpos hsize => vmMapAllocate_userImage hcreate code stack flags hpos hsize s₁⟩,
    fun ops st hrun => ⟨fun h => h.sorted, fun hsorted => ?_⟩⟩
  obtain ⟨hpos, hdisjoint⟩ : AreasNonempty st.space.areas ∧ AreasDisjoint st.space.areas := by
    refine hrun.invariant (fun st => AreasNonempty st.space.areas ∧ AreasDisjoint st.space.areas)
      (fun _ _ _ hinv hstep => hstep.disjoint hinv) ?_
    simp only [AreasNonempty, AreasDisjoint, hareas]
    simp [SpanDisjoint]
  have hchain : AreasChain st.space.areas :=
    SpanChain.of_sorted hpos (hsorted.imp fun h => h.le) hdisjoint
  refine ⟨hsorted, ?_, fun size flags x hsize hnode hbase hx hfree => ?_⟩
  · exact hdisjoint.imp_of_mem fun ha hb h => (spanDisjoint_iff (hpos _ ha) (hpos _ hb)).mp h
  · refine vmMapAllocate_ne_zero hchain flags hsize hnode hbase
      (by simp only [wordSize]; omega) fun v hv => ?_
    have hceil := pageCeil_pos hsize
    have hdis := hfree v hv
    rw [Set.Ico_disjoint_Ico] at hdis
    have := hpos v hv
    omega

/-- On the small map: one more page is put above the stack, and the list stays out of order. -/
theorem userImage_areasUsable_iff_sixFrameMap :
    ∃ s₀ space s st, initBitmapPmm sixFrameMap (fun _ => 0#8) = some s₀ ∧
      vmMapCreate kernelAllocators none (bootMachine s₀) = (some space, s) ∧
      Run (VmStep kernelAllocators) ⟨installUserImage 0x10 0x20 space, s⟩
        [.allocateRegion 0x8000 0x1000 7] st ∧
      st.space.areas.map VmArea.start = [0x3000, 0x1000, 0x8000] ∧
      ¬ AreasUsable kernelAllocators st.space st.machine := by
  obtain ⟨s₀, hinit⟩ := initBitmapPmm_isSome sixFrameMap_bootable (fun _ => 0#8)
  have hareas : ((initBitmapPmm sixFrameMap (fun _ => 0#8)).bind fun pages =>
      let r := vmMapCreate kernelAllocators none (bootMachine pages)
      r.1.map fun space =>
        (VmOp.exec kernelAllocators (.allocateRegion 0x8000 0x1000 7)
          ⟨installUserImage 0x10 0x20 space, r.2⟩).2.space.areas.map VmArea.start) =
      some [0x3000, 0x1000, 0x8000] := by decide +kernel
  rw [hinit, Option.bind_some] at hareas
  obtain ⟨space, hspace, hstarts⟩ := Option.map_eq_some_iff.mp hareas
  have hcreate : vmMapCreate kernelAllocators none (bootMachine s₀) =
      (some space, (vmMapCreate kernelAllocators none (bootMachine s₀)).2) := by rw [← hspace]
  have hrun : Run (VmStep kernelAllocators) ⟨installUserImage 0x10 0x20 space,
      (vmMapCreate kernelAllocators none (bootMachine s₀)).2⟩ [.allocateRegion 0x8000 0x1000 7] _ :=
    .single ⟨⟨by decide, by decide⟩, rfl⟩
  refine ⟨s₀, space, _, _, hinit, hcreate, hrun, hstarts, fun h => ?_⟩
  have hsorted := ((userImage_areasUsable_iff hcreate 0x10 0x20 _).2 _ _ hrun).mp h
  have hstarts' := List.pairwise_map.mpr hsorted
  rw [hstarts] at hstarts'
  simp at hstarts'

/-- On the small map: in a fresh user image one page is free above the stack and a node can be
allocated, but `vm_map_allocate` fails. -/
theorem userImage_allocate_fails :
    ∃ s₀ space s, initBitmapPmm sixFrameMap (fun _ => 0#8) = some s₀ ∧
      vmMapCreate kernelAllocators none (bootMachine s₀) = (some space, s) ∧
      (s.cacheAlloc kernelAllocators .vmAreaCache).1 ≠ 0 ∧
      (∀ v ∈ (installUserImage 0x10 0x20 space).areas,
        Disjoint (Set.Ico v.start v.endAddr) (Set.Ico 0x5000 (0x5000 + pageCeil 0x1000))) ∧
      (vmMapAllocate kernelAllocators (installUserImage 0x10 0x20 space) 0x1000 7 s).1 = 0 ∧
      ¬ (installUserImage 0x10 0x20 space).areas.Pairwise (fun a b => a.start < b.start) := by
  obtain ⟨s₀, hinit⟩ := initBitmapPmm_isSome sixFrameMap_bootable (fun _ => 0#8)
  have hnode : ((initBitmapPmm sixFrameMap (fun _ => 0#8)).bind fun pages =>
      let r := vmMapCreate kernelAllocators none (bootMachine pages)
      r.1.map fun _ => (r.2.cacheAlloc kernelAllocators .vmAreaCache).1) =
      some (hhdmOffset + 0x4020) := by decide +kernel
  rw [hinit, Option.bind_some] at hnode
  obtain ⟨space, hspace, hnode⟩ := Option.map_eq_some_iff.mp hnode
  have hcreate : vmMapCreate kernelAllocators none (bootMachine s₀) =
      (some space, (vmMapCreate kernelAllocators none (bootMachine s₀)).2) := by rw [← hspace]
  have hareas := installUserImage_areas hcreate 0x10 0x20
  refine ⟨s₀, space, _, hinit, hcreate, by rw [hnode]; decide, ?_,
    vmMapAllocate_userImage hcreate 0x10 0x20 7 (by decide) (by decide) _, ?_⟩
  · rw [hareas]
    simp [pageCeil, Set.Ico_disjoint_Ico]
  · rw [hareas]
    simp

end Flos.Mm
