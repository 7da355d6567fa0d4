import Flos.Lib.Runs
import Flos.Mm.PmmInit

/-!
# Whole runs of the physical memory manager

Two kinds of runs from the state left by initialisation. In a plain run every operation may
have any arguments. In a legal run each free names only frames that are allocated at that
moment; a ghost set records the frames handed out and not yet freed. The invariant of legal
runs partitions the initially free frames into free frames and live frames.
-/

namespace Flos.Mm

open Flos.Lib

/-- The operations of the manager's interface. -/
inductive PmmOp
  | allocPage
  | allocPages (count : ℕ)
  | freePage (phys : ℕ)
  | freePages (phys count : ℕ)
  deriving DecidableEq, Repr

/-- Perform one operation; a free returns nothing, which is modelled as `0`. -/
def PmmOp.exec (s : Pmm) : PmmOp → ℕ × Pmm
  | .allocPage => pmmAllocPage s
  | .allocPages count => pmmAllocPages s count
  | .freePage phys => (0, pmmFreePage s phys)
  | .freePages phys count => (0, pmmFreePages s phys count)

/-- The frames that an operation with the given result has handed out. -/
def PmmOp.taken (result : ℕ) : PmmOp → Set ℕ
  | .allocPage => {p | result ≠ 0 ∧ p = result / 4096}
  | .allocPages count => {p | result ≠ 0 ∧ p ∈ frameRange (result / 4096) count}
  | _ => ∅

/-- The frames that an operation gives back. -/
def PmmOp.given : PmmOp → Set ℕ
  | .freePage phys => {phys / 4096}
  | .freePages phys count => frameRange (phys / 4096) count
  | _ => ∅

/-- The operation asks for frames. -/
def PmmOp.IsAlloc : PmmOp → Prop
  | .allocPage | .allocPages _ => True
  | _ => False

/-- A plain step: any operation with any arguments. -/
def PmmStep (s : Pmm) (op : PmmOp) (t : Pmm) : Prop := t = (op.exec s).2

/-- The manager together with the frames handed out and not yet freed. -/
structure PmmGhost where
  pmm : Pmm
  live : Set ℕ

/-- A legal step: each frame given back is live. -/
structure PmmLegalStep (g : PmmGhost) (op : PmmOp) (g' : PmmGhost) : Prop where
  legal : op.given ⊆ g.live
  pmm : g'.pmm = (op.exec g.pmm).2
  live : g'.live = (g.live ∪ op.taken (op.exec g.pmm).1) \ op.given

/-- The invariant of legal runs from the initial state `s₀`.

The free and the live frames partition the frames that were free initially. -/
structure PmmInv (s₀ : Pmm) (g : PmmGhost) : Prop where
  small : s₀.totalPages < 2 ^ 31
  layout : SameLayout s₀ g.pmm
  cursor : g.pmm.cachedIndex ≤ g.pmm.totalPages
  zero : ¬ s₀.Free 0
  cover : ∀ p, s₀.Free p ↔ g.pmm.Free p ∨ p ∈ g.live
  apart : ∀ p ∈ g.live, ¬ g.pmm.Free p

/-- What one operation may do: fresh frames only, an exact change of the free set, and no
change at all when an allocation fails. -/
structure PmmOp.Safe (s₀ : Pmm) (g : PmmGhost) (op : PmmOp) : Prop where
  fresh : ∀ p ∈ op.taken (op.exec g.pmm).1, g.pmm.Free p ∧ s₀.Free p ∧ p ∉ g.live
  change : (op.exec g.pmm).2.freeSet =
    (g.pmm.freeSet \ op.taken (op.exec g.pmm).1) ∪ op.given
  failed : op.IsAlloc → (op.exec g.pmm).1 = 0 → (op.exec g.pmm).2 = g.pmm
  layout : SameLayout g.pmm (op.exec g.pmm).2
  cursor : (op.exec g.pmm).2.cachedIndex ≤ g.pmm.totalPages

/-- Every operation moves nothing but bits and the cursor, and keeps the cursor managed. -/
theorem PmmOp.exec_layout (s : Pmm) (op : PmmOp) (hcursor : s.cachedIndex ≤ s.totalPages) :
    SameLayout s (op.exec s).2 ∧ (op.exec s).2.cachedIndex ≤ s.totalPages := by
  cases op with
  | allocPage =>
    refine ⟨pmmAllocPage_layout s, ?_⟩
    rcases pmmAllocPage_cases hcursor with ⟨i, hfree, heq⟩ | ⟨_, heq⟩
    · change (pmmAllocPage s).2.cachedIndex ≤ _
      rw [heq]
      exact hfree.1
    · change (pmmAllocPage s).2.cachedIndex ≤ _
      rw [heq]
      exact hcursor
  | allocPages count =>
    refine ⟨pmmAllocPages_layout s count, ?_⟩
    change (pmmAllocPages s count).2.cachedIndex ≤ _
    unfold pmmAllocPages
    split
    · exact hcursor
    · split
      · next hfound =>
        have hhigh := (findRun_some (Or.inl rfl) hfound).2.1
        dsimp only
        omega
      · exact hcursor
  | freePage phys => exact ⟨(pmmFreePage_layout s phys).1, (pmmFreePage_layout s phys).2.trans hcursor⟩
  | freePages phys count =>
    exact ⟨(pmmFreePages_layout s phys count).1, (pmmFreePages_layout s phys count).2.trans hcursor⟩

/-- Under the invariant every legal operation is safe. -/
theorem PmmInv.safe {s₀ : Pmm} {g : PmmGhost} (hinv : PmmInv s₀ g) (op : PmmOp)
    (hlegal : op.given ⊆ g.live) : op.Safe s₀ g := by
  have hsmall : g.pmm.totalPages < 2 ^ 31 := hinv.layout.totalPages ▸ hinv.small
  obtain ⟨hlayout, hcursor⟩ := op.exec_layout g.pmm hinv.cursor
  have hinitial : ∀ p, g.pmm.Free p → s₀.Free p := fun p hp => (hinv.cover p).mpr (Or.inl hp)
  have hnotlive : ∀ p, g.pmm.Free p → p ∉ g.live := fun p hp hlive => hinv.apart p hlive hp
  have hnonzero : ∀ p, g.pmm.Free p → p ≠ 0 := fun p hp h => hinv.zero (h ▸ hinitial p hp)
  have hlive : ∀ p ∈ g.live, p < g.pmm.totalPages := fun p hp => by
    have := ((hinv.cover p).mpr (Or.inr hp)).1
    rwa [hinv.layout.totalPages]
  cases op with
  | allocPage =>
    rcases pmmAllocPage_cases hinv.cursor with ⟨i, hfree, heq⟩ | ⟨hnone, heq⟩
    · have htaken : PmmOp.taken (i * 4096) .allocPage = {i} := by
        ext p
        have := hnonzero i hfree
        simp only [PmmOp.taken, Set.mem_ofPred_eq, Set.mem_singleton_iff]
        omega
      refine ⟨?_, ?_, fun _ hzero => ?_, hlayout, hcursor⟩
      · simp only [PmmOp.exec, heq, htaken]
        rintro p rfl
        exact ⟨hfree, hinitial p hfree, hnotlive p hfree⟩
      · simp only [PmmOp.exec, heq, htaken, PmmOp.given, Set.union_empty]
        exact takeFrame_freeSet hsmall (hfree.1.trans hsmall)
      · have := hnonzero i hfree
        simp only [PmmOp.exec, heq] at hzero
        omega
    · refine ⟨?_, ?_, fun _ _ => ?_, hlayout, hcursor⟩
      · simp [PmmOp.exec, heq, PmmOp.taken]
      · simp [PmmOp.exec, heq, PmmOp.taken, PmmOp.given]
      · simp only [PmmOp.exec, heq]
  | allocPages count =>
    by_cases hcount : count = 0
    · subst hcount
      have heq : pmmAllocPages g.pmm 0 = (0, g.pmm) := rfl
      refine ⟨?_, ?_, fun _ _ => ?_, hlayout, hcursor⟩
      · simp [PmmOp.exec, heq, PmmOp.taken]
      · simp [PmmOp.exec, heq, PmmOp.taken, PmmOp.given]
      · simp only [PmmOp.exec, heq]
    · rcases pmmAllocPages_cases hsmall (Nat.pos_of_ne_zero hcount) hinv.cursor with
        ⟨i, _, hhigh, hrange, haddr, hset, _⟩ | ⟨_, heq⟩
      · have hi : i ≠ 0 := hnonzero i (hrange i ⟨Nat.le_refl _, by omega⟩)
        have htaken : PmmOp.taken (i * 4096) (.allocPages count) = frameRange i count := by
          ext p
          simp only [PmmOp.taken, Set.mem_ofPred_eq, mem_frameRange,
            Nat.mul_div_cancel i (show 0 < 4096 by decide)]
          omega
        refine ⟨?_, ?_, fun _ hzero => ?_, hlayout, hcursor⟩
        · simp only [PmmOp.exec, haddr, htaken]
          intro p hp
          exact ⟨hrange p hp, hinitial p (hrange p hp), hnotlive p (hrange p hp)⟩
        · simp only [PmmOp.exec, haddr, htaken, PmmOp.given, Set.union_empty]
          exact hset
        · simp only [PmmOp.exec, haddr] at hzero
          omega
      · refine ⟨?_, ?_, fun _ _ => ?_, hlayout, hcursor⟩
        · simp [PmmOp.exec, heq, PmmOp.taken]
        · simp [PmmOp.exec, heq, PmmOp.taken, PmmOp.given]
        · simp only [PmmOp.exec, heq]
  | freePage phys =>
    refine ⟨by simp [PmmOp.taken], ?_, False.elim, hlayout, hcursor⟩
    simp only [PmmOp.exec, PmmOp.taken, PmmOp.given, Set.sdiff_empty, pmmFreePage_freeSet hsmall]
    congr 1
    ext p
    have := hlive (phys / 4096) (hlegal rfl)
    simp only [Set.mem_ofPred_eq, Set.mem_singleton_iff]
    omega
  | freePages phys count =>
    refine ⟨by simp [PmmOp.taken], ?_, False.elim, hlayout, hcursor⟩
    simp only [PmmOp.exec, PmmOp.taken, PmmOp.given, Set.sdiff_empty]
    by_cases hcount : count = 0
    · subst hcount
      ext p
      simp [pmmFreePages]
    · refine pmmFreePages_freeSet hsmall ?_
      have := hlive (phys / 4096 + count - 1) (hlegal ⟨by omega, by omega⟩)
      omega

/-- A legal step preserves the invariant. -/
theorem PmmInv.step {s₀ : Pmm} {g g' : PmmGhost} {op : PmmOp} (hinv : PmmInv s₀ g)
    (hstep : PmmLegalStep g op g') : PmmInv s₀ g' := by
  have hsafe := hinv.safe op hstep.legal
  have hfree : ∀ p, g'.pmm.Free p ↔
      (g.pmm.Free p ∧ p ∉ op.taken (op.exec g.pmm).1) ∨ p ∈ op.given := by
    intro p
    rw [hstep.pmm, ← Pmm.mem_freeSet, hsafe.change]
    rfl
  have hlive : ∀ p, p ∈ g'.live ↔
      (p ∈ g.live ∨ p ∈ op.taken (op.exec g.pmm).1) ∧ p ∉ op.given := by
    intro p
    rw [hstep.live]
    rfl
  refine ⟨hinv.small, ?_, ?_, hinv.zero, fun p => ?_, fun p hp => ?_⟩
  · rw [hstep.pmm]
    exact hinv.layout.trans hsafe.layout
  · rw [hstep.pmm, hsafe.layout.totalPages]
    exact hsafe.cursor
  · rw [hinv.cover p, hfree, hlive]
    have htaken := hsafe.fresh p
    have hgiven := fun h => hinv.apart p (hstep.legal (a := p) h)
    have hgiven' := fun h => hstep.legal (a := p) h
    by_cases h₁ : p ∈ op.taken (op.exec g.pmm).1 <;> by_cases h₂ : p ∈ op.given <;> simp_all
  · rw [hlive] at hp
    rw [hfree]
    rintro (⟨hfree, hkept⟩ | hgiven)
    · rcases hp.1 with hlive | htaken
      · exact hinv.apart p hlive hfree
      · exact hkept htaken
    · exact hp.2 hgiven

/-- The invariant holds when initialisation is done. -/
theorem pmmInv_init {m : MemoryMap} (hm : m.Bootable) {mem : ℤ → BitVec 8} {s₀ : Pmm}
    (hinit : initBitmapPmm m mem = some s₀) : PmmInv s₀ ⟨s₀, ∅⟩ := by
  obtain ⟨htotal, hcursor, _, _, hfree⟩ := initBitmapPmm_spec hm hinit
  refine ⟨htotal ▸ hm.totalPages_lt, SameLayout.refl s₀, by simp [hcursor], fun h => ?_, by simp,
    by simp⟩
  have : (0 : ℕ) ∈ s₀.freeSet := h
  rw [hfree] at this
  exact this.1 rfl

/-- Every legal run keeps the invariant. -/
theorem PmmInv.run {s₀ : Pmm} {g g' : PmmGhost} {ops : List PmmOp} (hinv : PmmInv s₀ g)
    (hrun : Run PmmLegalStep g ops g') : PmmInv s₀ g' :=
  hrun.invariant _ (fun _ _ _ h hstep => h.step hstep) hinv

/-- Safety of the frame manager over whole legal runs.

A frame that is handed out was free, lies wholly in a USABLE entry, is neither frame 0 nor a
frame of the bitmap, and is not live; the free set changes by exactly the frames handed out or
given back; a failed allocation leaves bitmap and cursor as they were. -/
theorem pmm_run_safe {m : MemoryMap} (hm : m.Bootable) {mem : ℤ → BitVec 8} {s₀ : Pmm}
    (hinit : initBitmapPmm m mem = some s₀) {ops : List PmmOp} {g : PmmGhost}
    (hrun : Run PmmLegalStep ⟨s₀, ∅⟩ ops g) (op : PmmOp) (hlegal : op.given ⊆ g.live) :
    (∀ p ∈ op.taken (op.exec g.pmm).1,
      g.pmm.Free p ∧ m.UsableFrame p ∧ p ≠ 0 ∧ ¬ s₀.BitmapFrame p ∧ p ∉ g.live) ∧
    (op.exec g.pmm).2.freeSet = (g.pmm.freeSet \ op.taken (op.exec g.pmm).1) ∪ op.given ∧
    (op.IsAlloc → (op.exec g.pmm).1 = 0 →
      (op.exec g.pmm).2.bitmap = g.pmm.bitmap ∧
        (op.exec g.pmm).2.cachedIndex = g.pmm.cachedIndex) := by
  have hsafe := ((pmmInv_init hm hinit).run hrun).safe op hlegal
  refine ⟨fun p hp => ?_, hsafe.change, fun halloc hzero => ?_⟩
  · obtain ⟨hfree, hinitial, hlive⟩ := hsafe.fresh p hp
    have hregion : p ∈ s₀.freeSet := hinitial
    rw [(initBitmapPmm_spec hm hinit).2.2.2.2] at hregion
    exact ⟨hfree, hregion.2.1, hregion.1, hregion.2.2, hlive⟩
  · rw [hsafe.failed halloc hzero]
    exact ⟨rfl, rfl⟩

/-- A small boot map: six USABLE frames, a hole, and one reserved frame. -/
def sixFrameMap : MemoryMap :=
  memmapInit [⟨0, 0x6000, .usable⟩, ⟨0x8000, 0x1000, .reserved⟩]

/-- The small map meets the boot loader's guarantees. -/
theorem sixFrameMap_bootable : sixFrameMap.Bootable := by
  refine ⟨?_, ?_, ?_, ?_⟩
  · simp [sixFrameMap, memmapInit]
  · simp only [sixFrameMap, memmapInit, List.take, List.pairwise_cons, List.mem_cons,
      List.not_mem_nil, or_false, forall_eq, List.Pairwise.nil, and_true, false_imp_iff, implies_true]
    omega
  · simp [sixFrameMap, memmapInit]
  · exact ⟨⟨0, 0x6000, .usable⟩, by simp [sixFrameMap, memmapInit], rfl, by decide⟩

/-- On the small map the first page handed out is frame 1, and its release is safe. -/
theorem pmm_run_safe_sixFrameMap :
    ∃ s₀ g, initBitmapPmm sixFrameMap (fun _ => 0#8) = some s₀ ∧
      Run PmmLegalStep ⟨s₀, ∅⟩ [.allocPage] g ∧ (PmmOp.exec s₀ .allocPage).1 = 4096 ∧
      (PmmOp.exec g.pmm (.freePage 4096)).2.freeSet =
        (g.pmm.freeSet \ PmmOp.taken 0 (.freePage 4096)) ∪ {1} := by
  obtain ⟨s₀, hinit⟩ := initBitmapPmm_isSome sixFrameMap_bootable (fun _ => 0#8)
  have hfirst : ((initBitmapPmm sixFrameMap (fun _ => 0#8)).map fun s => (pmmAllocPage s).1) =
      some 4096 := by decide +kernel
  rw [hinit, Option.map_some, Option.some.injEq] at hfirst
  have htaken : PmmOp.taken (PmmOp.exec s₀ .allocPage).1 .allocPage = {1} := by
    ext p
    simp [PmmOp.exec, hfirst, PmmOp.taken]
  have hrun : Run PmmLegalStep ⟨s₀, ∅⟩ [.allocPage] ⟨(pmmAllocPage s₀).2, {1}⟩ :=
    Run.single ⟨by simp [PmmOp.given], rfl, by simp [htaken, PmmOp.given]⟩
  exact ⟨s₀, _, hinit, hrun, hfirst,
    (pmm_run_safe sixFrameMap_bootable hinit hrun (.freePage 4096) (by simp [PmmOp.given])).2.1⟩

/-- A larger boot map: sixteen USABLE frames and, between them, one frame of ACPI tables. -/
def sixteenFrameMap : MemoryMap :=
  memmapInit [⟨0, 0x8000, .usable⟩, ⟨0x8000, 0x1000, .acpiReclaimable⟩, ⟨0x9000, 0x8000, .usable⟩]

/-- The larger map meets the boot loader's guarantees. -/
theorem sixteenFrameMap_bootable : sixteenFrameMap.Bootable := by
  refine ⟨?_, ?_, ?_, ?_⟩
  · simp [sixteenFrameMap, memmapInit]
  · simp only [sixteenFrameMap, memmapInit, List.take, List.pairwise_cons, List.mem_cons,
      List.not_mem_nil, or_false, forall_eq_or_imp, forall_eq, List.Pairwise.nil, and_true,
      false_imp_iff, implies_true]
    refine ⟨⟨?_, ?_⟩, ?_⟩
    all_goals
      intro _ x
      omega
  · simp [sixteenFrameMap, memmapInit]
  · exact ⟨⟨0, 0x8000, .usable⟩, by simp [sixteenFrameMap, memmapInit], rfl, by decide⟩

end Flos.Mm
