import Flos.Mm.PmmRuns

/-!
# When multi-page allocation finds an existing run

`pmm_alloc_page` scans from the cursor to the end and then wraps around; `pmm_alloc_pages`
stops at the end. The two scans agree only while no free frame is left below the cursor, and
a multi-page allocation that steps over a smaller hole leaves one there. The results state,
for every reachable state, exactly when the single scan is complete.
-/

namespace Flos.Mm

open Flos.Lib

/-- The search of `pmm_alloc_pages` reaches a run if there is one, and its address is not `0`.

Some run of `count` free frames starts at or behind the cursor whenever one exists, and the run
that the search would take does not start at frame 0. -/
def Pmm.RunInReach (s : Pmm) (count : ℕ) : Prop :=
  (∃ i, s.FreeRange i count) →
    (∃ i, s.cachedIndex ≤ i ∧ s.FreeRange i count) ∧ ¬ (s.cachedIndex = 0 ∧ s.FreeRange 0 count)

/-- The part of the invariant that holds whatever frames are given back. -/
structure Pmm.Bounded (s : Pmm) : Prop where
  small : s.totalPages < 2 ^ 31
  cursor : s.cachedIndex ≤ s.totalPages

/-- Every operation keeps the cursor inside the managed frames. -/
theorem Pmm.Bounded.step {s t : Pmm} {op : PmmOp} (h : s.Bounded) (hstep : PmmStep s op t) :
    t.Bounded := by
  obtain ⟨hlayout, hcursor⟩ := op.exec_layout s h.cursor
  rw [hstep]
  exact ⟨hlayout.totalPages ▸ h.small, hlayout.totalPages ▸ hcursor⟩

/-- Every state reachable from the initial one is bounded. -/
theorem Pmm.Bounded.of_run {m : MemoryMap} (hm : m.Bootable) {mem : ℤ → BitVec 8} {s₀ s : Pmm}
    (hinit : initBitmapPmm m mem = some s₀) {ops : List PmmOp} (hrun : Run PmmStep s₀ ops s) :
    s.Bounded := by
  obtain ⟨htotal, hcursor, _⟩ := initBitmapPmm_spec hm hinit
  exact hrun.invariant _ (fun _ _ _ h hstep => h.step hstep)
    ⟨htotal ▸ hm.totalPages_lt, by omega⟩

/-- A free range is a free run of the scan. -/
theorem Pmm.FreeRange.freeRun {s : Pmm} {i count : ℕ} (h : s.FreeRange i count) :
    FreeRun s.isClear count i :=
  fun q hq hq' => (h q ⟨hq, hq'⟩).2

/-- A free range at frame 0 is taken first when the cursor is at frame 0, and its address is `0`. -/
theorem pmmAllocPages_zero {s : Pmm} {count : ℕ} (hcount : 0 < count) (hcursor : s.cachedIndex = 0)
    (hrange : s.FreeRange 0 count) : (pmmAllocPages s count).1 = 0 := by
  have hlast := (hrange (count - 1) ⟨by omega, by omega⟩).1
  have hfound : findRun s.isClear count (s.totalPages - 0) (0 + 0) 0 0 = some 0 :=
    findRun_of_freeRun hrange.freeRun hcount (by omega)
  simp only [pmmAllocPages, if_neg (show ¬ count = 0 by omega), hcursor, hfound, Nat.zero_mul]

/-- `pmm_alloc_pages` returns `0` in exactly two situations: no run starts at or behind the
cursor, or the run it takes starts at frame 0. -/
theorem pmmAllocPages_eq_zero_iff {s : Pmm} (h : s.Bounded) {count : ℕ} (hcount : 0 < count) :
    (pmmAllocPages s count).1 = 0 ↔
      (∀ i, s.cachedIndex ≤ i → ¬ s.FreeRange i count) ∨
        (s.cachedIndex = 0 ∧ s.FreeRange 0 count) := by
  constructor
  · intro hzero
    rcases pmmAllocPages_cases h.small hcount h.cursor with
      ⟨i, hlow, _, hrange, haddr, _⟩ | ⟨hnone, _⟩
    · obtain rfl : i = 0 := by omega
      exact Or.inr ⟨by omega, hrange⟩
    · exact Or.inl hnone
  · rintro (hnone | ⟨hcursor, hrange⟩)
    · rcases pmmAllocPages_cases h.small hcount h.cursor with
        ⟨i, hlow, _, hrange, _⟩ | ⟨_, heq⟩
      · exact absurd hrange (hnone i hlow)
      · rw [heq]
    · exact pmmAllocPages_zero hcount hcursor hrange

/-- A range of one frame is a frame. -/
theorem Pmm.freeRange_one {s : Pmm} {i : ℕ} : s.FreeRange i 1 ↔ s.Free i := by
  constructor
  · exact fun h => h i ⟨Nat.le_refl _, by omega⟩
  · rintro h q ⟨hq, hq'⟩
    obtain rfl : q = i := by omega
    exact h

/-- `pmm_alloc_page` returns `0` in exactly two situations: no frame is free, or the frame it
takes is frame 0. -/
theorem pmmAllocPage_eq_zero_iff {s : Pmm} (h : s.Bounded) :
    (pmmAllocPage s).1 = 0 ↔
      s.freeSet = ∅ ∨
        (s.Free 0 ∧ (s.cachedIndex = 0 ∨ ∀ i, s.cachedIndex ≤ i → ¬ s.Free i)) := by
  have hcursor := h.cursor
  constructor
  · intro hzero
    rcases pmmAllocPage_cases h.cursor with ⟨i, hfree, heq⟩ | ⟨hnone, _⟩
    · have hi : i = 0 := by
        rw [heq] at hzero
        exact (Nat.mul_eq_zero.mp hzero).resolve_right (by decide)
      subst hi
      refine Or.inr ⟨hfree, ?_⟩
      cases hfound : findFree s.isClear (s.totalPages - s.cachedIndex) s.cachedIndex with
      | none =>
        refine Or.inr fun i hi hifree => ?_
        have hused := findFree_none hfound i hi (by have := hifree.1; omega)
        exact absurd hifree.2 (by simp [hused])
      | some j =>
        simp only [pmmAllocPage, hfound] at hzero
        have hj := (Nat.mul_eq_zero.mp hzero).resolve_right (by decide)
        have := (findFree_some hfound).1
        exact Or.inl (by omega)
    · exact Or.inl hnone
  · rintro (hnone | ⟨hfree, hcursor | hbehind⟩)
    · rcases pmmAllocPage_cases h.cursor with ⟨i, hfree, _⟩ | ⟨_, heq⟩
      · have : i ∈ s.freeSet := hfree
        simp [hnone] at this
      · rw [heq]
    · have hfound : findFree s.isClear (s.totalPages - 0) 0 = some 0 :=
        findFree_of_free hfree.2 (by have := hfree.1; omega)
      simp only [pmmAllocPage, hcursor, hfound, Nat.zero_mul]
    · have hpos : 0 < s.cachedIndex := by
        by_contra hle
        exact hbehind 0 (by omega) hfree
      have hfound : findFree s.isClear s.cachedIndex 0 = some 0 := findFree_of_free hfree.2 hpos
      cases hfirst : findFree s.isClear (s.totalPages - s.cachedIndex) s.cachedIndex with
      | none => simp only [pmmAllocPage, hfirst, hfound, Nat.zero_mul]
      | some j =>
        obtain ⟨hlow, hhigh, hclear, _⟩ := findFree_some hfirst
        exact absurd ⟨by omega, hclear⟩ (hbehind j hlow)

/-- When multi-page allocation is complete.

In every reachable state a failing `pmm_alloc_pages(count)` rules out a run of `count` free
frames if and only if the search reaches a run whenever there is one; and the one-page search
agrees with `pmm_alloc_page` if and only if a free frame, frame 0 aside, implies one at or
behind the cursor. -/
theorem pmmAllocPages_complete_iff {m : MemoryMap} (hm : m.Bootable) {mem : ℤ → BitVec 8}
    {s₀ s : Pmm} (hinit : initBitmapPmm m mem = some s₀) {ops : List PmmOp}
    (hrun : Run PmmStep s₀ ops s) {count : ℕ} (hcount : 0 < count) :
    (((pmmAllocPages s count).1 = 0 → ∀ i, ¬ s.FreeRange i count) ↔ s.RunInReach count) ∧
      (((pmmAllocPages s 1).1 ≠ 0 ↔ (pmmAllocPage s).1 ≠ 0) ↔
        ((∃ i, s.Free i) → ¬ s.Free 0 → ∃ i, s.cachedIndex ≤ i ∧ s.Free i)) := by
  have hbounded := Pmm.Bounded.of_run hm hinit hrun
  constructor
  · rw [pmmAllocPages_eq_zero_iff hbounded hcount]
    constructor
    · rintro hcomplete ⟨i, hrange⟩
      constructor
      · by_contra hbehind
        push Not at hbehind
        exact hcomplete (Or.inl hbehind) i hrange
      · exact fun hzero => hcomplete (Or.inr hzero) 0 hzero.2
    · rintro hreach (hbehind | hzero) i hrange
      · obtain ⟨⟨j, hj, hjrange⟩, _⟩ := hreach ⟨i, hrange⟩
        exact hbehind j hj hjrange
      · exact (hreach ⟨i, hrange⟩).2 hzero
  · rw [not_iff_not, pmmAllocPages_eq_zero_iff hbounded (by decide),
      pmmAllocPage_eq_zero_iff hbounded]
    simp only [Pmm.freeRange_one]
    constructor
    · rintro hagree ⟨i, hfree⟩ hzero
      by_contra hbehind
      push Not at hbehind
      rcases hagree.mp (Or.inl hbehind) with hnone | ⟨hfree0, _⟩
      · have : i ∈ s.freeSet := hfree
        simp [hnone] at this
      · exact hzero hfree0
    · intro hreach
      constructor
      · rintro (hbehind | hzero)
        · by_cases hnone : s.freeSet = ∅
          · exact Or.inl hnone
          · obtain ⟨i, hfree⟩ := Set.nonempty_iff_ne_empty.mpr hnone
            by_cases hzero : s.Free 0
            · exact Or.inr ⟨hzero, Or.inr hbehind⟩
            · obtain ⟨j, hj, hjfree⟩ := hreach ⟨i, hfree⟩ hzero
              exact absurd hjfree (hbehind j hj)
        · exact Or.inr ⟨hzero.2, Or.inl hzero.1⟩
      · rintro (hnone | ⟨hzero, hcursor | hbehind⟩)
        · refine Or.inl fun i _ hfree => ?_
          have : i ∈ s.freeSet := hfree
          simp [hnone] at this
        · exact Or.inr ⟨hcursor, hzero⟩
        · exact Or.inl hbehind

/-- The state after a list of operations. -/
def Pmm.runOps (s : Pmm) (ops : List PmmOp) : Pmm := ops.foldl (fun s op => (op.exec s).2) s

/-- Two pages are taken one by one, the first is given back, and a pair is taken behind it. -/
def steppedOverOps : List PmmOp := [.allocPage, .allocPage, .freePage 0x1000, .allocPages 2]

/-- Every list of operations is a plain run. -/
theorem Pmm.run_runOps (s : Pmm) (ops : List PmmOp) : Run PmmStep s ops (s.runOps ops) :=
  Run.of_foldl s ops

/-- On the small map this leaves frame 1 free below a cursor at frame 5. -/
theorem pmmAllocPages_complete_iff_sixFrameMap :
    ∃ s₀, initBitmapPmm sixFrameMap (fun _ => 0#8) = some s₀ ∧
      (((pmmAllocPages (s₀.runOps steppedOverOps) 2).1 = 0 →
          ∀ i, ¬ (s₀.runOps steppedOverOps).FreeRange i 2) ↔
        (s₀.runOps steppedOverOps).RunInReach 2) := by
  obtain ⟨s₀, hinit⟩ := initBitmapPmm_isSome sixFrameMap_bootable (fun _ => 0#8)
  exact ⟨s₀, hinit, (pmmAllocPages_complete_iff sixFrameMap_bootable hinit
    (s₀.run_runOps steppedOverOps) (by decide)).1⟩

/-- Multi-page allocation is not complete.

After the two single pages, the release of the first and the pair, one more page is taken from
behind the cursor. Frame 1 is then free, `pmm_alloc_pages(1)` returns `0`, and `pmm_alloc_page`
still returns frame 1. -/
theorem pmmAllocPages_incomplete :
    ∃ s₀ s, initBitmapPmm sixFrameMap (fun _ => 0#8) = some s₀ ∧
      Run PmmStep s₀ (steppedOverOps ++ [PmmOp.allocPages 1]) s ∧
      s.FreeRange 1 1 ∧ (pmmAllocPages s 1).1 = 0 ∧ (pmmAllocPage s).1 = 0x1000 := by
  obtain ⟨s₀, hinit⟩ := initBitmapPmm_isSome sixFrameMap_bootable (fun _ => 0#8)
  have hfinal : ((initBitmapPmm sixFrameMap (fun _ => 0#8)).map fun s =>
      let t := s.runOps (steppedOverOps ++ [PmmOp.allocPages 1])
      (decide (1 < t.totalPages), t.isClear 1, (pmmAllocPages t 1).1, (pmmAllocPage t).1)) =
      some (true, true, 0, 0x1000) := by decide +kernel
  rw [hinit, Option.map_some, Option.some.injEq] at hfinal
  simp only [Prod.mk.injEq, decide_eq_true_eq] at hfinal
  obtain ⟨hmanaged, hclear, hpages, hpage⟩ := hfinal
  exact ⟨s₀, _, hinit, s₀.run_runOps _, Pmm.freeRange_one.mpr ⟨hmanaged, hclear⟩, hpages, hpage⟩

end Flos.Mm
