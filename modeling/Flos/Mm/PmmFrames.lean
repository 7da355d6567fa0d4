import Flos.Mm.PmmRuns

/-!
# Which frames the frame manager has

At the start exactly the frames of the USABLE entries are free, without frame 0 and the frames of the bitmap.
From then on `pmm_alloc_page` finds a frame as long as there is one, whatever was taken and given back, since
both parts of its search together look at every frame and frame 0 is never free.
-/

namespace Flos.Mm

open Flos.Lib

/-! ## The start -/

/-- A managed frame has its bit in the bitmap. -/
theorem MemoryMap.Bootable.bit_lt {m : MemoryMap} (hm : m.Bootable) {mem : ℤ → BitVec 8} {s : Pmm}
    (hinit : initBitmapPmm m mem = some s) {p : ℕ} (hp : p < s.totalPages) : p / 8 < s.bitmap.size := by
  obtain ⟨htotal, -, hsize, -⟩ := initBitmapPmm_spec hm hinit
  have hbits := (le_bitmapBytes (htotal ▸ hm.totalPages_lt)).1
  rw [hsize]
  omega

/-- The bitmap lies in one USABLE entry. -/
theorem MemoryMap.Bootable.bitmap_inside {m : MemoryMap} (hm : m.Bootable) {mem : ℤ → BitVec 8} {s : Pmm}
    (hinit : initBitmapPmm m mem = some s) :
    ∃ e ∈ m.entries, e.type = .usable ∧ e.base ≤ s.bitmap.base ∧
      s.bitmap.base + s.bitmap.size ≤ e.base + e.length := by
  obtain ⟨htotal, -, hsize, hbase, -⟩ := initBitmapPmm_spec hm hinit
  obtain ⟨e, he, husable, hroom, hhome⟩ := hm.home
  rw [← htotal] at hroom hhome
  refine ⟨e, he, husable, ?_, ?_⟩
  · rw [hbase, hhome]
  · rw [hsize, hbase, hhome]
    exact Nat.add_le_add_left hroom _

/-- Initialisation marks exactly the right frames free: it finds a home for the bitmap inside one USABLE
entry, the free frames are the managed ones other than 0 that lie in a USABLE entry and not in that home,
and every managed frame has its bit in the bitmap. -/
theorem initBitmapPmm_marksFree {m : MemoryMap} (hm : m.Bootable) (mem : ℤ → BitVec 8) :
    ∃ s, initBitmapPmm m mem = some s ∧
      (∀ p, s.Free p ↔ 1 ≤ p ∧ p < s.totalPages ∧ m.UsableFrame p ∧ ¬ s.BitmapFrame p) ∧
      (∃ e ∈ m.entries, e.type = .usable ∧ e.base ≤ s.bitmap.base ∧
        s.bitmap.base + s.bitmap.size ≤ e.base + e.length) ∧
      ∀ p < s.totalPages, p / 8 < s.bitmap.size := by
  obtain ⟨s, hinit⟩ := initBitmapPmm_isSome hm mem
  obtain ⟨htotal, -, -, -, hfree⟩ := initBitmapPmm_spec hm hinit
  refine ⟨s, hinit, fun p => ?_, hm.bitmap_inside hinit, fun p => hm.bit_lt hinit⟩
  rw [← Pmm.mem_freeSet, hfree, Set.mem_ofPred_eq, ← Nat.one_le_iff_ne_zero]
  refine and_congr_right fun _ => ?_
  constructor
  · rintro ⟨husable, hout⟩
    exact ⟨htotal ▸ hm.usable_lt husable, husable, hout⟩
  · exact fun h => h.2

/-- On the small map frame 0 holds the bitmap and frames 1 to 5 are free. -/
theorem initBitmapPmm_marksFree_sixFrameMap :
    ∃ s, initBitmapPmm sixFrameMap (fun _ => 0#8) = some s ∧
      (∀ p, s.Free p ↔ 1 ≤ p ∧ p < s.totalPages ∧ sixFrameMap.UsableFrame p ∧ ¬ s.BitmapFrame p) ∧
      (∃ e ∈ sixFrameMap.entries, e.type = .usable ∧ e.base ≤ s.bitmap.base ∧
        s.bitmap.base + s.bitmap.size ≤ e.base + e.length) ∧
      ∀ p < s.totalPages, p / 8 < s.bitmap.size :=
  initBitmapPmm_marksFree sixFrameMap_bootable fun _ => 0#8

/-! ## Single pages -/

/-- A step that does not free frame 0. -/
def SparingStep (s : Pmm) (op : PmmOp) (t : Pmm) : Prop := 0 ∉ op.given ∧ PmmStep s op t

/-- Frame 0 is not free, and the cursor is in range. -/
structure Pmm.Searchable (s : Pmm) : Prop where
  small : s.totalPages < 2 ^ 31
  cursor : s.cachedIndex ≤ s.totalPages
  zero : ¬ s.Free 0

/-- A frame whose bit was set is not free. -/
theorem not_free_of_set (s : Pmm) : ¬ Pmm.Free { s with bitmap := bitmapSetBit s.bitmap 0 } 0 := by
  rintro ⟨-, hclear⟩
  have hset := bitmapCheckBit_set s.bitmap (show 0 < 2 ^ 31 by decide) (show 0 < 2 ^ 31 by decide)
  rw [decide_eq_true rfl, Bool.true_or] at hset
  rw [Pmm.isClear, Bool.not_eq_true'] at hclear
  cases hset.symm.trans hclear

/-- Initialisation takes frame 0 last, whatever the memory map. -/
theorem Pmm.Searchable.of_init {m : MemoryMap} {mem : ℤ → BitVec 8} {s : Pmm}
    (hinit : initBitmapPmm m mem = some s) (hsmall : s.totalPages < 2 ^ 31) : s.Searchable := by
  simp only [initBitmapPmm] at hinit
  split at hinit
  · cases hinit
  next =>
    obtain rfl := Option.some.inj hinit
    have hcursor := (freeUsableEntries_layout
      (bitmapHome (bitmapBytes (bytesToPages (highestAddr m.entries 0))) m.entries) m.entries
      ⟨highestAddr m.entries 0, ⟨bitmapBytes (bytesToPages (highestAddr m.entries 0)),
        bitmapHome (bitmapBytes (bytesToPages (highestAddr m.entries 0))) m.entries,
        fillOnes (bitmapBytes (bytesToPages (highestAddr m.entries 0))) mem⟩,
        bytesToPages (highestAddr m.entries 0), 0⟩).2
    exact ⟨hsmall, hcursor.trans (Nat.zero_le _), not_free_of_set _⟩

/-- A step that spares frame 0 does not make it free. -/
theorem Pmm.Searchable.step {s t : Pmm} {op : PmmOp} (h : s.Searchable) (hstep : SparingStep s op t) :
    t.Searchable := by
  obtain ⟨hspares, rfl⟩ := hstep
  obtain ⟨hlayout, hcursor⟩ := op.exec_layout s h.cursor
  refine ⟨hlayout.totalPages ▸ h.small, hlayout.totalPages ▸ hcursor, ?_⟩
  have hzero : (0 : ℕ) ∉ s.freeSet := h.zero
  cases op with
  | allocPage =>
    rcases pmmAllocPage_cases h.cursor with ⟨i, hfree, heq⟩ | ⟨-, heq⟩
    · simp only [PmmOp.exec, heq]
      change (0 : ℕ) ∉ (s.takeFrame i).freeSet
      rw [takeFrame_freeSet h.small (hfree.1.trans h.small)]
      exact fun hmem => hzero hmem.1
    · simp only [PmmOp.exec, heq]
      exact h.zero
  | allocPages count =>
    change (0 : ℕ) ∉ (pmmAllocPages s count).2.freeSet
    by_cases hcount : 0 < count
    · rcases pmmAllocPages_cases h.small hcount h.cursor with ⟨i, -, -, -, -, hset, -⟩ | ⟨-, heq⟩
      · rw [hset]
        exact fun hmem => hzero hmem.1
      · rw [heq]
        exact hzero
    · rw [pmmAllocPages, if_pos (by omega)]
      exact hzero
  | freePage phys =>
    change (0 : ℕ) ∉ (pmmFreePage s phys).freeSet
    rw [pmmFreePage_freeSet h.small]
    rintro (hmem | ⟨hmem, -⟩)
    · exact hzero hmem
    · exact hspares hmem
  | freePages phys count =>
    change ¬ (pmmFreePages s phys count).Free 0
    have hpos : count = 0 ∨ 1 ≤ phys / 4096 := by
      by_contra hne
      exact hspares ⟨by omega, by omega⟩
    rw [pmmFreePages]
    split
    next => exact h.zero
    next hcount =>
      dsimp only
      split
      next => exact h.zero
      next hmanaged =>
        -- the range starts behind frame 0
        have hsmall := h.small
        have hlow : 1 ≤ phys / pageSize := hpos.resolve_left hcount
        have hpositive : 0 < s.totalPages := by omega
        rintro ⟨-, hclear⟩
        rw [Pmm.isClear, bitmapCheckBit_unsetRange s.bitmap (by split <;> omega) (by decide),
          decide_eq_false (fun hin => by omega), Bool.not_false, Bool.true_and] at hclear
        exact h.zero ⟨hpositive, hclear⟩

/-- In every state that is reached without freeing frame 0, single-page allocation is complete: the cursor
is in range, the result is 0 exactly if all managed frames are marked used, and any other result is the
address of a free frame other than frame 0. -/
theorem pmmAllocPage_complete {m : MemoryMap} {mem : ℤ → BitVec 8} {s₀ s : Pmm}
    (hinit : initBitmapPmm m mem = some s₀) (hsmall : s₀.totalPages < 2 ^ 31) {ops : List PmmOp}
    (hrun : Run SparingStep s₀ ops s) :
    s.cachedIndex ≤ s.totalPages ∧
      ((pmmAllocPage s).1 = 0 ↔ ∀ p < s.totalPages, s.isClear p = false) ∧
      ((pmmAllocPage s).1 ≠ 0 → ∃ p, p ≠ 0 ∧ s.Free p ∧ (pmmAllocPage s).1 = p * 4096) := by
  have h := hrun.invariant Pmm.Searchable (fun _ _ _ h hstep => h.step hstep) (.of_init hinit hsmall)
  have hused : s.freeSet = ∅ ↔ ∀ p < s.totalPages, s.isClear p = false := by
    rw [Set.eq_empty_iff_forall_notMem]
    exact forall_congr' fun p => by simp [Pmm.Free]
  rw [← hused]
  rcases pmmAllocPage_cases h.cursor with ⟨i, hfree, heq⟩ | ⟨hnone, heq⟩
  · have hi : i ≠ 0 := fun hi => h.zero (hi ▸ hfree)
    rw [heq]
    refine ⟨h.cursor, iff_of_false (by omega) fun hnone => ?_, fun _ => ⟨i, hi, hfree, rfl⟩⟩
    exact hnone.le hfree
  · rw [heq]
    exact ⟨h.cursor, iff_of_true rfl hnone, fun hsome => absurd rfl hsome⟩

/-- On the small map frame 1 is taken after it was taken and given back. -/
theorem pmmAllocPage_complete_sixFrameMap :
    ∃ s₀ s, initBitmapPmm sixFrameMap (fun _ => 0#8) = some s₀ ∧
      Run SparingStep s₀ [.allocPage, .freePage 0x1000] s ∧ s.cachedIndex ≤ s.totalPages ∧
      ((pmmAllocPage s).1 = 0 ↔ ∀ p < s.totalPages, s.isClear p = false) ∧
      ((pmmAllocPage s).1 ≠ 0 → ∃ p, p ≠ 0 ∧ s.Free p ∧ (pmmAllocPage s).1 = p * 4096) := by
  obtain ⟨s₀, hinit⟩ := initBitmapPmm_isSome sixFrameMap_bootable (fun _ => 0#8)
  have hrun : Run SparingStep s₀ [.allocPage, .freePage 0x1000] (pmmFreePage (pmmAllocPage s₀).2 0x1000) :=
    ((Run.nil s₀).snoc ⟨id, rfl⟩).snoc ⟨by simp [PmmOp.given], rfl⟩
  have hsmall := (initBitmapPmm_spec sixFrameMap_bootable hinit).1 ▸ sixFrameMap_bootable.totalPages_lt
  exact ⟨s₀, _, hinit, hrun, pmmAllocPage_complete hinit hsmall hrun⟩

end Flos.Mm
