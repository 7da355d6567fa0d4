import Flos.Mm.HugePages

/-!
# Mapping without huge pages

A mapping that may not use huge pages blocks nothing, and it stops at the first page that a huge page
blocks. Whatever a mapping does, it blocks nothing outside its range.
-/

namespace Flos.Mm

open Flos.Lib

/-- Whether an address is blocked is a question about its 2 MiB. -/
theorem blocked_congr {mem : ℕ → Fin 512 → ℕ} {root x y : ℕ} (h : x / 2 ^ 21 = y / 2 ^ 21) :
    Blocked mem root x ↔ Blocked mem root y := by
  have hpath : tablePath x = tablePath y := by
    simp only [tablePath, pml4Idx, pdptIdx, pdIdx, List.cons.injEq, and_true, tableIdx_eq_iff]
    omega
  rw [Blocked, Blocked, hpath]

section Outside

variable {S : Type*} {A : KernelAlloc S} {Ok : S → Prop} {frames : S → Set ℕ} {root : ℕ}
  {s : Machine S} (hA : A.LawfulPages Ok frames)

include hA

/-- A leaf blocks nothing but what is behind its slot, also when its walk fails. -/
theorem mapLeaf_hugeOnPath_outside {path q : List (Fin 512)} {index : Fin 512} {entry size : ℕ}
    (hs : PtState Ok frames root s) (hlen : path.length ≤ 3)
    (hend : tableEntry entry = none ∨ path.length = 3) (hpresent : entry.testBit 0 = true)
    (hq : q.length ≤ 3) (hout : ¬ path ++ [index] <+: q) :
    hugeOnPath (mapLeaf A root path index entry size s).2.mem root q = hugeOnPath s.mem root q := by
  obtain ⟨hs', -, hreach⟩ := descend_spec hA hs hlen
  have hsame := descend_hugeOnPath hA hs hlen hq
  rw [mapLeaf]
  rcases hr : descend A true root path s with ⟨_ | t, s'⟩
  all_goals rw [hr] at hs' hreach hsame
  · exact hsame
  · rw [hugeOnPath_writeSlot hs'.table hlen (hreach t rfl) hend hpresent hq, if_neg hout]
    exact hsame

variable {virt phys : ℕ} (flags : ℕ)

/-- A small page blocks nothing. -/
theorem map_blocked_outside (hs : PtState Ok frames root s) (hphys : 4096 ∣ phys) (hlt : phys < 2 ^ 52)
    (x : ℕ) :
    Blocked (map A root virt phys (parseCommonFlags flags) s).2.mem root x ↔
      Blocked s.mem root x := by
  have hout : ¬ [pml4Idx virt, pdptIdx virt, pdIdx virt] ++ [ptIdx virt] <+: tablePath x := by
    intro hpre
    have hlen := hpre.length_le
    simp at hlen
  rw [Blocked, map, mapLeaf_hugeOnPath_outside hA hs (by simp) (.inr rfl)
    (leafEntry_small flags hphys hlt).present le_rfl hout]
  rfl

/-- An iteration of `pmap_map_range` blocks nothing outside what remains. -/
theorem mapStep_blocked_outside {remain x : ℕ} (hs : PtState Ok frames root s) (hphys : 4096 ∣ phys)
    (hremain : 4096 ≤ remain) (hlt : phys + remain ≤ 2 ^ 52) (hhalf : InOneHalf virt remain)
    (hx : Canonical x) (hout : x < virt ∨ virt + remain ≤ x) :
    Blocked (mapStep A root flags (parseCommonFlags flags) virt phys remain s).2.mem root x ↔
      Blocked s.mem root x := by
  have hcanon : Canonical virt := by
    simp only [InOneHalf] at hhalf
    simp only [Canonical]
    omega
  have hphyslt : phys < 2 ^ 52 := by omega
  have hleaf := leafEntry_huge flags hphys hphyslt
  have hmap : Blocked (map A root virt phys (parseCommonFlags flags) s).2.mem root x ↔
      Blocked s.mem root x := map_blocked_outside hA flags hs hphys hphyslt x
  rw [mapStep]
  split_ifs
  · rw [mapHugeOk]
    split_ifs with h1G h2M
    · obtain ⟨-, hv, hr⟩ := h1G
      rw [Blocked, map1g, mapLeaf_hugeOnPath_outside hA hs (by simp) (.inl hleaf.tableEntry_huge)
        hleaf.present le_rfl]
      · rfl
      · rw [isPrefix_tablePath_iff (by simp), pathOf_prefix_page1G hcanon hx (Nat.dvd_of_mod_eq_zero hv)]
        simp only [pageSize1G] at hr
        omega
    · obtain ⟨-, hv, hr⟩ := h2M
      rw [Blocked, map2m, mapLeaf_hugeOnPath_outside hA hs (by simp) (.inl hleaf.tableEntry_huge)
        hleaf.present le_rfl]
      · rfl
      · rw [isPrefix_tablePath_iff (by simp), pathOf_prefix_page2M hcanon hx (Nat.dvd_of_mod_eq_zero hv)]
        simp only [pageSize2M] at hr
        omega
    · exact hmap
  · exact hmap

/-- The loop of `pmap_map_range` blocks nothing outside its range. -/
theorem mapRangeLoop_blocked_outside (fuel mapped : ℕ) {remain x : ℕ} (hs : PtState Ok frames root s)
    (hvirt : 4096 ∣ virt) (hphys : 4096 ∣ phys) (hremain : 4096 ∣ remain)
    (hlt : phys + remain ≤ 2 ^ 52) (hhalf : InOneHalf virt remain) (hx : Canonical x)
    (hout : x < virt ∨ virt + remain ≤ x) :
    Blocked (mapRangeLoop A root flags (parseCommonFlags flags) fuel virt phys remain mapped s).2.mem root
        x ↔ Blocked s.mem root x := by
  induction fuel generalizing virt phys remain mapped s with
  | zero => exact Iff.rfl
  | succ fuel ih =>
    rw [mapRangeLoop_succ]
    by_cases hzero : remain = 0
    · rw [if_pos hzero]
    · have hsize := mapStep_size A root flags (parseCommonFlags flags) virt phys remain (by omega) s
      have hstep := mapStep_blocked_outside hA flags hs hphys (by omega) hlt hhalf hx hout
      obtain ⟨hs', -⟩ := mapStep_spec hA flags hs hvirt hphys (by omega) hlt hhalf
      rw [if_neg hzero]
      generalize mapStep A root flags (parseCommonFlags flags) virt phys remain s = r at *
      split
      · exact hstep
      · by_cases hlast : remain - r.1 = 0
        · rw [hlast, mapRangeLoop_done]
          exact hstep
        · simp only [InOneHalf] at hhalf
          rw [Nat.mod_eq_of_lt (by simp only [wordSize]; omega),
            Nat.mod_eq_of_lt (by simp only [wordSize]; omega)]
          exact (ih _ hs' (by omega) (by omega) (by omega) (by omega)
            (by simp only [InOneHalf]; omega) (by omega)).trans hstep

end Outside

section Small

variable {S : Type*} {A : KernelAlloc S} {Ok : S → Prop} {frames : S → Set ℕ} {root : ℕ}
  {s : Machine S} (hA : A.LawfulPages Ok frames) {flags : ℕ} (hsmall : flags &&& mmuFlagHugeOk = 0)

include hA hsmall

/-- Without huge pages the loop of `pmap_map_range` maps up to the first page that is blocked, unless an
allocation fails. -/
theorem mapRangeLoop_small {fuel virt phys remain : ℕ} (mapped : ℕ) (hs : PtState Ok frames root s)
    (hvirt : 4096 ∣ virt) (hphys : 4096 ∣ phys) (hremain : 4096 ∣ remain) (hfuel : remain ≤ fuel * 4096)
    (hlt : phys + remain ≤ 2 ^ 52) (hhalf : InOneHalf virt remain)
    (hsucc : ¬ Failed s
      (mapRangeLoop A root flags (parseCommonFlags flags) fuel virt phys remain mapped s).2) :
    ∃ m s', mapRangeLoop A root flags (parseCommonFlags flags) fuel virt phys remain mapped s =
        (mapped + m, s') ∧
      m ≤ remain ∧ (m = remain ∨ Blocked s.mem root (virt + m)) ∧
      (∀ x, virt ≤ x → x < virt + m → ¬ Blocked s.mem root x) ∧
      ∀ x, Blocked s'.mem root x ↔ Blocked s.mem root x := by
  induction fuel generalizing virt phys remain mapped s with
  | zero =>
    obtain rfl : remain = 0 := by omega
    exact ⟨0, s, rfl, le_rfl, .inl rfl, by omega, fun _ => Iff.rfl⟩
  | succ fuel ih =>
    rw [mapRangeLoop_succ] at hsucc ⊢
    by_cases hzero : remain = 0
    · rw [if_pos hzero]
      exact ⟨0, s, rfl, by omega, .inl hzero.symm, by omega, fun _ => Iff.rfl⟩
    have hstep : mapStep A root flags (parseCommonFlags flags) virt phys remain s =
        map A root virt phys (parseCommonFlags flags) s := by
      rw [mapStep, if_neg (not_not_intro hsmall)]
    rw [if_neg hzero, hstep] at hsucc ⊢
    have hhalf' : InOneHalf virt 4096 := by
      simp only [InOneHalf] at hhalf ⊢
      omega
    obtain ⟨hs', -⟩ := map_spec hA flags hs hvirt hphys (by omega) hhalf'
    have hlog := (callInvariant_log A s.log).mapLeaf root [pml4Idx virt, pdptIdx virt, pdIdx virt]
      (ptIdx virt) (phys ||| parseCommonFlags flags) pageSize List.prefix_rfl
    have hfail : ¬ Failed s (map A root virt phys (parseCommonFlags flags) s).2 := by
      intro hfail
      refine hsucc (hfail.extend List.prefix_rfl ?_)
      split
      · exact List.prefix_rfl
      · exact (callInvariant_log A _).mapRangeLoop _ _ _ _ _ _ _ _ List.prefix_rfl
    obtain ⟨hstop, hgo, hsame⟩ := map_blocked hA flags hs hphys (by omega) hfail
    by_cases hblocked : Blocked s.mem root virt
    · rw [if_pos (hstop hblocked)]
      exact ⟨0, _, rfl, by omega, .inr hblocked, by omega, hsame⟩
    rw [if_neg (by rw [hgo hblocked]; decide), hgo hblocked] at hsucc ⊢
    have hpage : ∀ x, virt ≤ x → x < virt + 4096 → ¬ Blocked s.mem root x := fun x h1 h2 =>
      (blocked_congr (by omega)).not.mpr hblocked
    by_cases hlast : remain = 4096
    · rw [hlast, Nat.sub_self, mapRangeLoop_done]
      exact ⟨4096, _, rfl, le_rfl, .inl rfl, hpage, hsame⟩
    simp only [InOneHalf] at hhalf
    rw [Nat.mod_eq_of_lt (by simp only [wordSize]; omega),
      Nat.mod_eq_of_lt (by simp only [wordSize]; omega)] at hsucc ⊢
    obtain ⟨m, s', hrun, hm, hend, hfree, hfinal⟩ := ih (mapped + 4096) hs' (by omega) (by omega)
      (by omega) (by omega) (by omega) (by simp only [InOneHalf]; omega)
      fun h => hsucc (h.extend hlog List.prefix_rfl)
    refine ⟨4096 + m, s', by rw [hrun, Nat.add_assoc], by omega, ?_, fun x h1 h2 => ?_, fun x =>
      (hfinal x).trans (hsame x)⟩
    · rcases hend with hend | hend
      · exact .inl (by omega)
      · rw [hsame, Nat.add_assoc] at hend
        exact .inr hend
    · by_cases hx : x < virt + 4096
      · exact hpage x h1 hx
      · exact (hsame x).not.mp (hfree x (by omega) (by omega))

end Small

section Ranges

variable {S : Type*} {A : KernelAlloc S} {Ok : S → Prop} {frames : S → Set ℕ} {root : ℕ}
  {s : Machine S} (hA : A.LawfulPages Ok frames) {virt phys len : ℕ} (hvirt : virt < wordSize)
  (hhalf : InOneHalf virt len) (hphys : phys / 4096 * 4096 + (pageCeil (virt + len) -
    virt / 4096 * 4096) ≤ 2 ^ 52)

include hvirt hhalf in
/-- The loop that `pmap_map_range` runs for a range inside one canonical half. -/
theorem pmapMapRange_eq (hlt : phys < wordSize) (A : KernelAlloc S) (root flags : ℕ) (s : Machine S) :
    pmapMapRange A root virt phys flags len s =
      mapRangeLoop A root flags (parseCommonFlags flags)
        ((pageCeil (virt + len) - virt / 4096 * 4096) / 4096) (virt / 4096 * 4096)
        (phys / 4096 * 4096) (pageCeil (virt + len) - virt / 4096 * 4096) 0 s ∧
      InOneHalf (virt / 4096 * 4096) (pageCeil (virt + len) - virt / 4096 * 4096) := by
  have hround := roundedLength_eq hvirt hhalf
  rw [pmapMapRange, hround, alignDown_page hvirt, alignDown_page hlt]
  refine ⟨rfl, ?_⟩
  simp only [InOneHalf, pageCeil] at hhalf ⊢
  omega

include hA hvirt hhalf hphys

/-- Mapping a range overlays the translations of some of its pages, from the first one on, and blocks
nothing outside its pages. -/
theorem pmapMapRange_overlay (flags : ℕ) (hs : PtState Ok frames root s) :
    ∃ m s', pmapMapRange A root virt phys flags len s = (m, s') ∧
      m ≤ pageCeil (virt + len) - virt / 4096 * 4096 ∧ PtState Ok frames root s' ∧
      Overlay s.mem s'.mem root (virt / 4096 * 4096) (phys / 4096 * 4096) m (flagsAccess flags) ∧
      ∀ va, Canonical va → va < virt / 4096 * 4096 ∨ pageCeil (virt + len) ≤ va →
        (Blocked s'.mem root va ↔ Blocked s.mem root va) := by
  have hlt : phys < wordSize := by
    simp only [wordSize]
    omega
  obtain ⟨heq, hhalf'⟩ := pmapMapRange_eq hvirt hhalf hlt A root flags s
  have hceil : 4096 ∣ pageCeil (virt + len) - virt / 4096 * 4096 :=
    Nat.dvd_sub (Nat.dvd_mul_left _ _) (Nat.dvd_mul_left _ _)
  have hblocked := fun x => @mapRangeLoop_blocked_outside _ _ _ _ _ _ hA _ _ flags
    ((pageCeil (virt + len) - virt / 4096 * 4096) / 4096) 0 _ x hs (Nat.dvd_mul_left _ _)
    (Nat.dvd_mul_left _ _) hceil hphys hhalf'
  obtain ⟨m, s', hrun, hm, hs', hover⟩ := mapRangeLoop_spec hA flags
    ((pageCeil (virt + len) - virt / 4096 * 4096) / 4096) _ _ _ 0 hs (Nat.dvd_mul_left _ _)
    (Nat.dvd_mul_left _ _) hceil hphys hhalf'
  rw [hrun] at hblocked
  exact ⟨m, s', by rw [heq, hrun, Nat.zero_add], hm, hs', hover, fun va hcanon hva =>
    hblocked va hcanon (by omega)⟩

/-- Mapping a range without huge pages maps the pages up to the first one that is blocked. -/
theorem pmapMapRange_small {flags : ℕ} (hsmall : flags &&& mmuFlagHugeOk = 0)
    (hs : PtState Ok frames root s)
    (hsucc : ¬ Failed s (pmapMapRange A root virt phys flags len s).2) :
    ∃ m s', pmapMapRange A root virt phys flags len s = (m, s') ∧
      m ≤ pageCeil (virt + len) - virt / 4096 * 4096 ∧
      (m = pageCeil (virt + len) - virt / 4096 * 4096 ∨
        Blocked s.mem root (virt / 4096 * 4096 + m)) ∧
      (∀ x, virt / 4096 * 4096 ≤ x → x < virt / 4096 * 4096 + m → ¬ Blocked s.mem root x) ∧
      (∀ x, Blocked s'.mem root x ↔ Blocked s.mem root x) ∧ PtState Ok frames root s' ∧
      Overlay s.mem s'.mem root (virt / 4096 * 4096) (phys / 4096 * 4096) m (flagsAccess flags) := by
  have hlt : phys < wordSize := by
    simp only [wordSize]
    omega
  obtain ⟨heq, hhalf'⟩ := pmapMapRange_eq hvirt hhalf hlt A root flags s
  have hceil : 4096 ∣ pageCeil (virt + len) - virt / 4096 * 4096 :=
    Nat.dvd_sub (Nat.dvd_mul_left _ _) (Nat.dvd_mul_left _ _)
  rw [heq] at hsucc ⊢
  obtain ⟨m, s', hrun, hm, hend, hfree, hsame⟩ := mapRangeLoop_small hA hsmall 0 hs
    (Nat.dvd_mul_left _ _) (Nat.dvd_mul_left _ _) hceil (by omega) hphys hhalf' hsucc
  obtain ⟨m', s'', hrun', -, hs', hover⟩ := mapRangeLoop_spec hA flags
    ((pageCeil (virt + len) - virt / 4096 * 4096) / 4096) _ _ _ 0 hs (Nat.dvd_mul_left _ _)
    (Nat.dvd_mul_left _ _) hceil hphys hhalf'
  obtain ⟨hmm, rfl⟩ := Prod.mk.inj (hrun.symm.trans hrun')
  obtain rfl : m = m' := by omega
  exact ⟨m, s', by rw [hrun, Nat.zero_add], hm, hend, hfree, hsame, hs', hover⟩

/-- Where nothing is blocked a range is mapped whole. -/
theorem pmapMapRange_free {flags : ℕ} (hsmall : flags &&& mmuFlagHugeOk = 0)
    (hs : PtState Ok frames root s)
    (hfree : ∀ x, virt / 4096 * 4096 ≤ x → x < pageCeil (virt + len) → ¬ Blocked s.mem root x)
    (hsucc : ¬ Failed s (pmapMapRange A root virt phys flags len s).2) :
    PtState Ok frames root (pmapMapRange A root virt phys flags len s).2 ∧
      Overlay s.mem (pmapMapRange A root virt phys flags len s).2.mem root (virt / 4096 * 4096)
        (phys / 4096 * 4096) (pageCeil (virt + len) - virt / 4096 * 4096) (flagsAccess flags) ∧
      ∀ x, Blocked (pmapMapRange A root virt phys flags len s).2.mem root x ↔
        Blocked s.mem root x := by
  obtain ⟨m, s', hrun, hm, hend, -, hsame, hs', hover⟩ :=
    pmapMapRange_small hA hvirt hhalf hphys hsmall hs hsucc
  have hwhole : m = pageCeil (virt + len) - virt / 4096 * 4096 := by
    rcases hend with hend | hend
    · exact hend
    · have hlast := mt (hfree (virt / 4096 * 4096 + m) (Nat.le_add_right _ _)) (not_not_intro hend)
      omega
  rw [hrun, ← hwhole]
  exact ⟨hs', hover, hsame⟩

end Ranges

end Flos.Mm
