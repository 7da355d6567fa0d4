import Flos.Mm.Firmware
import Flos.Mm.FreeRegion
import Flos.Mm.SmallPages
import Flos.Mm.WalkOutcome

/-!
# Leaves added and removed

Mapping without huge pages adds 4 KiB leaves in its range and changes no translation outside of it.
Unmapping, with or without giving back frames, removes 4 KiB leaves of its range and touches nothing that
stays translated. Neither needs to know what was in the range before.
-/

namespace Flos.Mm

open Flos.Lib

/-! ## Adding -/

/-- Nothing outside the range is translated differently, 4 KiB leaves stay 4 KiB leaves, and what is newly
translated is translated by one. -/
structure AddsPages (root lo hi : ℕ) (mem mem' : ℕ → Fin 512 → ℕ) : Prop where
  outside : ∀ x, ¬ (lo ≤ x ∧ x < hi) → translate mem' root x = translate mem root x
  small : ∀ x f, SmallLeaf mem root x f → ∃ g, SmallLeaf mem' root x g
  added : ∀ x, translate mem root x = none → translate mem' root x ≠ none → ∃ f, SmallLeaf mem' root x f

namespace AddsPages

variable {root lo hi : ℕ} {mem mem' mem'' : ℕ → Fin 512 → ℕ}

/-- Doing nothing adds nothing. -/
theorem refl (root lo hi : ℕ) (mem : ℕ → Fin 512 → ℕ) : AddsPages root lo hi mem mem :=
  ⟨fun _ _ => rfl, fun _ f h => ⟨f, h⟩, fun _ hnone hsome => absurd hnone hsome⟩

/-- Two additions one after the other. -/
theorem trans (h : AddsPages root lo hi mem mem') (h' : AddsPages root lo hi mem' mem'') :
    AddsPages root lo hi mem mem'' := by
  refine ⟨fun x hx => (h'.outside x hx).trans (h.outside x hx), fun x f hleaf => ?_,
    fun x hnone hsome => ?_⟩
  · obtain ⟨g, hg⟩ := h.small x f hleaf
    exact h'.small x g hg
  · by_cases hmid : translate mem' root x = none
    · exact h'.added x hmid hsome
    · obtain ⟨f, hf⟩ := h.added x hnone hmid
      exact h'.small x f hf

/-- An addition to a range is one to every larger range. -/
theorem mono (h : AddsPages root lo hi mem mem') {lo' hi' : ℕ} (hlo : lo' ≤ lo) (hhi : hi ≤ hi') :
    AddsPages root lo' hi' mem mem' :=
  ⟨fun x hx => h.outside x (by omega), h.small, h.added⟩

/-- What was not translated in the range before is all that has changed. -/
theorem kept (h : AddsPages root lo hi mem mem') (hunused : ∀ x, lo ≤ x → x < hi → translate mem root x = none)
    {x : ℕ} (hx : translate mem root x ≠ none) : translate mem' root x = translate mem root x :=
  h.outside x fun hin => hx (hunused x hin.1 hin.2)

end AddsPages

section Mapping

variable {S : Type*} {A : KernelAlloc S} {Ok : S → Prop} {frames : S → Set ℕ} {root : ℕ}
  {s : Machine S} (hA : A.LawfulPages Ok frames)

include hA

/-- A walk keeps every table at its path, also when it fails. -/
theorem descend_tableAt {path q : List (Fin 512)} {u : ℕ} (hs : PtState Ok frames root s)
    (hlen : path.length ≤ 3) (hq : q.length ≤ 3) (hu : tableAt tableEntry s.mem root q = some u) :
    tableAt tableEntry (descend A true root path s).2.mem root q = some u := by
  have hstep : ∀ p t i s', p.length < 3 →
      (PtState Ok frames root s' ∧ tableAt tableEntry s'.mem root q = some u) →
      tableAt tableEntry s'.mem root p = some t →
      (PtState Ok frames root (getNextLevel A t i true s').2 ∧
        tableAt tableEntry (getNextLevel A t i true s').2.mem root q = some u) ∧
      ∀ g, (getNextLevel A t i true s').1 = some g →
        tableAt tableEntry (getNextLevel A t i true s').2.mem root (p ++ [i]) = some g := by
    intro p t i s' hp ⟨hs', hu'⟩ ht
    obtain ⟨⟨hs'', -⟩, hnext⟩ := getNextLevel_spec hA i hs' (Nat.le_of_lt_succ hp) ht
    refine ⟨⟨hs'', ?_⟩, hnext⟩
    rcases getNextLevel_cases A t i s' with ⟨f, -, hr⟩ | ⟨-, hr⟩ | ⟨-, -, hr⟩ | ⟨hclear, hnew, hr⟩
    all_goals rw [hr]
    · exact hu'
    · exact hu'
    · exact hu'
    · obtain ⟨hdvd, hlt⟩ := hA.allocPage_addr _ hs'.ok
      refine (hs'.table.tableAt_linkTable (Nat.le_of_lt_succ hp) ht hclear
        (hA.allocPage_fresh _ hs'.ok hnew) hdvd hlt (Nat.le_succ_of_le hq)).trans ?_
      -- the slot of the new table led nowhere
      rw [if_neg, hu']
      rintro rfl
      rw [tableAt_append_of_some ht, tableAt_cons_none (tableEntry_of_clear hclear)] at hu'
      cases hu'
  exact (descend_invariant A hstep path [] root s (by simpa using hlen) ⟨hs, hu⟩ rfl).1.2

/-- A walk keeps 4 KiB leaves. -/
theorem SmallLeaf.descend {path : List (Fin 512)} {x f : ℕ} (h : SmallLeaf s.mem root x f)
    (hs : PtState Ok frames root s) (hlen : path.length ≤ 3) :
    SmallLeaf (descend A true root path s).2.mem root x f := by
  obtain ⟨-, hsame, -⟩ := descend_spec hA hs hlen
  obtain ⟨u, hu, -⟩ := (smallLeaf_iff h.canonical).mp h
  refine ⟨?_, ?_⟩
  · exact (walkEntries_concat_length_iff (p := [pml4Idx x, pdptIdx x, pdIdx x])).mpr
      ⟨u, descend_tableAt hA hs hlen le_rfl hu⟩
  · rw [hsame]
    exact h.2

/-- Mapping a page adds at most its leaf. -/
theorem map_addsPages {virt archFlags : ℕ} (phys : ℕ) (hs : PtState Ok frames root s) (hvirt : 4096 ∣ virt)
    (hcanon : Canonical virt) (hpresent : archFlags.testBit 0 = true) :
    AddsPages root virt (virt + 4096) s.mem (map A root virt phys archFlags s).2.mem := by
  have hlen : (tablePath virt).length ≤ 3 := le_rfl
  obtain ⟨hs', hsame, hreach⟩ := descend_spec hA hs hlen
  have hleaves := fun {x f} (h : SmallLeaf s.mem root x f) => h.descend hA hs hlen
  rw [map, mapLeaf]
  rcases hr : descend A true root (tablePath virt) s with ⟨_ | t, s'⟩
  all_goals rw [hr] at hs' hsame hreach hleaves
  · exact ⟨fun x _ => hsame x, fun x f h => ⟨f, hleaves h⟩,
      fun x hnone hsome => absurd ((hsame x).trans hnone) hsome⟩
  have ht := hreach t rfl
  have hbit : (phys ||| archFlags).testBit 0 = true := by rw [Nat.testBit_or, hpresent, Bool.or_true]
  have hreads : ReadsWithin InTables (tablePath virt) := inTables_closed _ hlen
  have hself := tableAt_writeSlot_self (i := ptIdx virt) (e := phys ||| archFlags) hs'.table.distinct hlen ht
    hreads
  -- the addresses of the page now have a 4 KiB leaf
  have hleaf : ∀ x, Canonical x → x / 4096 = virt / 4096 →
      ∃ f, SmallLeaf (writeSlot s'.mem t (ptIdx virt) (phys ||| archFlags)) root x f := by
    intro x hx hpage
    have hpath := (pathOf_eq_iff_of_canonical hx hcanon).mpr hpage
    simp only [pathOf, List.cons.injEq, and_true] at hpath
    refine ⟨_, (smallLeaf_iff hx).mpr ⟨t, ?_, ?_, rfl⟩⟩
    · rw [hpath.1, hpath.2.1, hpath.2.2.1]
      exact hself
    · rw [hpath.2.2.2, writeSlot_self]
      exact hbit
  -- the walks of all other addresses are as before
  have hother : ∀ x, Canonical x → x / 4096 ≠ virt / 4096 →
      walkEntries tableEntry (writeSlot s'.mem t (ptIdx virt) (phys ||| archFlags)) root (pathOf x) =
        walkEntries tableEntry s'.mem root (pathOf x) := by
    intro x hx hpage
    refine (agreeAlong_writeSlot hs'.table.distinct hlen ht
      (readsWithin_inTables (pathOf_length x).le) fun hextends => hpage ?_).walkEntries_eq
    have hpath : pathOf virt = pathOf x := hextends.eq_of_length rfl
    exact (pathOf_eq_iff_of_canonical hx hcanon).mp hpath.symm
  have htrans : ∀ x, x / 4096 ≠ virt / 4096 →
      translate (writeSlot s'.mem t (ptIdx virt) (phys ||| archFlags)) root x = translate s.mem root x := by
    intro x hpage
    rw [← hsame]
    by_cases hx : Canonical x
    · exact translate_congr (hother x hx hpage)
    · rw [translate, translate, if_neg hx, if_neg hx]
  refine ⟨fun x hx => htrans x (by omega), fun x f h => ?_, fun x hnone hsome => ?_⟩
  · by_cases hpage : x / 4096 = virt / 4096
    · exact hleaf x h.canonical hpage
    · obtain ⟨hlength, haccess⟩ := hleaves h
      exact ⟨f, by rwa [hother x h.canonical hpage],
        by rwa [htrans x hpage, ← hsame]⟩
  · by_cases hpage : x / 4096 = virt / 4096
    · refine hleaf x ?_ hpage
      exact hcanon.of_page hpage
    · exact absurd ((htrans x hpage).trans hnone) hsome

/-- The loop of `pmap_map_range` adds 4 KiB leaves in its range. -/
theorem mapRangeLoop_addsPages {flags archFlags : ℕ} (hsmall : flags &&& mmuFlagHugeOk = 0)
    (hpresent : archFlags.testBit 0 = true) (fuel : ℕ) {virt phys remain : ℕ} (mapped : ℕ)
    (hs : PtState Ok frames root s) (hvirt : 4096 ∣ virt) (hremain : 4096 ∣ remain)
    (hhalf : InOneHalf virt remain) :
    AddsPages root virt (virt + remain) s.mem
      (mapRangeLoop A root flags archFlags fuel virt phys remain mapped s).2.mem := by
  induction fuel generalizing virt phys remain mapped s with
  | zero => exact .refl root _ _ s.mem
  | succ fuel ih =>
    rw [mapRangeLoop_succ]
    by_cases hzero : remain = 0
    · rw [if_pos hzero]
      exact .refl root _ _ s.mem
    simp only [InOneHalf] at hhalf
    have hstep : mapStep A root flags archFlags virt phys remain s =
        map A root virt phys archFlags s := by
      rw [mapStep, if_neg (not_not_intro hsmall)]
    have hcanon : Canonical virt := by
      simp only [Canonical]
      omega
    have hpage := (map_addsPages hA phys hs hvirt hcanon hpresent).mono le_rfl
      (show virt + 4096 ≤ virt + remain by omega)
    have hs' := (mapInvariant_ptState hA root).map virt phys archFlags hs
    rw [if_neg hzero, hstep]
    have hsize : (map A root virt phys archFlags s).1 = 0 ∨ (map A root virt phys archFlags s).1 = 4096 :=
      mapLeaf_size A root [pml4Idx virt, pdptIdx virt, pdIdx virt] (ptIdx virt) (phys ||| archFlags)
        pageSize s
    rcases hsize with hsize | hsize
    · rw [if_pos hsize]
      exact hpage
    · rw [hsize, if_neg (by decide)]
      by_cases hlast : remain = 4096
      · rw [hlast, Nat.sub_self, mapRangeLoop_done]
        exact hlast ▸ hpage
      · rw [Nat.mod_eq_of_lt (show virt + 4096 < wordSize by simp only [wordSize]; omega)]
        have hrest := @ih _ (virt + 4096) ((phys + 4096) % wordSize) (remain - 4096) (mapped + 4096) hs'
          (by omega) (by omega) (by simp only [InOneHalf]; omega)
        exact hpage.trans (hrest.mono (by omega) (by omega))

omit hA in
/-- Every entry that the mapping code writes is present. -/
theorem parseCommonFlags_present (flags : ℕ) : (parseCommonFlags flags).testBit 0 = true := by
  have hleaf := leafEntry_small flags (dvd_zero 4096) (by decide)
  rw [Nat.zero_or] at hleaf
  exact hleaf.present

/-- Mapping whole pages of one half without huge pages. -/
theorem pmapMapRange_addsPages {virt phys flags len : ℕ} (hsmall : flags &&& mmuFlagHugeOk = 0)
    (hs : PtState Ok frames root s) (hvirt : virt < wordSize) (hdvd : 4096 ∣ virt) (hlen : 4096 ∣ len)
    (hhalf : InOneHalf virt len) (hphys : phys < wordSize) :
    AddsPages root virt (virt + len) s.mem (pmapMapRange A root virt phys flags len s).2.mem := by
  have hceil : pageCeil (virt + len) - virt / 4096 * 4096 = len := by
    simp only [pageCeil]
    omega
  obtain ⟨heq, -⟩ := pmapMapRange_eq hvirt hhalf hphys A root flags s
  rw [hceil, Nat.div_mul_cancel hdvd] at heq
  rw [heq]
  exact mapRangeLoop_addsPages hA hsmall (parseCommonFlags_present flags) _ 0 hs hdvd hlen hhalf

/-- Mapping the page of an address. -/
theorem pmapMapPage_addsPages {va : ℕ} (phys flags : ℕ) (hs : PtState Ok frames root s) (hva : Canonical va) :
    AddsPages root (va / 4096 * 4096) (va / 4096 * 4096 + 4096) s.mem
      (pmapMapPage A root va phys flags s).2.mem := by
  have hword : va < wordSize := by
    simp only [Canonical, wordSize] at hva ⊢
    omega
  rw [pmapMapPage, alignDown_page hword]
  exact map_addsPages hA _ hs (Nat.dvd_mul_left _ _) (hva.of_page (by omega)) (parseCommonFlags_present flags)

end Mapping

/-! ## Removing -/

/-- Behind an unmapping of pages between `lo` and `hi`: the page table reaches no table twice, what is
still translated is walked to as before, and in the lower half nothing outside the range has changed. -/
structure RemovesPages (root lo hi : ℕ) (mem mem' : ℕ → Fin 512 → ℕ) : Prop where
  distinct : DistinctTables tableEntry InTables mem' root
  walks : ∀ x, translate mem' root x ≠ none →
    walkEntries tableEntry mem' root (pathOf x) = walkEntries tableEntry mem root (pathOf x)
  outside : hi ≤ 2 ^ 47 → ∀ x, ¬ (lo ≤ x ∧ x < hi) → translate mem' root x = translate mem root x

namespace RemovesPages

variable {root lo hi : ℕ} {mem mem' mem'' : ℕ → Fin 512 → ℕ}

/-- Doing nothing removes nothing. -/
theorem refl (hdistinct : DistinctTables tableEntry InTables mem root) : RemovesPages root lo hi mem mem :=
  ⟨hdistinct, fun _ _ => rfl, fun _ _ _ => rfl⟩

/-- What is still translated is translated as before. -/
theorem kept (h : RemovesPages root lo hi mem mem') {x : ℕ} (hx : translate mem' root x ≠ none) :
    translate mem' root x = translate mem root x :=
  translate_congr (h.walks x hx)

/-- What still has a 4 KiB leaf had it before, and what had one has it as long as it is translated. -/
theorem smallLeaf_iff (h : RemovesPages root lo hi mem mem') {x : ℕ} (hx : translate mem' root x ≠ none)
    (f : ℕ) : SmallLeaf mem' root x f ↔ SmallLeaf mem root x f := by
  rw [SmallLeaf, SmallLeaf, h.walks x hx, h.kept hx]

/-- Two removals one after the other. -/
theorem trans (h : RemovesPages root lo hi mem mem') (h' : RemovesPages root lo hi mem' mem'') :
    RemovesPages root lo hi mem mem'' := by
  refine ⟨h'.distinct, fun x hx => ?_, fun hhi x hx => (h'.outside hhi x hx).trans (h.outside hhi x hx)⟩
  have hmid : translate mem' root x ≠ none := h'.kept hx ▸ hx
  exact (h'.walks x hx).trans (h.walks x hmid)

end RemovesPages

section Unmapping

variable {S : Type*} {A : KernelAlloc S} {root lo hi : ℕ} {s : Machine S}

/-- Unmapping a page of the range. -/
theorem pmapUnmapPage_removesPages (hdistinct : DistinctTables tableEntry InTables s.mem root) (hlo : 4096 ∣ lo)
    (hhi : 4096 ∣ hi) {va : ℕ} (hva : lo ≤ va ∧ va < hi) :
    RemovesPages root lo hi s.mem (pmapUnmapPage A root va s).2.mem := by
  rcases pmapUnmapPage_cases A root va s with ⟨-, hr⟩ | ⟨t, ht, hr⟩
  all_goals rw [hr]
  · exact .refl hdistinct
  have hp : InTables [pml4Idx va, pdptIdx va, pdIdx va] := by simp [InTables]
  refine ⟨fun a b u ha hb hta htb => ?_, fun x hx => ?_, fun hlow x hx => ?_⟩
  · exact hdistinct a b u ha hb (tableAt_of_writeSlot_none tableEntry_zero hta)
      (tableAt_of_writeSlot_none tableEntry_zero htb)
  · refine (agreeAlong_writeSlot hdistinct hp ht (readsWithin_inTables (pathOf_length x).le)
      fun hextends => hx ?_).walkEntries_eq
    -- the walk through the cleared entry translates nothing
    have hpath : [pml4Idx va, pdptIdx va, pdIdx va] ++ ptIdx va :: [] = pathOf x :=
      hextends.eq_of_length rfl
    rw [translate, ← hpath, walkEntries_writeSlot_leaf hdistinct hp ht (inTables_closed _ hp) (.inr rfl),
      decodeWalk_of_clear _ (Nat.zero_testBit 0), ite_self]
  · exact (translate_clear hdistinct (.inl (hva.2.trans_le hlow)) ht x).trans (if_neg (by omega))

/-- The unmapping loop keeps what unmapping a page of its range and freeing any frame keep. -/
theorem unmapPages_range {P : Machine S → Prop} {endAddr : ℕ} (hend : endAddr + 4096 ≤ wordSize)
    (hunmap : ∀ s va, lo ≤ va → va < endAddr → P s → P (pmapUnmapPage A root va s).2)
    (hfree : ∀ s f, P s → P (s.freePage A f)) (fuel : ℕ) {va : ℕ} (hva : lo ≤ va) (hs : P s) :
    P (unmapPages A root endAddr fuel va s) := by
  induction fuel generalizing va s with
  | zero => exact hs
  | succ fuel ih =>
    rw [unmapPages]
    split
    next hlt =>
      have hclear := hunmap s va hva hlt hs
      rw [Nat.mod_eq_of_lt (by omega)]
      refine ih (hva.trans (Nat.le_add_right va _)) ?_
      split
      · exact hfree _ _ hclear
      · exact hclear
    next => exact hs

/-- The unmapping loop. -/
theorem unmapPages_removesPages (hdistinct : DistinctTables tableEntry InTables s.mem root) (hlo : 4096 ∣ lo)
    (hhi : 4096 ∣ hi) (hend : hi + 4096 ≤ wordSize) (fuel : ℕ) :
    RemovesPages root lo hi s.mem (unmapPages A root hi fuel lo s).mem :=
  unmapPages_range (P := fun s' => RemovesPages root lo hi s.mem s'.mem) hend
    (fun _ _ hva hlt h => h.trans (pmapUnmapPage_removesPages h.distinct hlo hhi ⟨hva, hlt⟩))
    (fun _ _ h => h) fuel le_rfl (.refl hdistinct)

/-- The loop that unmaps pages and gives back nothing removes every 4 KiB leaf of its range. -/
theorem unmapWithoutFree_removesPages {n va : ℕ} (hdistinct : DistinctTables tableEntry InTables s.mem root)
    (hlo : 4096 ∣ lo) (hhi : 4096 ∣ hi) (hva : 4096 ∣ va) (hstart : lo ≤ va) (hend : va + n * 4096 = hi)
    (hword : hi < wordSize) :
    RemovesPages root lo hi s.mem (unmapWithoutFree A root n va s).mem ∧
      ∀ x, va ≤ x → x < hi → ∀ f, ¬ SmallLeaf (unmapWithoutFree A root n va s).mem root x f := by
  induction n generalizing va s with
  | zero => exact ⟨.refl hdistinct, fun x hx hlt => by omega⟩
  | succ n ih =>
    have hpage : RemovesPages root lo hi s.mem (pmapUnmapPage A root va s).2.mem :=
      pmapUnmapPage_removesPages hdistinct hlo hhi (by omega)
    rw [unmapWithoutFree, Nat.mod_eq_of_lt (show va + pageSize < wordSize by simp only [pageSize]; omega)]
    obtain ⟨hrest, hnone⟩ := @ih _ (va + pageSize) hpage.distinct (by simp only [pageSize]; omega)
      (by simp only [pageSize]; omega) (by simp only [pageSize]; omega)
    refine ⟨hpage.trans hrest, fun x hx hlt f hleaf => ?_⟩
    by_cases hfirst : x < va + pageSize
    · -- the leaf was removed first, and nothing brings it back
      have hsame : x / 4096 = va / 4096 := by
        simp only [pageSize] at hfirst
        omega
      have hx : translate (unmapWithoutFree A root n (va + pageSize)
          (pmapUnmapPage A root va s).2).mem root x ≠ none := by
        obtain ⟨-, access, htrans⟩ := hleaf
        rw [htrans]
        exact Option.some_ne_none _
      have hleft := (hrest.smallLeaf_iff hx f).mp hleaf
      have hcanon := hleaf.canonical.of_page hsame.symm
      rcases pmapUnmapPage_cases A root va s with ⟨hmissing, hr⟩ | ⟨t, ht, hr⟩
      all_goals rw [hr] at hleft
      · obtain ⟨t, ht, -⟩ := (Mm.smallLeaf_iff hcanon).mp (hleft.of_page hsame.symm)
        rw [hmissing] at ht
        cases ht
      · exact ((smallLeaf_clear hdistinct hcanon ht x).mp hleft).1 hsame
    · exact hnone x (not_lt.mp hfirst) hlt f hleaf

end Unmapping

end Flos.Mm
