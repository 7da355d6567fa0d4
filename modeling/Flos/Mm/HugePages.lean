import Flos.Mm.KernelTable
import Flos.Mm.WalkOutcome

/-!
# Where huge pages block the way

`pmap_map_range` may install pages of 2 MiB and 1 GiB. They cannot be entered again: a later walk for a
page of 4 KiB stops there. Which addresses are blocked in this way follows from the ranges that have been
mapped alone, and so does where a mapping stops, as long as no allocation fails.
-/

namespace Flos.Mm

open Flos.Lib

/-- A huge page is in the way of the walk to the page of an address. -/
def Blocked (mem : ℕ → Fin 512 → ℕ) (root va : ℕ) : Prop := hugeOnPath mem root (tablePath va) = true

section Paths

variable {frames : Set ℕ} {mem : ℕ → Fin 512 → ℕ} {root t g e : ℕ} {p path : List (Fin 512)}
  {i : Fin 512}

/-- A walk is blocked where its path passes through a present entry that is no table. -/
theorem hugeOnPath_iff : hugeOnPath mem root path = true ↔
    ∃ q j r u, path = q ++ j :: r ∧ tableAt tableEntry mem root q = some u ∧
      (mem u j).testBit 0 = true ∧ tableEntry (mem u j) = none := by
  refine ⟨exists_of_hugeOnPath, ?_⟩
  rintro ⟨q, j, r, u, rfl, hu, hbit, hnone⟩
  induction q generalizing root with
  | nil =>
    obtain rfl := Option.some.inj hu
    rw [List.nil_append, hugeOnPath, hnone]
    exact hbit
  | cons k q ih =>
    rw [List.cons_append, hugeOnPath]
    cases hc : tableEntry (mem root k) with
    | none =>
      rw [tableAt_cons_none hc] at hu
      cases hu
    | some f =>
      rw [tableAt_cons_some hc] at hu
      exact ih hu

/-- A walk is blocked if its first part is. -/
theorem hugeOnPath_of_isPrefix {q : List (Fin 512)} (hq : q <+: path)
    (h : hugeOnPath mem root q = true) : hugeOnPath mem root path = true := by
  obtain ⟨r, rfl⟩ := hq
  obtain ⟨a, j, b, u, rfl, hu⟩ := hugeOnPath_iff.mp h
  exact hugeOnPath_iff.mpr ⟨a, j, b ++ r, u, by simp, hu⟩

/-- A new table blocks nothing. -/
theorem hugeOnPath_linkTable (hwf : WellFormedTable frames mem root) (hp : p.length ≤ 2)
    (ht : tableAt tableEntry mem root p = some t) (hclear : (mem t i).testBit 0 = false)
    (hfresh : g ∉ frames) (hdvd : 4096 ∣ g) (hlt : g < 2 ^ 52) (hpath : path.length ≤ 3) :
    hugeOnPath (linkTable mem t i g) root path = hugeOnPath mem root path := by
  have htable := fun {q} => hwf.tableAt_linkTable hp ht hclear hfresh hdvd hlt (q := q)
  obtain ⟨-, hlink⟩ := linkEntry hdvd hlt
  have hheld : ∀ {q r : List (Fin 512)} {j u}, path = q ++ j :: r →
      tableAt tableEntry mem root q = some u → q.length ≤ 2 ∧ u ≠ g := by
    rintro q r j u rfl hu
    simp only [List.length_append, List.length_cons] at hpath
    refine ⟨by omega, ?_⟩
    rintro rfl
    exact hfresh (hwf.held q u (Nat.le_trans (by omega) hpath) hu)
  have hsame : ∀ {u j}, u ≠ g → ¬ (u = t ∧ j = i) → linkTable mem t i g u j = mem u j :=
    fun hug hslot => (writeSlot_of_ne hslot).trans (by rw [Function.update_of_ne hug])
  rw [Bool.eq_iff_iff, hugeOnPath_iff, hugeOnPath_iff]
  constructor
  · rintro ⟨q, j, r, u, hsplit, hu, hbit, hnone⟩
    have hq : q.length ≤ 2 := by
      rw [hsplit] at hpath
      simp only [List.length_append, List.length_cons] at hpath
      omega
    rw [htable (by omega)] at hu
    by_cases hqi : q = p ++ [i]
    · -- the new table has no entries
      rw [if_pos hqi] at hu
      obtain rfl := Option.some.inj hu
      have hgt : g ≠ t := by
        rintro rfl
        exact hfresh (hwf.held p g (Nat.le_succ_of_le hp) ht)
      rw [linkTable, writeSlot_of_ne fun h => hgt h.1, Function.update_self] at hbit
      cases hbit
    · rw [if_neg hqi] at hu
      obtain ⟨-, hug⟩ := hheld hsplit hu
      have hslot : ¬ (u = t ∧ j = i) := by
        rintro ⟨rfl, rfl⟩
        rw [linkTable, writeSlot_self, hlink] at hnone
        cases hnone
      rw [hsame hug hslot] at hbit hnone
      exact ⟨q, j, r, u, hsplit, hu, hbit, hnone⟩
  · rintro ⟨q, j, r, u, hsplit, hu, hbit, hnone⟩
    obtain ⟨hq, hug⟩ := hheld hsplit hu
    have hqi : q ≠ p ++ [i] := by
      rintro rfl
      rw [tableAt_concat ht, tableEntry_of_clear hclear] at hu
      cases hu
    have hslot : ¬ (u = t ∧ j = i) := by
      rintro ⟨rfl, rfl⟩
      rw [hclear] at hbit
      cases hbit
    refine ⟨q, j, r, u, hsplit, ?_, ?_, ?_⟩
    · rw [htable (by omega), if_neg hqi, hu]
    · rw [hsame hug hslot, hbit]
    · rw [hsame hug hslot, hnone]

/-- A huge page blocks what is behind its slot; a small page blocks nothing. -/
theorem hugeOnPath_writeSlot (hwf : WellFormedTable frames mem root) (hp : InTables p)
    (ht : tableAt tableEntry mem root p = some t) (hend : tableEntry e = none ∨ p.length = 3)
    (hpresent : e.testBit 0 = true) (hpath : path.length ≤ 3) :
    hugeOnPath (writeSlot mem t i e) root path =
      if p ++ [i] <+: path then true else hugeOnPath mem root path := by
  split
  next hpre =>
    obtain ⟨r, rfl⟩ := hpre
    have hnone : tableEntry e = none := by
      refine hend.resolve_right fun hlen => ?_
      simp only [List.length_append, List.length_singleton, hlen] at hpath
      omega
    refine hugeOnPath_iff.mpr ⟨p, i, r, t, by simp, ?_, ?_, ?_⟩
    · exact tableAt_writeSlot_self hwf.distinct hp ht (inTables_closed p hp)
    · rw [writeSlot_self, hpresent]
    · rw [writeSlot_self, hnone]
  next hpre =>
    exact (missingTables_congr (agreeAlong_writeSlot hwf.distinct hp ht
      (inTables_closed path hpath) hpre)).2

end Paths

section Steps

variable {S : Type*} {A : KernelAlloc S} {Ok : S → Prop} {frames : S → Set ℕ} {root : ℕ}
  {s : Machine S} (hA : A.LawfulPages Ok frames)

include hA

/-- A walk blocks nothing. -/
theorem descend_hugeOnPath {path : List (Fin 512)} (hs : PtState Ok frames root s)
    (hlen : path.length ≤ 3) {q : List (Fin 512)} (hq : q.length ≤ 3) :
    hugeOnPath (descend A true root path s).2.mem root q = hugeOnPath s.mem root q := by
  have hstep : ∀ p t i s', p.length < 3 →
      (PtState Ok frames root s' ∧ hugeOnPath s'.mem root q = hugeOnPath s.mem root q) →
      tableAt tableEntry s'.mem root p = some t →
      (PtState Ok frames root (getNextLevel A t i true s').2 ∧
        hugeOnPath (getNextLevel A t i true s').2.mem root q = hugeOnPath s.mem root q) ∧
      ∀ g, (getNextLevel A t i true s').1 = some g →
        tableAt tableEntry (getNextLevel A t i true s').2.mem root (p ++ [i]) = some g := by
    intro p t i s' hp ⟨hs', hsame⟩ ht
    obtain ⟨⟨hs'', -⟩, hnext⟩ := getNextLevel_spec hA i hs' (Nat.le_of_lt_succ hp) ht
    refine ⟨⟨hs'', ?_⟩, hnext⟩
    rcases getNextLevel_cases A t i s' with ⟨f, -, hr⟩ | ⟨-, hr⟩ | ⟨-, -, hr⟩ | ⟨hclear, hnew, hr⟩
    all_goals rw [hr]
    · exact hsame
    · exact hsame
    · exact hsame
    · obtain ⟨hdvd, hlt⟩ := hA.allocPage_addr _ hs'.ok
      exact (hugeOnPath_linkTable hs'.table (Nat.le_of_lt_succ hp) ht hclear
        (hA.allocPage_fresh _ hs'.ok hnew) hdvd hlt hq).trans hsame
  exact (descend_invariant A hstep path [] root s (by simpa using hlen) ⟨hs, rfl⟩ rfl).1.2

/-- A leaf is written exactly if no huge page is in the way, unless an allocation fails. -/
theorem mapLeaf_hugeOnPath {path : List (Fin 512)} {index : Fin 512} {entry size : ℕ}
    (hs : PtState Ok frames root s) (hlen : path.length ≤ 3)
    (hend : tableEntry entry = none ∨ path.length = 3) (hpresent : entry.testBit 0 = true)
    (hsucc : ¬ Failed s (mapLeaf A root path index entry size s).2) :
    (mapLeaf A root path index entry size s).1 = (if hugeOnPath s.mem root path then 0 else size) ∧
      ∀ q : List (Fin 512), q.length ≤ 3 →
        hugeOnPath (mapLeaf A root path index entry size s).2.mem root q =
          if hugeOnPath s.mem root path = false ∧ path ++ [index] <+: q then true
          else hugeOnPath s.mem root q := by
  obtain ⟨hsome, hstop⟩ := descend_isSome_iff hA path [] root s (by simpa using hlen) hs rfl
  obtain ⟨hs', -, hreach⟩ := descend_spec hA hs hlen
  have hsame := fun {q} => descend_hugeOnPath hA hs hlen (q := q)
  rw [mapLeaf] at hsucc ⊢
  rcases hr : descend A true root path s with ⟨_ | t, s'⟩
  all_goals rw [hr] at hsome hstop hs' hreach hsame hsucc
  · have hhuge : hugeOnPath s.mem root path = true := by
      by_contra hfree
      exact hsucc ((hstop rfl).2 (Bool.eq_false_iff.mpr hfree))
    refine ⟨by rw [if_pos hhuge], fun q hq => ?_⟩
    rw [if_neg (by simp [hhuge])]
    exact hsame hq
  · have hfree := (hsome.mp rfl).1
    refine ⟨by simp [hfree], fun q hq => ?_⟩
    rw [hugeOnPath_writeSlot hs'.table hlen (hreach t rfl) hend hpresent hq]
    simp only [hfree, true_and, hsame hq]

/-! ## One iteration -/

omit hA in
/-- A path to a table is a path to the page if it is one to its table. -/
theorem isPrefix_tablePath_iff {q : List (Fin 512)} {va : ℕ} (hq : q.length ≤ 3) :
    q <+: tablePath va ↔ q <+: pathOf va := by
  have hpath : pathOf va = tablePath va ++ [ptIdx va] := rfl
  rw [hpath, List.prefix_concat_iff, or_iff_right]
  rintro rfl
  simp at hq

variable {virt phys : ℕ} (flags : ℕ) (hs : PtState Ok frames root s) (hphys : 4096 ∣ phys)
  (hlt : phys < 2 ^ 52)

include hs hphys hlt

/-- A small page is mapped where nothing is blocked, and blocks nothing. -/
theorem map_blocked (hsucc : ¬ Failed s (map A root virt phys (parseCommonFlags flags) s).2) :
    (Blocked s.mem root virt → (map A root virt phys (parseCommonFlags flags) s).1 = 0) ∧
      (¬ Blocked s.mem root virt → (map A root virt phys (parseCommonFlags flags) s).1 = 4096) ∧
      ∀ x, Blocked (map A root virt phys (parseCommonFlags flags) s).2.mem root x ↔
        Blocked s.mem root x := by
  obtain ⟨hsize, hblocked⟩ := @mapLeaf_hugeOnPath _ _ _ _ _ _ hA (tablePath virt) (ptIdx virt)
    _ pageSize hs le_rfl (.inr rfl) (leafEntry_small flags hphys hlt).present hsucc
  refine ⟨fun h => hsize.trans (if_pos h), fun h => hsize.trans (if_neg h), fun x => ?_⟩
  rw [Blocked, map, hblocked _ le_rfl, if_neg]
  · rfl
  · rintro ⟨-, hpre⟩
    have hlen := hpre.length_le
    simp at hlen

/-- A huge page of `size` bytes is mapped behind a path that is free, and blocks its addresses. -/
theorem mapHuge_blocked {path : List (Fin 512)} {index : Fin 512} {size : ℕ} (hpath : path.length ≤ 2)
    (hvirt : path <+: tablePath virt)
    (hslot : ∀ va, Canonical va → (path ++ [index] <+: pathOf va ↔ virt ≤ va ∧ va < virt + size))
    (hfree : ¬ Blocked s.mem root virt)
    (hsucc : ¬ Failed s (mapLeaf A root path index (phys ||| (parseCommonFlags flags ||| pdePs)) size
      s).2) :
    (mapLeaf A root path index (phys ||| (parseCommonFlags flags ||| pdePs)) size s).1 = size ∧
      ∀ x, Canonical x →
        (Blocked (mapLeaf A root path index (phys ||| (parseCommonFlags flags ||| pdePs)) size s).2.mem
            root x ↔
          Blocked s.mem root x ∨ virt ≤ x ∧ x < virt + size) := by
  have hleaf := leafEntry_huge flags hphys hlt
  obtain ⟨hsize, hblocked⟩ := mapLeaf_hugeOnPath hA hs (Nat.le_succ_of_le hpath)
    (.inl hleaf.tableEntry_huge) hleaf.present hsucc
  have hopen : hugeOnPath s.mem root path = false :=
    Bool.eq_false_iff.mpr fun h => hfree (hugeOnPath_of_isPrefix hvirt h)
  refine ⟨by rw [hsize, hopen]; rfl, fun x hx => ?_⟩
  have hlen : (path ++ [index]).length ≤ 3 := by
    simp only [List.length_append, List.length_singleton]
    omega
  have hextends := (isPrefix_tablePath_iff hlen).trans (hslot x hx)
  rw [Blocked, hblocked _ le_rfl]
  by_cases hin : virt ≤ x ∧ x < virt + size
  · rw [if_pos ⟨hopen, hextends.mpr hin⟩]
    exact iff_of_true rfl (.inr hin)
  · rw [if_neg fun h => hin (hextends.mp h.2), or_iff_left hin]
    rfl

end Steps

/-- The size of the page that an iteration of `pmap_map_range` installs when huge pages are allowed. -/
def stepSize (virt phys remain : ℕ) : ℕ :=
  if phys % pageSize1G = 0 ∧ virt % pageSize1G = 0 ∧ remain ≥ pageSize1G then pageSize1G
  else if phys % pageSize2M = 0 ∧ virt % pageSize2M = 0 ∧ remain ≥ pageSize2M then pageSize2M
  else pageSize

/-- The 2 MiB block of an address lies in a range. -/
def HugeBlockIn (virt len x : ℕ) : Prop :=
  virt ≤ x / 2 ^ 21 * 2 ^ 21 ∧ x / 2 ^ 21 * 2 ^ 21 + 2 ^ 21 ≤ virt + len

instance (virt len x : ℕ) : Decidable (HugeBlockIn virt len x) := by
  unfold HugeBlockIn
  infer_instance

/-- No block lies in less than 2 MiB. -/
theorem not_hugeBlockIn {virt len x : ℕ} (hlen : len < 2 ^ 21) : ¬ HugeBlockIn virt len x := by
  intro h
  simp only [HugeBlockIn] at h
  omega

/-- The page of an iteration is a whole number of small pages within the range. -/
theorem stepSize_bounds {virt phys remain : ℕ} (hremain : 4096 ≤ remain) :
    4096 ≤ stepSize virt phys remain ∧ 4096 ∣ stepSize virt phys remain ∧
      stepSize virt phys remain ≤ remain := by
  rw [stepSize]
  simp only [pageSize, pageSize2M, pageSize1G]
  split_ifs <;> omega

/-- The blocks in a range are the huge page of the first iteration and the blocks behind its page. -/
theorem hugeBlockIn_step {virt phys remain : ℕ} (hvirt : 4096 ∣ virt) (hremain : 4096 ≤ remain)
    (halign : virt % 2 ^ 30 = phys % 2 ^ 30) (x : ℕ) :
    HugeBlockIn virt remain x ↔
      (pageSize < stepSize virt phys remain ∧ virt ≤ x ∧ x < virt + stepSize virt phys remain) ∨
        HugeBlockIn (virt + stepSize virt phys remain) (remain - stepSize virt phys remain) x := by
  have halign' : virt % 2 ^ 21 = phys % 2 ^ 21 := by omega
  simp only [stepSize, HugeBlockIn, pageSize, pageSize2M, pageSize1G]
  split_ifs with h1G h2M
  · omega
  · omega
  · omega

section Loop

variable {S : Type*} {A : KernelAlloc S} {Ok : S → Prop} {frames : S → Set ℕ} {root : ℕ}
  {s : Machine S} (hA : A.LawfulPages Ok frames) {flags : ℕ} (hhuge : flags &&& mmuFlagHugeOk ≠ 0)

include hA hhuge

/-- An iteration at an address that is not blocked installs the largest page that fits, and blocks it if
it is huge. -/
theorem mapStep_blocked {virt phys remain : ℕ} (hs : PtState Ok frames root s) (hphys : 4096 ∣ phys)
    (hremain : 4096 ≤ remain) (hlt : phys + remain ≤ 2 ^ 52) (hhalf : InOneHalf virt remain)
    (hfree : ¬ Blocked s.mem root virt)
    (hsucc : ¬ Failed s (mapStep A root flags (parseCommonFlags flags) virt phys remain s).2) :
    (mapStep A root flags (parseCommonFlags flags) virt phys remain s).1 = stepSize virt phys remain ∧
      ∀ x, Canonical x →
        (Blocked (mapStep A root flags (parseCommonFlags flags) virt phys remain s).2.mem root x ↔
          Blocked s.mem root x ∨
            pageSize < stepSize virt phys remain ∧ virt ≤ x ∧ x < virt + stepSize virt phys remain) := by
  have hphyslt : phys < 2 ^ 52 := by omega
  have hcanon : Canonical virt := by
    simp only [InOneHalf] at hhalf
    simp only [Canonical]
    omega
  rw [mapStep, if_pos hhuge, mapHugeOk] at hsucc ⊢
  rw [stepSize]
  split_ifs at hsucc ⊢ with h1G h2M
  · obtain ⟨-, hv, -⟩ := h1G
    have hmapped := @mapHuge_blocked _ _ _ _ _ _ hA _ _ flags hs hphys hphyslt [pml4Idx virt]
      (pdptIdx virt) pageSize1G (by simp) ⟨[pdptIdx virt, pdIdx virt], rfl⟩
      (fun va hva => pathOf_prefix_page1G hcanon hva (Nat.dvd_of_mod_eq_zero hv)) hfree hsucc
    refine ⟨hmapped.1, fun x hx => (hmapped.2 x hx).trans (or_congr_right ?_)⟩
    exact (and_iff_right (by decide)).symm
  · obtain ⟨-, hv, -⟩ := h2M
    have hmapped := @mapHuge_blocked _ _ _ _ _ _ hA _ _ flags hs hphys hphyslt
      [pml4Idx virt, pdptIdx virt] (pdIdx virt) pageSize2M (by simp) ⟨[pdIdx virt], rfl⟩
      (fun va hva => pathOf_prefix_page2M hcanon hva (Nat.dvd_of_mod_eq_zero hv)) hfree hsucc
    refine ⟨hmapped.1, fun x hx => (hmapped.2 x hx).trans (or_congr_right ?_)⟩
    exact (and_iff_right (by decide)).symm
  · obtain ⟨-, hsize, hsame⟩ := map_blocked hA flags hs hphys hphyslt hsucc
    exact ⟨hsize hfree, fun x _ => (hsame x).trans (or_iff_left fun h => absurd h.1 (by decide)).symm⟩

/-- The loop of `pmap_map_range` maps a range of which at most the last page is blocked: everything, or
everything but that page. It then blocks the 2 MiB blocks of the range. -/
theorem mapRangeLoop_blocked (fuel : ℕ) {virt phys remain : ℕ} (mapped : ℕ)
    (hs : PtState Ok frames root s) (hvirt : 4096 ∣ virt) (hphys : 4096 ∣ phys) (hremain : 4096 ∣ remain)
    (hlt : phys + remain ≤ 2 ^ 52) (hhalf : InOneHalf virt remain)
    (halign : virt % 2 ^ 30 = phys % 2 ^ 30) (hfuel : remain ≤ fuel * 4096)
    (hfree : ∀ x, virt ≤ x → x + 4096 < virt + remain → ¬ Blocked s.mem root x)
    (hsucc : ¬ Failed s
      (mapRangeLoop A root flags (parseCommonFlags flags) fuel virt phys remain mapped s).2) :
    ∃ m s', mapRangeLoop A root flags (parseCommonFlags flags) fuel virt phys remain mapped s =
        (mapped + m, s') ∧
      (m = remain ∨ m + 4096 = remain ∧ Blocked s.mem root (virt + m)) ∧
      ∀ x, Canonical x → (Blocked s'.mem root x ↔ Blocked s.mem root x ∨ HugeBlockIn virt remain x) := by
  induction fuel generalizing virt phys remain mapped s with
  | zero =>
    obtain rfl : remain = 0 := by omega
    exact ⟨0, s, rfl, .inl rfl, fun x _ => (or_iff_left (not_hugeBlockIn (by decide))).symm⟩
  | succ fuel ih =>
    by_cases hzero : remain = 0
    · subst hzero
      rw [mapRangeLoop_done]
      exact ⟨0, s, rfl, .inl rfl, fun x _ => (or_iff_left (not_hugeBlockIn (by decide))).symm⟩
    rw [mapRangeLoop_succ, if_neg hzero] at hsucc ⊢
    by_cases hblocked : Blocked s.mem root virt
    · -- the last page, and it is blocked
      have hlast : remain = 4096 := by
        by_contra hmore
        exact hfree virt le_rfl (by omega) hblocked
      subst hlast
      have hstep : mapStep A root flags (parseCommonFlags flags) virt phys 4096 s =
          map A root virt phys (parseCommonFlags flags) s := by
        rw [mapStep, if_pos hhuge, mapHugeOk, if_neg (by simp only [pageSize1G]; omega),
          if_neg (by simp only [pageSize2M]; omega)]
      rw [hstep] at hsucc ⊢
      have hfail : ¬ Failed s (map A root virt phys (parseCommonFlags flags) s).2 := by
        intro hfail
        refine hsucc (hfail.extend List.prefix_rfl ?_)
        split
        · exact List.prefix_rfl
        · exact (callInvariant_log A _).mapRangeLoop _ _ _ _ _ _ _ _ List.prefix_rfl
      obtain ⟨hsize, -, hsame⟩ := map_blocked hA flags hs hphys (by omega) hfail
      rw [if_pos (hsize hblocked)]
      exact ⟨0, _, rfl, .inr ⟨rfl, hblocked⟩, fun x _ =>
        (hsame x).trans (or_iff_left (not_hugeBlockIn (by decide))).symm⟩
    · have hbounds := @stepSize_bounds virt phys remain (by omega)
      have hblock := hugeBlockIn_step hvirt (show 4096 ≤ remain by omega) halign
      have hfail : ¬ Failed s (mapStep A root flags (parseCommonFlags flags) virt phys remain s).2 := by
        intro hfail
        refine hsucc (hfail.extend List.prefix_rfl ?_)
        split
        · exact List.prefix_rfl
        · exact (callInvariant_log A _).mapRangeLoop _ _ _ _ _ _ _ _ List.prefix_rfl
      obtain ⟨hsize, hstep⟩ :=
        mapStep_blocked hA hhuge hs hphys (by omega) hlt hhalf hblocked hfail
      obtain ⟨hs', -⟩ := mapStep_spec hA flags hs hvirt hphys (by omega) hlt hhalf
      have hlog : s.log <+: (mapStep A root flags (parseCommonFlags flags) virt phys remain s).2.log :=
        (callInvariant_log A s.log).mapStep _ _ _ _ _ _ List.prefix_rfl
      rw [hsize, if_neg (by omega)] at hsucc ⊢
      generalize stepSize virt phys remain = step at *
      generalize (mapStep A root flags (parseCommonFlags flags) virt phys remain s).2 = s₁ at *
      have hcanon : ∀ x, virt ≤ x → x < virt + remain → Canonical x := by
        intro x h1 h2
        simp only [InOneHalf] at hhalf
        simp only [Canonical]
        omega
      by_cases hlast : remain - step = 0
      · rw [hlast, mapRangeLoop_done]
        refine ⟨step, s₁, rfl, .inl (by omega), fun x hx => (hstep x hx).trans (or_congr_right ?_)⟩
        rw [hblock, hlast, or_iff_left (not_hugeBlockIn (by decide))]
      · simp only [InOneHalf] at hhalf
        rw [Nat.mod_eq_of_lt (by simp only [wordSize]; omega),
          Nat.mod_eq_of_lt (by simp only [wordSize]; omega)] at hsucc ⊢
        -- the page blocks nothing behind it
        have hbehind : ∀ x, virt + step ≤ x → x < virt + remain →
            (Blocked s₁.mem root x ↔ Blocked s.mem root x) := fun x h1 h2 =>
          (hstep x (hcanon x (by omega) h2)).trans (or_iff_left fun h => by omega)
        obtain ⟨m, s', hrun, hm, hfinal⟩ := ih (mapped + step) hs' (by omega) (by omega) (by omega)
          (by omega) (by simp only [InOneHalf]; omega) (by omega) (by omega)
          (fun x h1 h2 => (hbehind x h1 (by omega)).not.mpr (hfree x (by omega) (by omega)))
          fun h => hsucc (h.extend hlog List.prefix_rfl)
        refine ⟨step + m, s', by rw [hrun, Nat.add_assoc], ?_, fun x hx => ?_⟩
        · rcases hm with hm | ⟨hm, hend⟩
          · exact .inl (by omega)
          · refine .inr ⟨by omega, ?_⟩
            rw [← Nat.add_assoc, ← hbehind _ (by omega) (by omega)]
            exact hend
        · rw [hfinal x hx, hstep x hx, hblock, or_assoc]

end Loop

end Flos.Mm
