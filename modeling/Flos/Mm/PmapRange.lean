import Flos.Mm.KernelMem
import Flos.Mm.PmapWalk

/-!
# Range mapping

What one step of `pmap_map_range` does to the translation of every address, for each of the
three leaf sizes, and from it what the whole loop does: the translations of the mapped bytes
are overlaid and all others stay.
-/

namespace Flos.Mm

open Flos.Lib

/-- An address range inside one canonical half. -/
def InOneHalf (virt len : ℕ) : Prop :=
  virt + len ≤ 2 ^ 47 ∨ (2 ^ 64 - 2 ^ 47 ≤ virt ∧ virt + len ≤ 2 ^ 64)

/-- The translations of `len` bytes from `virt` are replaced by those of a range of physical
memory, and all others stay. -/
def Overlay (mem mem' : ℕ → Fin 512 → ℕ) (root virt phys len : ℕ) (access : Access) : Prop :=
  ∀ va, translate mem' root va =
    if virt ≤ va ∧ va < virt + len then some ⟨phys + (va - virt), access⟩
    else translate mem root va

/-- An overlay of no bytes changes no translation. -/
theorem overlay_zero {mem mem' : ℕ → Fin 512 → ℕ} {root virt phys : ℕ} {access : Access}
    (h : ∀ va, translate mem' root va = translate mem root va) :
    Overlay mem mem' root virt phys 0 access := by
  intro va
  rw [if_neg (by omega), h]

/-- Adjacent overlays compose. -/
theorem Overlay.trans {mem mem' mem'' : ℕ → Fin 512 → ℕ} {root virt phys a b : ℕ} {access : Access}
    (h : Overlay mem mem' root virt phys a access)
    (h' : Overlay mem' mem'' root (virt + a) (phys + a) b access) :
    Overlay mem mem'' root virt phys (a + b) access := by
  intro va
  rw [h' va, h va]
  by_cases h1 : virt + a ≤ va ∧ va < virt + a + b
  · rw [if_pos h1, if_pos (by omega)]
    congr 2
    omega
  · rw [if_neg h1]
    by_cases h2 : virt ≤ va ∧ va < virt + a
    · rw [if_pos h2, if_pos (by omega)]
    · rw [if_neg h2, if_neg (by omega)]

/-- An index of a walk as a number. -/
theorem tableIdx_val (shift va : ℕ) : (tableIdx shift va).val = va / 2 ^ shift % 512 := by
  simp [tableIdx, Nat.shiftRight_eq_div_pow]

/-- Equal indices are equal bit fields. -/
theorem tableIdx_eq_iff {shift a b : ℕ} :
    tableIdx shift a = tableIdx shift b ↔ a / 2 ^ shift % 512 = b / 2 ^ shift % 512 := by
  rw [← Fin.val_inj, tableIdx_val, tableIdx_val]

/-- The addresses whose walk passes through a slot of the last level are those of its page. -/
theorem pathOf_prefix_page {virt va : ℕ} (hv : Canonical virt) (ha : Canonical va)
    (hdvd : 2 ^ 12 ∣ virt) :
    [pml4Idx virt, pdptIdx virt, pdIdx virt] ++ [ptIdx virt] <+: pathOf va ↔
      virt ≤ va ∧ va < virt + 2 ^ 12 := by
  simp only [pathOf, List.cons_append, List.nil_append, List.cons_prefix_cons, List.nil_prefix,
    and_true, pml4Idx, pdptIdx, pdIdx, ptIdx, tableIdx_eq_iff]
  simp only [Canonical] at hv ha
  omega

/-- The addresses whose walk passes through a slot of a page directory are its 2 MiB. -/
theorem pathOf_prefix_page2M {virt va : ℕ} (hv : Canonical virt) (ha : Canonical va)
    (hdvd : 2 ^ 21 ∣ virt) :
    [pml4Idx virt, pdptIdx virt] ++ [pdIdx virt] <+: pathOf va ↔
      virt ≤ va ∧ va < virt + 2 ^ 21 := by
  simp only [pathOf, List.cons_append, List.nil_append, List.cons_prefix_cons, List.nil_prefix,
    and_true, pml4Idx, pdptIdx, pdIdx, tableIdx_eq_iff]
  simp only [Canonical] at hv ha
  omega

/-- The addresses whose walk passes through a slot of the table below the PML4 are its 1 GiB. -/
theorem pathOf_prefix_page1G {virt va : ℕ} (hv : Canonical virt) (ha : Canonical va)
    (hdvd : 2 ^ 30 ∣ virt) :
    [pml4Idx virt] ++ [pdptIdx virt] <+: pathOf va ↔ virt ≤ va ∧ va < virt + 2 ^ 30 := by
  simp only [pathOf, List.cons_append, List.nil_append, List.cons_prefix_cons, List.nil_prefix,
    and_true, pml4Idx, pdptIdx, tableIdx_eq_iff]
  simp only [Canonical] at hv ha
  omega

section Steps

variable {S : Type*} {A : KernelAlloc S} {Ok : S → Prop} {frames : S → Set ℕ} {root : ℕ}

/-- What every step of the mapping code keeps. -/
structure PtState (Ok : S → Prop) (frames : S → Set ℕ) (root : ℕ) (s : Machine S) : Prop where
  ok : Ok s.alloc
  table : WellFormedTable (frames s.alloc) s.mem root

variable (hA : A.LawfulPages Ok frames)

include hA

/-- One level of a walk keeps the page table well formed and every translation. -/
theorem getNextLevel_spec {p : List (Fin 512)} {t : ℕ} (i : Fin 512) {s : Machine S}
    (hs : PtState Ok frames root s) (hp : p.length ≤ 2)
    (ht : tableAt tableEntry s.mem root p = some t) :
    (PtState Ok frames root (getNextLevel A t i true s).2 ∧
      ∀ va, translate (getNextLevel A t i true s).2.mem root va = translate s.mem root va) ∧
    ∀ g, (getNextLevel A t i true s).1 = some g →
      tableAt tableEntry (getNextLevel A t i true s).2.mem root (p ++ [i]) = some g := by
  have hok := hA.allocPage_ok _ hs.ok
  rcases getNextLevel_cases A t i s with ⟨f, hf, h⟩ | ⟨-, h⟩ | ⟨-, hfail, h⟩ | ⟨hclear, hnew, h⟩
  all_goals rw [h]
  · refine ⟨⟨hs, fun _ => rfl⟩, ?_⟩
    rintro _ ⟨⟩
    rw [tableAt_append_of_some ht, tableAt_cons_some hf, tableAt_nil]
  · exact ⟨⟨hs, fun _ => rfl⟩, by simp⟩
  · refine ⟨⟨⟨hok, ?_⟩, fun _ => rfl⟩, by simp⟩
    have hframes := hA.allocPage_fail _ hs.ok hfail
    simpa only [Machine.allocPage, hframes] using hs.table
  · have hframes := hA.allocPage_frames _ hs.ok hnew
    obtain ⟨hdvd, hlt⟩ := hA.allocPage_addr _ hs.ok
    obtain ⟨hwf, hsame, hreach⟩ :=
      hs.table.link hp ht hclear (hA.allocPage_fresh _ hs.ok hnew) hdvd hlt
    refine ⟨⟨⟨hok, ?_⟩, hsame⟩, ?_⟩
    · simpa only [Machine.allocPage, hframes] using hwf
    · rintro _ ⟨⟩
      exact hreach

/-- A walk that may allocate keeps the page table well formed and every translation, and ends
in the table at its path. -/
theorem descend_spec {path : List (Fin 512)} {s : Machine S} (hs : PtState Ok frames root s)
    (hlen : path.length ≤ 3) :
    PtState Ok frames root (descend A true root path s).2 ∧
      (∀ va, translate (descend A true root path s).2.mem root va = translate s.mem root va) ∧
      ∀ t, (descend A true root path s).1 = some t →
        tableAt tableEntry (descend A true root path s).2.mem root path = some t := by
  have hstep : ∀ p t i s', p.length < 3 →
      (PtState Ok frames root s' ∧ ∀ va, translate s'.mem root va = translate s.mem root va) →
      tableAt tableEntry s'.mem root p = some t →
      (PtState Ok frames root (getNextLevel A t i true s').2 ∧
        ∀ va, translate (getNextLevel A t i true s').2.mem root va = translate s.mem root va) ∧
      ∀ g, (getNextLevel A t i true s').1 = some g →
        tableAt tableEntry (getNextLevel A t i true s').2.mem root (p ++ [i]) = some g := by
    intro p t i s' hp hinv ht
    obtain ⟨⟨hs', hsame⟩, hnext⟩ := getNextLevel_spec hA i hinv.1 (Nat.le_of_lt_succ hp) ht
    exact ⟨⟨hs', fun va => (hsame va).trans (hinv.2 va)⟩, hnext⟩
  have hmain := descend_invariant A hstep path [] root s (by simpa using hlen)
    ⟨hs, fun _ => rfl⟩ rfl
  exact ⟨hmain.1.1, hmain.1.2, by simpa using hmain.2⟩

/-- One step of the mapping code: it maps all bytes of its leaf or none. -/
theorem mapLeaf_spec {path : List (Fin 512)} {index : Fin 512} {entry size virt phys : ℕ}
    {access : Access} {huge : Bool} {s : Machine S} (hs : PtState Ok frames root s)
    (hlen : 1 ≤ path.length ∧ path.length ≤ 3) (hleaf : LeafEntry entry phys access huge)
    (hdepth : huge = true ∨ path.length = 3) (hsize : size = leafSpan path.length)
    (hphys : size ∣ phys) (hvirt : size ∣ virt)
    (hslot : ∀ va, Canonical va → (path ++ [index] <+: pathOf va ↔ virt ≤ va ∧ va < virt + size))
    (hcanon : ∀ va, virt ≤ va → va < virt + size → Canonical va) :
    PtState Ok frames root (mapLeaf A root path index entry size s).2 ∧
      Overlay s.mem (mapLeaf A root path index entry size s).2.mem root virt phys
        (mapLeaf A root path index entry size s).1 access := by
  obtain ⟨hs', hsame, hreach⟩ := descend_spec hA hs hlen.2
  rw [mapLeaf]
  rcases hr : descend A true root path s with ⟨_ | t, s'⟩
  all_goals rw [hr] at hs' hsame hreach
  · exact ⟨hs', overlay_zero hsame⟩
  · have ht := hreach t rfl
    have hend : tableEntry entry = none ∨ path.length = 3 := by
      refine hdepth.imp_left ?_
      rintro rfl
      exact hleaf.tableEntry_huge
    refine ⟨⟨hs'.ok, hs'.table.writeLeaf hlen.2 ht hend⟩, ?_⟩
    intro va
    by_cases hva : Canonical va
    · rw [hs'.table.translate_writeLeaf hlen.2 ht hleaf hdepth hlen.1 (hsize ▸ hphys) hva,
        ← hsize, hsame]
      simp only [hslot va hva]
      split
      next hin =>
        obtain ⟨k, rfl⟩ := hvirt
        congr 2
        rw [show va = (va - size * k) + size * k by omega, Nat.add_mul_mod_self_left,
          Nat.mod_eq_of_lt (by omega)]
        omega
      next => rfl
    · rw [if_neg fun h => hva (hcanon va h.1 h.2), translate, translate, if_neg hva, if_neg hva]

/-- `map` installs one 4 KiB page, or nothing. -/
theorem map_spec {virt phys : ℕ} (flags : ℕ) {s : Machine S} (hs : PtState Ok frames root s)
    (hvirt : 4096 ∣ virt) (hphys : 4096 ∣ phys) (hlt : phys < 2 ^ 52)
    (hhalf : InOneHalf virt 4096) :
    PtState Ok frames root (map A root virt phys (parseCommonFlags flags) s).2 ∧
      Overlay s.mem (map A root virt phys (parseCommonFlags flags) s).2.mem root virt phys
        (map A root virt phys (parseCommonFlags flags) s).1 (flagsAccess flags) := by
  simp only [InOneHalf] at hhalf
  refine mapLeaf_spec hA hs (by simp) (leafEntry_small flags hphys hlt) (.inr rfl) rfl hphys hvirt ?_ ?_
  · exact fun va hva => pathOf_prefix_page (by simp only [Canonical]; omega) hva hvirt
  · intro va h1 h2
    simp only [Canonical, pageSize] at h2 ⊢
    omega

/-- `map_2m` installs one 2 MiB page, or nothing. -/
theorem map2m_spec {virt phys : ℕ} (flags : ℕ) {s : Machine S} (hs : PtState Ok frames root s)
    (hvirt : pageSize2M ∣ virt) (hphys : pageSize2M ∣ phys) (hlt : phys < 2 ^ 52)
    (hhalf : InOneHalf virt pageSize2M) :
    PtState Ok frames root (map2m A root virt phys (parseCommonFlags flags ||| pdePs) s).2 ∧
      Overlay s.mem (map2m A root virt phys (parseCommonFlags flags ||| pdePs) s).2.mem root virt
        phys (map2m A root virt phys (parseCommonFlags flags ||| pdePs) s).1
        (flagsAccess flags) := by
  simp only [InOneHalf, pageSize2M] at hhalf
  have hpage : 4096 ∣ phys := (by decide : 4096 ∣ pageSize2M).trans hphys
  refine mapLeaf_spec hA hs (by simp) (leafEntry_huge flags hpage hlt) (.inl rfl) rfl hphys hvirt ?_ ?_
  · exact fun va hva => pathOf_prefix_page2M (by simp only [Canonical]; omega) hva hvirt
  · intro va h1 h2
    simp only [Canonical, pageSize2M] at h2 ⊢
    omega

/-- `map_1g` installs one 1 GiB page, or nothing. -/
theorem map1g_spec {virt phys : ℕ} (flags : ℕ) {s : Machine S} (hs : PtState Ok frames root s)
    (hvirt : pageSize1G ∣ virt) (hphys : pageSize1G ∣ phys) (hlt : phys < 2 ^ 52)
    (hhalf : InOneHalf virt pageSize1G) :
    PtState Ok frames root (map1g A root virt phys (parseCommonFlags flags ||| pdptePs) s).2 ∧
      Overlay s.mem (map1g A root virt phys (parseCommonFlags flags ||| pdptePs) s).2.mem root virt
        phys (map1g A root virt phys (parseCommonFlags flags ||| pdptePs) s).1
        (flagsAccess flags) := by
  simp only [InOneHalf, pageSize1G] at hhalf
  have hpage : 4096 ∣ phys := (by decide : 4096 ∣ pageSize1G).trans hphys
  refine mapLeaf_spec hA hs (by simp) (leafEntry_huge flags hpage hlt) (.inl rfl) rfl hphys hvirt ?_ ?_
  · exact fun va hva => pathOf_prefix_page1G (by simp only [Canonical]; omega) hva hvirt
  · intro va h1 h2
    simp only [Canonical, pageSize1G] at h2 ⊢
    omega

end Steps

section Sizes

variable {S : Type*} (A : KernelAlloc S)

/-- A step maps its whole leaf or nothing. -/
theorem mapLeaf_size (table : ℕ) (path : List (Fin 512)) (index : Fin 512) (entry size : ℕ)
    (s : Machine S) :
    (mapLeaf A table path index entry size s).1 = 0 ∨
      (mapLeaf A table path index entry size s).1 = size := by
  rw [mapLeaf]
  split
  · exact .inl rfl
  · exact .inr rfl

/-- One iteration of `pmap_map_range`. -/
def mapStep (table flags archFlags virt phys remain : ℕ) (s : Machine S) : ℕ × Machine S :=
  if flags &&& mmuFlagHugeOk ≠ 0 then mapHugeOk A table virt phys archFlags remain s
  else map A table virt phys archFlags s

/-- An iteration fails or maps at least a page and no more than what remains. -/
theorem mapStep_size (table flags archFlags virt phys remain : ℕ) (hremain : 4096 ≤ remain)
    (s : Machine S) :
    (mapStep A table flags archFlags virt phys remain s).1 = 0 ∨
      (4096 ≤ (mapStep A table flags archFlags virt phys remain s).1 ∧
        4096 ∣ (mapStep A table flags archFlags virt phys remain s).1 ∧
        (mapStep A table flags archFlags virt phys remain s).1 ≤ remain) := by
  have hpage := mapLeaf_size A table [pml4Idx virt, pdptIdx virt, pdIdx virt] (ptIdx virt)
    (phys ||| archFlags) pageSize s
  have hpage2M := mapLeaf_size A table [pml4Idx virt, pdptIdx virt] (pdIdx virt)
    (phys ||| (archFlags ||| pdePs)) pageSize2M s
  have hpage1G := mapLeaf_size A table [pml4Idx virt] (pdptIdx virt)
    (phys ||| (archFlags ||| pdptePs)) pageSize1G s
  simp only [mapStep, mapHugeOk, map, map2m, map1g]
  simp only [pageSize, pageSize2M, pageSize1G] at hpage hpage2M hpage1G ⊢
  split_ifs <;> omega

/-- An iteration of `pmap_map_range` maps whole pages. -/
theorem dvd_mapStep (table flags archFlags virt phys remain : ℕ) (s : Machine S) :
    4096 ∣ (mapStep A table flags archFlags virt phys remain s).1 := by
  have hpage := mapLeaf_size A table [pml4Idx virt, pdptIdx virt, pdIdx virt] (ptIdx virt)
    (phys ||| archFlags) pageSize s
  have hpage2M := mapLeaf_size A table [pml4Idx virt, pdptIdx virt] (pdIdx virt)
    (phys ||| (archFlags ||| pdePs)) pageSize2M s
  have hpage1G := mapLeaf_size A table [pml4Idx virt] (pdptIdx virt)
    (phys ||| (archFlags ||| pdptePs)) pageSize1G s
  simp only [mapStep, mapHugeOk, map, map2m, map1g]
  simp only [pageSize, pageSize2M, pageSize1G] at *
  split_ifs <;> omega

/-- The loop of `pmap_map_range`, by its iterations. -/
theorem mapRangeLoop_succ (table flags archFlags fuel virt phys remain mapped : ℕ)
    (s : Machine S) :
    mapRangeLoop A table flags archFlags (fuel + 1) virt phys remain mapped s =
      if remain = 0 then (mapped, s)
      else if (mapStep A table flags archFlags virt phys remain s).1 = 0 then
        (mapped, (mapStep A table flags archFlags virt phys remain s).2)
      else
        mapRangeLoop A table flags archFlags fuel
          ((virt + (mapStep A table flags archFlags virt phys remain s).1) % wordSize)
          ((phys + (mapStep A table flags archFlags virt phys remain s).1) % wordSize)
          (remain - (mapStep A table flags archFlags virt phys remain s).1)
          (mapped + (mapStep A table flags archFlags virt phys remain s).1)
          (mapStep A table flags archFlags virt phys remain s).2 :=
  rfl

/-- The loop ends when nothing remains. -/
theorem mapRangeLoop_done (table flags archFlags fuel virt phys mapped : ℕ) (s : Machine S) :
    mapRangeLoop A table flags archFlags fuel virt phys 0 mapped s = (mapped, s) := by
  cases fuel with
  | zero => rfl
  | succ fuel => rw [mapRangeLoop_succ, if_pos rfl]

/-- The loop terminates: one iteration per remaining page is enough, and more change nothing. -/
theorem mapRangeLoop_fuel (table flags archFlags : ℕ) {fuel fuel' virt phys remain mapped : ℕ}
    (s : Machine S) (hdvd : 4096 ∣ remain) (hfuel : remain ≤ fuel * 4096)
    (hfuel' : remain ≤ fuel' * 4096) :
    mapRangeLoop A table flags archFlags fuel virt phys remain mapped s =
      mapRangeLoop A table flags archFlags fuel' virt phys remain mapped s := by
  induction fuel generalizing fuel' virt phys remain mapped s with
  | zero =>
    obtain rfl : remain = 0 := by omega
    rw [mapRangeLoop_done, mapRangeLoop_done]
  | succ fuel ih =>
    by_cases hzero : remain = 0
    · subst hzero
      rw [mapRangeLoop_done, mapRangeLoop_done]
    · obtain ⟨fuel', rfl⟩ : ∃ n, fuel' = n + 1 := ⟨fuel' - 1, by omega⟩
      have hsize := mapStep_size A table flags archFlags virt phys remain (by omega) s
      rw [mapRangeLoop_succ, mapRangeLoop_succ, if_neg hzero, if_neg hzero]
      split
      next => rfl
      next hstep => exact ih _ (by omega) (by omega) (by omega)

end Sizes

section Range

variable {S : Type*} {A : KernelAlloc S} {Ok : S → Prop} {frames : S → Set ℕ} {root : ℕ}
  (hA : A.LawfulPages Ok frames)

include hA

/-- One iteration of `pmap_map_range` overlays the bytes that it maps. -/
theorem mapStep_spec {virt phys remain : ℕ} (flags : ℕ) {s : Machine S} (hs : PtState Ok frames root s)
    (hvirt : 4096 ∣ virt) (hphys : 4096 ∣ phys) (hremain : 4096 ≤ remain)
    (hlt : phys + remain ≤ 2 ^ 52) (hhalf : InOneHalf virt remain) :
    PtState Ok frames root (mapStep A root flags (parseCommonFlags flags) virt phys remain s).2 ∧
      Overlay s.mem (mapStep A root flags (parseCommonFlags flags) virt phys remain s).2.mem root
        virt phys (mapStep A root flags (parseCommonFlags flags) virt phys remain s).1
        (flagsAccess flags) := by
  simp only [InOneHalf] at hhalf
  have hmap := map_spec hA flags hs hvirt hphys (by omega)
    (by simp only [InOneHalf]; omega)
  rw [mapStep]
  split_ifs
  · rw [mapHugeOk]
    split_ifs with h1G h2M
    · obtain ⟨hp, hv, hr⟩ := h1G
      simp only [pageSize1G] at hr
      exact map1g_spec hA flags hs (Nat.dvd_of_mod_eq_zero hv) (Nat.dvd_of_mod_eq_zero hp) (by omega)
        (by simp only [InOneHalf, pageSize1G]; omega)
    · obtain ⟨hp, hv, hr⟩ := h2M
      simp only [pageSize2M] at hr
      exact map2m_spec hA flags hs (Nat.dvd_of_mod_eq_zero hv) (Nat.dvd_of_mod_eq_zero hp) (by omega)
        (by simp only [InOneHalf, pageSize2M]; omega)
    · exact hmap
  · exact hmap

/-- The loop of `pmap_map_range` overlays the bytes that it reports as mapped. -/
theorem mapRangeLoop_spec (flags fuel virt phys remain mapped : ℕ) {s : Machine S}
    (hs : PtState Ok frames root s) (hvirt : 4096 ∣ virt) (hphys : 4096 ∣ phys)
    (hremain : 4096 ∣ remain) (hlt : phys + remain ≤ 2 ^ 52) (hhalf : InOneHalf virt remain) :
    ∃ m s', mapRangeLoop A root flags (parseCommonFlags flags) fuel virt phys remain mapped s =
        (mapped + m, s') ∧
      m ≤ remain ∧ PtState Ok frames root s' ∧
        Overlay s.mem s'.mem root virt phys m (flagsAccess flags) := by
  induction fuel generalizing virt phys remain mapped s with
  | zero => exact ⟨0, s, rfl, by omega, hs, overlay_zero fun _ => rfl⟩
  | succ fuel ih =>
    rw [mapRangeLoop_succ]
    by_cases hzero : remain = 0
    · exact ⟨0, s, by rw [if_pos hzero, Nat.add_zero], by omega, hs, overlay_zero fun _ => rfl⟩
    · have hsize := mapStep_size A root flags (parseCommonFlags flags) virt phys remain
        (by omega) s
      obtain ⟨hs', hover⟩ := mapStep_spec hA flags hs hvirt hphys (by omega) hlt hhalf
      rw [if_neg hzero]
      generalize mapStep A root flags (parseCommonFlags flags) virt phys remain s = r at *
      obtain ⟨step, s'⟩ := r
      simp only at hsize hs' hover ⊢
      by_cases hstep : step = 0
      · subst hstep
        exact ⟨0, s', by rw [if_pos rfl, Nat.add_zero], by omega, hs', hover⟩
      · rw [if_neg hstep]
        by_cases hlast : remain - step = 0
        · rw [hlast, mapRangeLoop_done]
          exact ⟨step, s', rfl, by omega, hs', hover⟩
        · simp only [InOneHalf] at hhalf
          rw [Nat.mod_eq_of_lt (by simp only [wordSize]; omega),
            Nat.mod_eq_of_lt (by simp only [wordSize]; omega)]
          obtain ⟨m, s'', hrun, hm, hs'', hover'⟩ := ih (virt + step) (phys + step) (remain - step)
            (mapped + step) hs' (by omega) (by omega) (by omega) (by omega)
            (by simp only [InOneHalf]; omega)
          exact ⟨step + m, s'', by rw [hrun, Nat.add_assoc], by omega, hs'', hover.trans hover'⟩

end Range

/-- The page-rounded length of a range inside one canonical half. -/
theorem roundedLength_eq {virt len : ℕ} (hvirt : virt < wordSize) (hhalf : InOneHalf virt len) :
    roundedLength virt len = (virt + len + 4095) / 4096 * 4096 - virt / 4096 * 4096 := by
  simp only [InOneHalf] at hhalf
  rw [roundedLength, alignUp_page, alignDown_page hvirt]
  simp only [wordSize] at hvirt ⊢
  omega

/-- Range mapping is exact. On a well-formed page table, for a range inside one canonical half,
any flags and any outcome of the page-table allocations, the loop of `pmap_map_range`
terminates and returns some `m` up to the page-rounded length. Afterwards each of the first `m`
bytes of the rounded range translates to its offset in physical memory with the permissions in
the flags, and every other address translates as before. Two calls that differ in
`MMU_FLAG_HUGE_OK` only and both map everything give the same translation of every address. -/
theorem pmapMapRange_exact {S : Type*} {A : KernelAlloc S} {Ok : S → Prop} {frames : S → Set ℕ}
    (hA : A.LawfulPages Ok frames) {root virt phys len : ℕ} (flags : ℕ) {s : Machine S}
    (hok : Ok s.alloc) (hwf : WellFormedTable (frames s.alloc) s.mem root)
    (hvirt : virt < wordSize) (hhalf : InOneHalf virt len) (hphys : phys + len ≤ 2 ^ 52)
    (hmod : virt % pageSize = phys % pageSize) :
    ∃ m s', pmapMapRange A root virt phys flags len s = (m, s') ∧
      (∀ fuel, roundedLength virt len / pageSize ≤ fuel →
        mapRangeLoop A root flags (parseCommonFlags flags) fuel (alignDown virt pageSize)
          (alignDown phys pageSize) (roundedLength virt len) 0 s = (m, s')) ∧
      m ≤ (virt + len + 4095) / 4096 * 4096 - virt / 4096 * 4096 ∧
      Ok s'.alloc ∧ WellFormedTable (frames s'.alloc) s'.mem root ∧
      (∀ va, translate s'.mem root va =
        if virt / 4096 * 4096 ≤ va ∧ va < virt / 4096 * 4096 + m then
          some ⟨va + phys - virt, flagsAccess flags⟩
        else translate s.mem root va) ∧
      ∀ flags' s'', flagsAccess flags' = flagsAccess flags →
        m = (virt + len + 4095) / 4096 * 4096 - virt / 4096 * 4096 →
        pmapMapRange A root virt phys flags' len s = (m, s'') →
        ∀ va, translate s''.mem root va = translate s'.mem root va := by
  have hround := roundedLength_eq hvirt hhalf
  have hdown := alignDown_page hvirt
  have hdown' : alignDown phys pageSize = phys / 4096 * 4096 :=
    alignDown_page (by simp only [wordSize]; omega)
  simp only [InOneHalf] at hhalf
  simp only [pageSize, wordSize] at hmod hvirt
  have hloop : ∀ flags, ∃ m s', pmapMapRange A root virt phys flags len s = (m, s') ∧
      m ≤ roundedLength virt len ∧ PtState Ok frames root s' ∧
      Overlay s.mem s'.mem root (virt / 4096 * 4096) (phys / 4096 * 4096) m
        (flagsAccess flags) := by
    intro flags
    obtain ⟨m, s', hrun, hm, hs', hover⟩ := mapRangeLoop_spec hA flags
      (roundedLength virt len / pageSize) (alignDown virt pageSize) (alignDown phys pageSize)
      (roundedLength virt len) 0
      ⟨hok, hwf⟩ (by rw [hdown]; omega) (by rw [hdown']; omega) (by rw [hround]; omega)
      (by rw [hround, hdown']; omega) (by rw [hround, hdown]; simp only [InOneHalf]; omega)
    rw [hdown, hdown'] at hover
    refine ⟨m, s', ?_, hm, hs', hover⟩
    rw [pmapMapRange, hrun, Nat.zero_add]
  have hoffset : ∀ {va m : ℕ}, virt / 4096 * 4096 ≤ va ∧ va < virt / 4096 * 4096 + m →
      phys / 4096 * 4096 + (va - virt / 4096 * 4096) = va + phys - virt := by omega
  have hexact : ∀ {m : ℕ} {s' : Machine S} {flags : ℕ},
      Overlay s.mem s'.mem root (virt / 4096 * 4096) (phys / 4096 * 4096) m (flagsAccess flags) →
      ∀ va, translate s'.mem root va =
        if virt / 4096 * 4096 ≤ va ∧ va < virt / 4096 * 4096 + m then
          some ⟨va + phys - virt, flagsAccess flags⟩
        else translate s.mem root va := by
    intro m s' flags hover va
    rw [hover va]
    split
    next hva => rw [hoffset hva]
    next => rfl
  obtain ⟨m, s', hrun, hm, hs', hover⟩ := hloop flags
  refine ⟨m, s', hrun, ?_, hround ▸ hm, hs'.ok, hs'.table, hexact hover, ?_⟩
  · intro fuel hfuel
    simp only [pageSize] at hfuel
    rw [← hrun, pmapMapRange]
    exact mapRangeLoop_fuel A root flags _ s (by rw [hround]; omega) (by omega)
      (by simp only [pageSize]; omega)
  · intro flags' s'' hflags hfull hrun' va
    obtain ⟨m'', s₂, hrun₂, -, -, hover₂⟩ := hloop flags'
    obtain ⟨rfl, rfl⟩ := Prod.mk.inj (hrun'.symm.trans hrun₂)
    rw [hexact hover₂ va, hexact hover va, hflags]

/-- On the small map: frame 1 is an empty PML4, and with `MMU_FLAG_HUGE_OK` a range of `0x201000` bytes is
mapped as a page, a 2 MiB leaf and another page. That takes the four frames that are left, for tables. -/
theorem pmapMapRange_exact_sixFrameMap :
    ∃ s₀ s', initBitmapPmm sixFrameMap (fun _ => 0#8) = some s₀ ∧
      pmapMapRange kernelAllocators 0x1000 0x1ff234 0x3ff234 (7 ||| mmuFlagHugeOk) 0x201000
        ⟨fun _ _ => 0, (kernelAllocators.allocPage (bootMem s₀)).2, []⟩ = (0x202000, s') ∧
      translate s'.mem 0x1000 0x1ff000 = some ⟨0x3ff000, flagsAccess 7⟩ ∧
      translate s'.mem 0x1000 0x312345 = some ⟨0x512345, flagsAccess 7⟩ ∧
      translate s'.mem 0x1000 0x400fff = some ⟨0x600fff, flagsAccess 7⟩ ∧
      translate s'.mem 0x1000 0x401000 = translate (fun _ _ => 0) 0x1000 0x401000 := by
  obtain ⟨s₀, hinit⟩ := initBitmapPmm_isSome sixFrameMap_bootable (fun _ => 0#8)
  have hok := bootMem_ok (Pmm.Ok.of_init sixFrameMap_bootable hinit)
  have hA := kernelAllocators_lawful
  have hrun : ((initBitmapPmm sixFrameMap (fun _ => 0#8)).map fun pages =>
      ((kernelAllocators.allocPage (bootMem pages)).1,
        (pmapMapRange kernelAllocators 0x1000 0x1ff234 0x3ff234 (7 ||| mmuFlagHugeOk) 0x201000
          ⟨fun _ _ => 0, (kernelAllocators.allocPage (bootMem pages)).2, []⟩).1)) =
      some (0x1000, 0x202000) := by decide +kernel
  rw [hinit, Option.map_some, Option.some.injEq] at hrun
  obtain ⟨hroot, hmapped⟩ := Prod.mk.inj hrun
  have hframes := hA.allocPage_frames _ hok (by rw [hroot]; decide)
  obtain ⟨m, s', heq, -, -, -, -, hexact, -⟩ := @pmapMapRange_exact _ kernelAllocators _ _
    hA.toLawfulPages 0x1000 0x1ff234 0x3ff234 0x201000 (7 ||| mmuFlagHugeOk)
    ⟨fun _ _ => 0, (kernelAllocators.allocPage (bootMem s₀)).2, []⟩ (hA.allocPage_ok _ hok)
    (.of_empty (fun _ => rfl) (by rw [hframes, hroot]; exact .inl rfl)) (by decide)
    (.inl (by decide)) (by decide) (by decide)
  obtain rfl : m = 0x202000 := by rw [← hmapped, heq]
  exact ⟨s₀, s', hinit, heq, (hexact 0x1ff000).trans (if_pos (by decide)),
    (hexact 0x312345).trans (if_pos (by decide)), (hexact 0x400fff).trans (if_pos (by decide)),
    (hexact 0x401000).trans (if_neg (by decide))⟩

end Flos.Mm
