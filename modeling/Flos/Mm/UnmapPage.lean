import Flos.Mm.KernelTable
import Flos.Mm.SpaceOps

/-!
# Unmapping a page

`pmap_unmap_page` walks without allocating, so it reaches exactly the leaves of 4 KiB pages. In a page
table whose clear entries are zero it removes one such page and returns its frame, or does nothing; it
undoes a mapping up to the page that was there before.
-/

namespace Flos.Mm

open Flos.Lib

/-- The address translates through a 4 KiB leaf, to this frame. -/
def SmallLeaf (mem : ℕ → Fin 512 → ℕ) (root va frame : ℕ) : Prop :=
  (walkEntries tableEntry mem root (pathOf va)).length = 4 ∧
    ∃ access, translate mem root va = some ⟨frame + va % 4096, access⟩

/-- The frame of the 4 KiB leaf of an address, computed. -/
def smallFrame (mem : ℕ → Fin 512 → ℕ) (root va : ℕ) : Option ℕ :=
  (tableAt tableEntry mem root [pml4Idx va, pdptIdx va, pdIdx va]).bind fun t =>
    if (mem t (ptIdx va)).testBit 0 then some (mem t (ptIdx va) &&& pagePhysMask) else none

/-- A page table that reaches no table twice, and whose last-level entries are present or zero. -/
structure CleanTable (mem : ℕ → Fin 512 → ℕ) (root : ℕ) : Prop where
  distinct : DistinctTables tableEntry InTables mem root
  zero : ∀ p t i, p.length = 3 → tableAt tableEntry mem root p = some t →
    (mem t i).testBit 0 = false → mem t i = 0

/-- Canonical addresses share a path when they lie in one page. -/
theorem pathOf_eq_iff_of_canonical {a b : ℕ} (ha : Canonical a) (hb : Canonical b) :
    pathOf a = pathOf b ↔ a / 4096 = b / 4096 := by
  simp only [pathOf, List.cons.injEq, and_true, pml4Idx, pdptIdx, pdIdx, ptIdx, tableIdx_eq_iff]
  simp only [Canonical] at ha hb
  omega

/-- The addresses of a page are canonical with it. -/
theorem Canonical.of_page {a b : ℕ} (h : Canonical a) (hpage : b / 4096 = a / 4096) : Canonical b := by
  simp only [Canonical] at h ⊢
  omega

section Leaf

variable {mem : ℕ → Fin 512 → ℕ} {root va frame t : ℕ}

/-- The translation of an address with a table of the last level. -/
theorem translate_of_tableAt (hva : Canonical va)
    (ht : tableAt tableEntry mem root [pml4Idx va, pdptIdx va, pdIdx va] = some t) :
    translate mem root va =
      if (mem t (ptIdx va)).testBit 0 then
        some ⟨(mem t (ptIdx va) &&& pagePhysMask) + va % 4096,
          walkAccess (walkEntries tableEntry mem root (pathOf va)) (mem t (ptIdx va))⟩
      else none := by
  have hwalk : walkEntries tableEntry mem root (pathOf va) =
      walkEntries tableEntry mem root [pml4Idx va, pdptIdx va, pdIdx va] ++ [mem t (ptIdx va)] := by
    rw [show pathOf va = [pml4Idx va, pdptIdx va, pdIdx va] ++ [ptIdx va] from rfl,
      walkEntries_append_of_some ht, walkEntries_singleton]
  have hlen := walkEntries_length_of_some ht
  rw [translate, if_pos hva, hwalk, decodeWalk, List.getLast?_concat, List.length_append, hlen]
  rfl

/-- A 4 KiB leaf, by the entry in its table of the last level. -/
theorem smallLeaf_iff (hva : Canonical va) :
    SmallLeaf mem root va frame ↔
      ∃ t, tableAt tableEntry mem root [pml4Idx va, pdptIdx va, pdIdx va] = some t ∧
        (mem t (ptIdx va)).testBit 0 = true ∧ mem t (ptIdx va) &&& pagePhysMask = frame := by
  have hlen : (walkEntries tableEntry mem root (pathOf va)).length = 4 ↔ _ :=
    walkEntries_concat_length_iff (p := [pml4Idx va, pdptIdx va, pdIdx va])
  rw [SmallLeaf, hlen, ← exists_and_right]
  refine exists_congr fun t => and_congr_right fun ht => ?_
  rw [translate_of_tableAt hva ht]
  cases (mem t (ptIdx va)).testBit 0 with
  | false => simp
  | true => simp

/-- The leaf of a canonical address is the computed one. -/
theorem smallLeaf_iff_smallFrame (hva : Canonical va) :
    SmallLeaf mem root va frame ↔ smallFrame mem root va = some frame := by
  rw [smallLeaf_iff hva, smallFrame, Option.bind_eq_some_iff]
  refine exists_congr fun t => and_congr_right fun _ => ?_
  split
  next hbit => simp [hbit]
  next hbit => simp [hbit]

/-- Only canonical addresses translate. -/
theorem SmallLeaf.canonical (h : SmallLeaf mem root va frame) : Canonical va := by
  obtain ⟨-, access, htrans⟩ := h
  by_contra hva
  rw [translate, if_neg hva] at htrans
  cases htrans

/-- The addresses of a page have the same 4 KiB leaf. -/
theorem SmallLeaf.of_page (h : SmallLeaf mem root va frame) {x : ℕ} (hpage : x / 4096 = va / 4096) :
    SmallLeaf mem root x frame := by
  have hx := h.canonical.of_page hpage
  have hpath := (pathOf_eq_iff_of_canonical hx h.canonical).mpr hpage
  simp only [pathOf, List.cons.injEq, and_true] at hpath
  have hleaf := (smallLeaf_iff h.canonical).mp h
  rw [smallLeaf_iff hx, hpath.1, hpath.2.1, hpath.2.2.1, hpath.2.2.2]
  exact hleaf

/-- Clearing an entry of the last level changes no walk of another page. -/
theorem walkEntries_clear (hdistinct : DistinctTables tableEntry InTables mem root) (hva : Canonical va)
    (ht : tableAt tableEntry mem root [pml4Idx va, pdptIdx va, pdIdx va] = some t) {x : ℕ}
    (hx : Canonical x) (hpage : x / 4096 ≠ va / 4096) :
    walkEntries tableEntry (writeSlot mem t (ptIdx va) 0) root (pathOf x) =
      walkEntries tableEntry mem root (pathOf x) := by
  have hp : InTables [pml4Idx va, pdptIdx va, pdIdx va] := by simp [InTables]
  refine (agreeAlong_writeSlot hdistinct hp ht
    (readsWithin_inTables (pathOf_length x).le) fun hextends => hpage ?_).walkEntries_eq
  have hpath : pathOf va = pathOf x := hextends.eq_of_length rfl
  exact (pathOf_eq_iff_of_canonical hx hva).mp hpath.symm

/-- Clearing an entry of the last level removes its page and changes no other translation. -/
theorem translate_clear (hdistinct : DistinctTables tableEntry InTables mem root) (hva : Canonical va)
    (ht : tableAt tableEntry mem root [pml4Idx va, pdptIdx va, pdIdx va] = some t) (x : ℕ) :
    translate (writeSlot mem t (ptIdx va) 0) root x =
      if x / 4096 = va / 4096 then none else translate mem root x := by
  have hp : InTables [pml4Idx va, pdptIdx va, pdIdx va] := by simp [InTables]
  by_cases hx : Canonical x
  · by_cases hpage : x / 4096 = va / 4096
    · have hpath : pathOf x = [pml4Idx va, pdptIdx va, pdIdx va] ++ ptIdx va :: [] :=
        (pathOf_eq_iff_of_canonical hx hva).mpr hpage
      rw [if_pos hpage, translate, if_pos hx, hpath,
        walkEntries_writeSlot_leaf hdistinct hp ht (inTables_closed _ hp) (.inr rfl),
        decodeWalk_of_clear _ (Nat.zero_testBit 0)]
    · rw [if_neg hpage]
      exact translate_congr (walkEntries_clear hdistinct hva ht hx hpage)
  · have hpage : x / 4096 ≠ va / 4096 := fun h => hx (hva.of_page h)
    rw [if_neg hpage, translate, translate, if_neg hx, if_neg hx]

/-- Clearing an entry of the last level leaves the 4 KiB leaves of the other pages. -/
theorem smallLeaf_clear (hdistinct : DistinctTables tableEntry InTables mem root) (hva : Canonical va)
    (ht : tableAt tableEntry mem root [pml4Idx va, pdptIdx va, pdIdx va] = some t) (x : ℕ) :
    SmallLeaf (writeSlot mem t (ptIdx va) 0) root x frame ↔
      x / 4096 ≠ va / 4096 ∧ SmallLeaf mem root x frame := by
  have hclear := translate_clear hdistinct hva ht x
  constructor
  · intro h
    have hpage : x / 4096 ≠ va / 4096 := by
      intro hpage
      obtain ⟨-, access, htrans⟩ := h
      rw [hclear, if_pos hpage] at htrans
      cases htrans
    have hwalk := walkEntries_clear hdistinct hva ht h.canonical hpage
    rw [SmallLeaf, hclear, if_neg hpage, hwalk] at h
    exact ⟨hpage, h⟩
  · rintro ⟨hpage, h⟩
    rwa [SmallLeaf, hclear, if_neg hpage, walkEntries_clear hdistinct hva ht h.canonical hpage]

/-- Clearing an entry of the last level keeps the page table clean. -/
theorem CleanTable.clear (h : CleanTable mem root) {p : List (Fin 512)} {i : Fin 512}
    (_ : tableAt tableEntry mem root p = some t) : CleanTable (writeSlot mem t i 0) root := by
  have hback := fun {q u} (hu : tableAt tableEntry (writeSlot mem t i 0) root q = some u) =>
    tableAt_of_writeSlot_none tableEntry_zero hu
  refine ⟨fun a b u ha hb hta htb => h.distinct a b u ha hb (hback hta) (hback htb), ?_⟩
  intro q u j hq hu hclear
  by_cases hslot : u = t ∧ j = i
  · obtain ⟨rfl, rfl⟩ := hslot
    exact writeSlot_self
  · rw [writeSlot_of_ne hslot] at hclear ⊢
    exact h.zero q u j hq (hback hu) hclear

end Leaf

section Unmap

variable {S : Type*} (A : KernelAlloc S) {root va : ℕ} {s : Machine S}

/-- `pmap_unmap_page` on a clean page table: it removes the page of the address, if there is one. -/
structure UnmapsPage (root va : ℕ) (s : Machine S) (r : ℕ × Machine S) : Prop where
  found : ∀ frame, SmallLeaf s.mem root va frame → r.1 = frame ∧
    ∀ x, translate r.2.mem root x = if x / 4096 = va / 4096 then none else translate s.mem root x
  missing : (¬ ∃ frame, SmallLeaf s.mem root va frame) → r.1 = 0 ∧
    ∀ x, translate r.2.mem root x = translate s.mem root x
  leaves : ∀ x frame, SmallLeaf r.2.mem root x frame ↔
    x / 4096 ≠ va / 4096 ∧ SmallLeaf s.mem root x frame
  log : r.2.log = s.log
  clean : CleanTable r.2.mem root

/-- Where there is a page, `pmap_unmap_page` removes it and returns its frame. -/
theorem pmapUnmapPage_found (hdistinct : DistinctTables tableEntry InTables s.mem root) (hva : Canonical va)
    {frame : ℕ} (hleaf : SmallLeaf s.mem root va frame) :
    (pmapUnmapPage A root va s).1 = frame ∧ ∀ x, translate (pmapUnmapPage A root va s).2.mem root x =
      if x / 4096 = va / 4096 then none else translate s.mem root x := by
  obtain ⟨t, ht, -, hframe⟩ := (smallLeaf_iff hva).mp hleaf
  rcases pmapUnmapPage_cases A root va s with ⟨hnone, -⟩ | ⟨u, hu, hr⟩
  · rw [hnone] at ht
    cases ht
  · obtain rfl := Option.some.inj (ht.symm.trans hu)
    rw [hr]
    exact ⟨hframe, translate_clear hdistinct hva ht⟩

/-- Unmapping a page of a clean page table. -/
theorem pmapUnmapPage_unmapsPage (hclean : CleanTable s.mem root) (hva : Canonical va) :
    UnmapsPage root va s (pmapUnmapPage A root va s) := by
  have hfound := fun {frame} => @pmapUnmapPage_found _ A _ _ _ hclean.distinct hva frame
  rcases pmapUnmapPage_cases A root va s with ⟨hnone, hr⟩ | ⟨t, ht, hr⟩
  all_goals rw [hr] at hfound ⊢
  · refine ⟨fun _ => hfound, fun _ => ⟨rfl, fun _ => rfl⟩, fun x frame => ?_, rfl, hclean⟩
    refine (and_iff_right_of_imp fun hleaf hpage => ?_).symm
    obtain ⟨t, ht, -⟩ := (smallLeaf_iff hleaf.canonical).mp hleaf
    have hpath := (pathOf_eq_iff_of_canonical hleaf.canonical hva).mpr hpage
    simp only [pathOf, List.cons.injEq, and_true] at hpath
    rw [hpath.1, hpath.2.1, hpath.2.2.1, hnone] at ht
    cases ht
  · refine ⟨fun _ => hfound, fun hmissing => ?_, fun x frame => smallLeaf_clear hclean.distinct hva ht x,
      rfl, hclean.clear ht⟩
    -- the entry is not present, so it is zero and stays so
    have hzero : s.mem t (ptIdx va) = 0 := by
      refine hclean.zero _ t _ rfl ht (Bool.eq_false_iff.mpr fun hbit => hmissing ?_)
      exact ⟨_, (smallLeaf_iff hva).mpr ⟨t, ht, hbit, rfl⟩⟩
    exact ⟨by rw [hzero, Nat.zero_and], fun x => by rw [writeSlot_eq_self hzero]⟩

/-- A leaf that has been written is reached through its path. -/
theorem mapLeaf_reaches {Ok : S → Prop} {frames : S → Set ℕ} (hA : A.LawfulPages Ok frames)
    (hs : PtState Ok frames root s) {path : List (Fin 512)} {index : Fin 512} {entry size : ℕ}
    (hlen : path.length ≤ 3) (hmapped : (mapLeaf A root path index entry size s).1 ≠ 0) :
    ∃ t, tableAt tableEntry (mapLeaf A root path index entry size s).2.mem root path = some t ∧
      (mapLeaf A root path index entry size s).2.mem t index = entry := by
  obtain ⟨hs', -, hreach⟩ := descend_spec hA hs hlen
  rw [mapLeaf] at hmapped ⊢
  rcases hr : descend A true root path s with ⟨_ | t, s'⟩
  all_goals rw [hr] at hs' hreach hmapped
  · exact absurd rfl hmapped
  · exact ⟨t, tableAt_writeSlot_self hs'.table.distinct hlen (hreach t rfl) (inTables_closed path hlen),
      writeSlot_self⟩

/-- A page that has been mapped is found again, with the permissions of its flags, and no other
translation has changed. -/
theorem pmapMapPage_smallLeaf {Ok : S → Prop} {frames : S → Set ℕ} (hA : A.LawfulPages Ok frames)
    (hs : PtState Ok frames root s) (hva : Canonical va) {phys : ℕ} (flags : ℕ) (hdvd : 4096 ∣ phys)
    (hlt : phys < 2 ^ 52) (hmapped : (pmapMapPage A root va phys flags s).1 ≠ 0) :
    PtState Ok frames root (pmapMapPage A root va phys flags s).2 ∧
      SmallLeaf (pmapMapPage A root va phys flags s).2.mem root va phys ∧
      ∀ x, translate (pmapMapPage A root va phys flags s).2.mem root x =
        if x / 4096 = va / 4096 then some ⟨phys + x % 4096, flagsAccess flags⟩
        else translate s.mem root x := by
  have hword : va < wordSize := by
    simp only [Canonical, wordSize] at hva ⊢
    omega
  have hpage : pmapMapPage A root va phys flags s =
      map A root (va / 4096 * 4096) phys (parseCommonFlags flags) s := by
    rw [pmapMapPage, alignDown_page hword, alignDown_page (hlt.trans (by decide)),
      Nat.div_mul_cancel hdvd]
  rw [hpage] at hmapped ⊢
  have hhalf : InOneHalf (va / 4096 * 4096) 4096 := by
    simp only [Canonical] at hva
    simp only [InOneHalf]
    omega
  obtain ⟨hs', hover⟩ := map_spec hA flags hs (Nat.dvd_mul_left _ _) hdvd hlt hhalf
  have hsize := mapLeaf_size A root [pml4Idx (va / 4096 * 4096), pdptIdx (va / 4096 * 4096),
    pdIdx (va / 4096 * 4096)] (ptIdx (va / 4096 * 4096)) (phys ||| parseCommonFlags flags) pageSize s
  have hfull : (map A root (va / 4096 * 4096) phys (parseCommonFlags flags) s).1 = 4096 :=
    hsize.resolve_left hmapped
  rw [hfull] at hover
  refine ⟨hs', ⟨?_, ?_⟩, fun x => ?_⟩
  · obtain ⟨t, ht, -⟩ := mapLeaf_reaches A hA hs (by simp) hmapped
    have hpath : pathOf va = pathOf (va / 4096 * 4096) := by
      refine (pathOf_eq_iff_of_canonical hva (hva.of_page ?_)).mpr ?_ <;> omega
    rw [hpath]
    exact walkEntries_concat_length_iff.mpr ⟨t, ht⟩
  · refine ⟨flagsAccess flags, ?_⟩
    rw [hover va, if_pos (by omega)]
    congr 2
    omega
  · rw [hover x]
    by_cases hx : x / 4096 = va / 4096
    · rw [if_pos (by omega), if_pos hx]
      congr 2
      omega
    · rw [if_neg (by omega), if_neg hx]

/-- Unmapping undoes mapping. On a clean page table and a canonical address, `pmap_unmap_page` removes the
4 KiB page of the address and returns its frame, or returns `0` and changes no translation if there is
none. On a well-formed page table, after a mapping of a non-zero frame that succeeded, it returns the
frame, and the translations are those before the mapping, with the page removed. -/
theorem pmapUnmapPage_undoes {Ok : S → Prop} {frames : S → Set ℕ} (hA : A.LawfulPages Ok frames)
    (hclean : CleanTable s.mem root) (hva : Canonical va) :
    (∀ frame, SmallLeaf s.mem root va frame →
      (pmapUnmapPage A root va s).1 = frame ∧
      ∀ x, translate (pmapUnmapPage A root va s).2.mem root x =
        if x / 4096 = va / 4096 then none else translate s.mem root x) ∧
    ((¬ ∃ frame, SmallLeaf s.mem root va frame) →
      (pmapUnmapPage A root va s).1 = 0 ∧
      ∀ x, translate (pmapUnmapPage A root va s).2.mem root x = translate s.mem root x) ∧
    (PtState Ok frames root s → ∀ phys flags, 4096 ∣ phys → phys < 2 ^ 52 →
      (pmapMapPage A root va phys flags s).1 ≠ 0 →
      (pmapUnmapPage A root va (pmapMapPage A root va phys flags s).2).1 = phys ∧
      ∀ x, translate (pmapUnmapPage A root va (pmapMapPage A root va phys flags s).2).2.mem root x =
        if x / 4096 = va / 4096 then none else translate s.mem root x) := by
  have hunmap := pmapUnmapPage_unmapsPage A hclean hva
  refine ⟨hunmap.found, hunmap.missing, fun hs phys flags hdvd hlt hmapped => ?_⟩
  obtain ⟨hs', hleaf, hothers⟩ := pmapMapPage_smallLeaf A hA hs hva flags hdvd hlt hmapped
  obtain ⟨hphys, htrans⟩ := pmapUnmapPage_found A hs'.table.distinct hva hleaf
  refine ⟨hphys, fun x => ?_⟩
  rw [htrans x]
  split
  next => rfl
  next hx => rw [hothers x, if_neg hx]

end Unmap

/-! ## Mapping keeps the page table clean -/

section Clean

variable {S : Type*} {A : KernelAlloc S} {Ok : S → Prop} {frames : S → Set ℕ} {root t : ℕ}
  {p : List (Fin 512)} {i : Fin 512}

/-- A new table has no entries that could be stale. -/
theorem CleanTable.link {frames : Set ℕ} {mem : ℕ → Fin 512 → ℕ} {g : ℕ} (h : CleanTable mem root)
    (hwf : WellFormedTable frames mem root) (hp : p.length ≤ 2)
    (ht : tableAt tableEntry mem root p = some t) (hclear : (mem t i).testBit 0 = false)
    (hfresh : g ∉ frames) (hdvd : 4096 ∣ g) (hlt : g < 2 ^ 52) : CleanTable (linkTable mem t i g) root := by
  obtain ⟨hwf', -, -⟩ := hwf.link hp ht hclear hfresh hdvd hlt
  refine ⟨hwf'.distinct, fun q u j hq hu hbit => ?_⟩
  rw [hwf.tableAt_linkTable hp ht hclear hfresh hdvd hlt (by omega)] at hu
  have hslot : ¬ (u = t ∧ j = i) := by
    -- the slot belongs to a table of an upper level
    rintro ⟨rfl, rfl⟩
    split at hu
    next => exact hfresh (Option.some.inj hu ▸ hwf.held p u (Nat.le_succ_of_le hp) ht)
    next =>
      obtain rfl := hwf.distinct q p u (by simp [InTables, hq]) (Nat.le_succ_of_le hp) hu ht
      omega
  rw [linkTable, writeSlot_of_ne hslot] at hbit ⊢
  by_cases hug : u = g
  · rw [hug, Function.update_self]
  · rw [Function.update_of_ne hug] at hbit ⊢
    split at hu
    next => exact absurd (Option.some.inj hu).symm hug
    next => exact h.zero q u j hq hu hbit

/-- A present entry is not stale. -/
theorem CleanTable.writeLeaf {frames : Set ℕ} {mem : ℕ → Fin 512 → ℕ} {entry : ℕ}
    (h : CleanTable mem root) (hwf : WellFormedTable frames mem root) (hp : InTables p)
    (ht : tableAt tableEntry mem root p = some t) (hend : tableEntry entry = none ∨ p.length = 3)
    (hpresent : entry.testBit 0 = true) : CleanTable (writeSlot mem t i entry) root := by
  refine ⟨(hwf.writeLeaf hp ht hend).distinct, fun q u j hq hu hbit => ?_⟩
  by_cases hslot : u = t ∧ j = i
  · obtain ⟨rfl, rfl⟩ := hslot
    rw [writeSlot_self, hpresent] at hbit
    cases hbit
  · rw [writeSlot_of_ne hslot] at hbit ⊢
    exact h.zero q u j hq (hwf.tableAt_of_writeLeaf hp ht hend (by simp [InTables, hq]) hu) hbit

/-- A walk that may allocate keeps the page table clean. -/
theorem CleanTable.descend (hA : A.LawfulPages Ok frames) {path : List (Fin 512)} {s : Machine S}
    (hs : PtState Ok frames root s) (h : CleanTable s.mem root) (hlen : path.length ≤ 3) :
    CleanTable (descend A true root path s).2.mem root := by
  have hstep : ∀ q u j s', q.length < 3 → (PtState Ok frames root s' ∧ CleanTable s'.mem root) →
      tableAt tableEntry s'.mem root q = some u →
      (PtState Ok frames root (getNextLevel A u j true s').2 ∧
        CleanTable (getNextLevel A u j true s').2.mem root) ∧
      ∀ g, (getNextLevel A u j true s').1 = some g →
        tableAt tableEntry (getNextLevel A u j true s').2.mem root (q ++ [j]) = some g := by
    intro q u j s' hq hinv hu
    obtain ⟨⟨hs', -⟩, hnext⟩ := getNextLevel_spec hA j hinv.1 (Nat.le_of_lt_succ hq) hu
    refine ⟨⟨hs', ?_⟩, hnext⟩
    rcases getNextLevel_cases A u j s' with ⟨f, -, hr⟩ | ⟨-, hr⟩ | ⟨-, -, hr⟩ | ⟨hclear, hnew, hr⟩
    all_goals rw [hr]
    · exact hinv.2
    · exact hinv.2
    · exact hinv.2
    · obtain ⟨hdvd, hlt⟩ := hA.allocPage_addr _ hinv.1.ok
      exact hinv.2.link hinv.1.table (Nat.le_of_lt_succ hq) hu hclear
        (hA.allocPage_fresh _ hinv.1.ok hnew) hdvd hlt
  exact (descend_invariant A hstep path [] root s (by simpa using hlen) ⟨hs, h⟩ rfl).1.2

/-- Mapping a page keeps the page table clean. -/
theorem CleanTable.pmapMapPage (hA : A.LawfulPages Ok frames) {s : Machine S}
    (hs : PtState Ok frames root s) (h : CleanTable s.mem root) (va phys flags : ℕ) :
    CleanTable (pmapMapPage A root va phys flags s).2.mem root := by
  have hpresent : (alignDown phys pageSize ||| parseCommonFlags flags).testBit 0 = true := by
    rw [Nat.testBit_or, parseCommonFlags_eq, (testBit_archBits _ _ _ _).1, Bool.or_true]
  have hlen : [pml4Idx (alignDown va pageSize), pdptIdx (alignDown va pageSize),
      pdIdx (alignDown va pageSize)].length ≤ 3 := le_rfl
  have hclean := h.descend hA hs hlen
  obtain ⟨hs', -, hreach⟩ := descend_spec hA hs hlen
  rw [Mm.pmapMapPage, map, mapLeaf]
  rcases hr : Mm.descend A true root [pml4Idx (alignDown va pageSize), pdptIdx (alignDown va pageSize),
      pdIdx (alignDown va pageSize)] s with ⟨_ | u, s'⟩
  all_goals rw [hr] at hclean hs' hreach
  · exact hclean
  · exact hclean.writeLeaf hs'.table hlen (hreach u rfl) (.inr rfl) hpresent

end Clean

/-- A table without entries is clean. -/
theorem CleanTable.of_empty {mem : ℕ → Fin 512 → ℕ} {root : ℕ} (hempty : ∀ i, mem root i = 0) :
    CleanTable mem root := by
  refine ⟨(WellFormedTable.of_empty hempty (Set.mem_univ root)).distinct, fun p t i hp ht _ => ?_⟩
  rw [(tableAt_of_empty hempty ht).1] at hp
  cases hp

section Create

variable {S : Type*} {A : KernelAlloc S} {Ok : S → Prop} {frames : S → Set ℕ}
  {objects : CacheName → S → Set ℕ} (hA : A.Lawful Ok frames objects) {s s' : Machine S}
  {space : VmMap} (hok : Ok s.alloc) (hcreate : vmMapCreate A none s = (some space, s'))

include hA hok hcreate

/-- The page table of an address space that was created before the kernel's is clean. -/
theorem vmMapCreate_none_clean : PtState Ok frames space.pageTable.pml4Phy s' ∧
    CleanTable s'.mem space.pageTable.pml4Phy := by
  obtain ⟨hs, hempty⟩ := vmMapCreate_none_empty hA hok hcreate
  exact ⟨hs, .of_empty hempty⟩

end Create

/-- On the small map a page is mapped in an empty page table and unmapped again. -/
theorem pmapUnmapPage_undoes_sixFrameMap :
    ∃ s₀ s, initBitmapPmm sixFrameMap (fun _ => 0#8) = some s₀ ∧
      s = (pmapMapPage kernelAllocators 0x1000 0x400000 0x5000 7
        ⟨fun _ _ => 0, (kernelAllocators.allocPage (bootMem s₀)).2, []⟩) ∧
      s.1 = 0x1000 ∧ (pmapUnmapPage kernelAllocators 0x1000 0x400000 s.2).1 = 0x5000 ∧
      translate (pmapUnmapPage kernelAllocators 0x1000 0x400000 s.2).2.mem 0x1000 0x400000 = none := by
  obtain ⟨s₀, hinit⟩ := initBitmapPmm_isSome sixFrameMap_bootable (fun _ => 0#8)
  have hok := bootMem_ok (Pmm.Ok.of_init sixFrameMap_bootable hinit)
  have hA := kernelAllocators_lawful
  have hrun : ((initBitmapPmm sixFrameMap (fun _ => 0#8)).map fun pages =>
      ((kernelAllocators.allocPage (bootMem pages)).1,
        (pmapMapPage kernelAllocators 0x1000 0x400000 0x5000 7
          ⟨fun _ _ => 0, (kernelAllocators.allocPage (bootMem pages)).2, []⟩).1)) =
      some (0x1000, 0x1000) := by decide +kernel
  rw [hinit, Option.map_some, Option.some.injEq] at hrun
  obtain ⟨hroot, hmapped⟩ := Prod.mk.inj hrun
  have hframes := hA.allocPage_frames _ hok (by rw [hroot]; decide)
  have hundo := @pmapUnmapPage_undoes _ kernelAllocators 0x1000 0x400000
    ⟨fun _ _ => 0, (kernelAllocators.allocPage (bootMem s₀)).2, []⟩ _ _ hA.toLawfulPages
    (.of_empty fun _ => rfl) (by decide)
  obtain ⟨hphys, htrans⟩ := hundo.2.2 ⟨hA.allocPage_ok _ hok,
    .of_empty (fun _ => rfl) (by rw [hframes, hroot]; exact .inl rfl)⟩ 0x5000 7 (by decide) (by decide)
    (by rw [hmapped]; decide)
  exact ⟨s₀, _, hinit, rfl, hmapped, hphys, (htrans 0x400000).trans (if_pos rfl)⟩

end Flos.Mm
