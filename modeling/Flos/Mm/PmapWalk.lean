import Flos.Mm.Translate

/-!
# Walking and extending a page table

A well-formed page table reaches pairwise distinct tables, all of them held by the allocator's
clients, through entries that grant every access. Walks that may allocate keep it well formed
and change no translation: a new table is linked into a slot that was not present, and it is
empty. Writing a leaf changes the translation of exactly the addresses behind its slot.
-/

namespace Flos.Mm

open Flos.Lib

/-- The paths to tables: a table of the last level sits below three indices. -/
def InTables (p : List (Fin 512)) : Prop := p.length ≤ 3

/-- A well-formed page table, with `frames` the frames in use. -/
structure WellFormedTable (frames : Set ℕ) (mem : ℕ → Fin 512 → ℕ) (root : ℕ) : Prop where
  distinct : DistinctTables tableEntry InTables mem root
  openLink : ∀ p i t f, p.length ≤ 2 → tableAt tableEntry mem root p = some t →
    tableEntry (mem t i) = some f → OpenEntry (mem t i)
  held : ∀ p t, InTables p → tableAt tableEntry mem root p = some t → t ∈ frames

/-- The walk of an address, and every shorter one, reads tables only. -/
theorem readsWithin_inTables {q : List (Fin 512)} (hq : q.length ≤ 4) : ReadsWithin InTables q := by
  rintro a j r rfl
  simp only [List.length_append, List.length_cons] at hq
  simp only [InTables]
  omega

/-- A path to a table passes through tables only. -/
theorem inTables_closed (q : List (Fin 512)) (hq : InTables q) : ReadsWithin InTables q :=
  readsWithin_inTables (Nat.le_succ_of_le hq)

/-- A walk has four levels. -/
@[simp] theorem pathOf_length (va : ℕ) : (pathOf va).length = 4 := rfl

/-- An entry points to a table when it is present and no huge page. -/
theorem tableEntry_eq_some {entry f : ℕ} :
    tableEntry entry = some f ↔
      entry.testBit 0 = true ∧ entry.testBit 7 = false ∧ entry &&& pagePhysMask = f := by
  unfold tableEntry
  cases entry.testBit 0 <;> cases entry.testBit 7 <;> simp

/-- An entry that is not present points nowhere. -/
theorem tableEntry_of_clear {entry : ℕ} (h : entry.testBit 0 = false) : tableEntry entry = none := by
  simp [tableEntry, h]

/-- A walk whose last entry is not present translates nothing. -/
theorem decodeWalk_of_clear (entries : List ℕ) {entry : ℕ} (h : entry.testBit 0 = false)
    (va : ℕ) : decodeWalk (entries ++ [entry]) va = none := by
  simp [decodeWalk, h]

/-- The translation depends on the entries of the walk only. -/
theorem translate_congr {mem mem' : ℕ → Fin 512 → ℕ} {root va : ℕ}
    (h : walkEntries tableEntry mem' root (pathOf va) = walkEntries tableEntry mem root (pathOf va)) :
    translate mem' root va = translate mem root va := by
  rw [translate, translate, h]

/-- The memory after a new table `g` has been cleared and linked into a slot. -/
def linkTable (mem : ℕ → Fin 512 → ℕ) (t : ℕ) (i : Fin 512) (g : ℕ) : ℕ → Fin 512 → ℕ :=
  writeSlot (Function.update mem g fun _ => 0) t i (g ||| pagePresent ||| pageRw ||| pageUser)

/-- A table without entries reaches no other table. -/
theorem tableAt_of_empty {mem : ℕ → Fin 512 → ℕ} {root t : ℕ} (hempty : ∀ i, mem root i = 0)
    {p : List (Fin 512)} (ht : tableAt tableEntry mem root p = some t) : p = [] ∧ t = root := by
  cases p with
  | nil => exact ⟨rfl, (Option.some.inj ht).symm⟩
  | cons i p =>
    rw [tableAt_cons_none (by rw [hempty i, tableEntry_zero])] at ht
    cases ht

/-- A table without entries is well formed. -/
theorem WellFormedTable.of_empty {frames : Set ℕ} {mem : ℕ → Fin 512 → ℕ} {root : ℕ}
    (hempty : ∀ i, mem root i = 0) (hroot : root ∈ frames) : WellFormedTable frames mem root := by
  refine ⟨fun p q t _ _ hp hq => ?_, fun p i t f _ ht hf => ?_, fun p t _ ht => ?_⟩
  · rw [(tableAt_of_empty hempty hp).1, (tableAt_of_empty hempty hq).1]
  · rw [(tableAt_of_empty hempty ht).2, hempty i, tableEntry_zero] at hf
    cases hf
  · rw [(tableAt_of_empty hempty ht).2]
    exact hroot

/-- The address has a table of the last level, and its entry there names the frame. -/
def PageLeaf (mem : ℕ → Fin 512 → ℕ) (root va frame : ℕ) : Prop :=
  ∃ t, tableAt tableEntry mem root [pml4Idx va, pdptIdx va, pdIdx va] = some t ∧
    mem t (ptIdx va) &&& pagePhysMask = frame

/-- Clearing an entry creates no leaf. -/
theorem PageLeaf.of_clear {mem : ℕ → Fin 512 → ℕ} {root va frame t : ℕ} {i : Fin 512}
    (h : PageLeaf (writeSlot mem t i 0) root va frame) (hne : frame ≠ 0) :
    PageLeaf mem root va frame := by
  obtain ⟨u, hu, hframe⟩ := h
  refine ⟨u, tableAt_of_writeSlot_none tableEntry_zero hu, ?_⟩
  rwa [writeSlot_of_ne] at hframe
  rintro ⟨rfl, rfl⟩
  rw [writeSlot_self, Nat.zero_and] at hframe
  exact hne hframe.symm

section Levels

variable {S : Type*} (A : KernelAlloc S)

/-- The outcomes of `get_next_level` when it may allocate: the table the entry points to; a huge
page in the way; no frame for a new table; or a new table. -/
theorem getNextLevel_cases (t : ℕ) (i : Fin 512) (s : Machine S) :
    (∃ f, tableEntry (s.mem t i) = some f ∧ getNextLevel A t i true s = (some f, s)) ∨
    (((s.mem t i).testBit 0 = true ∧ (s.mem t i).testBit 7 = true) ∧
      getNextLevel A t i true s = (none, s)) ∨
    ((s.mem t i).testBit 0 = false ∧ (s.allocPage A).1 = 0 ∧
      getNextLevel A t i true s = (none, (s.allocPage A).2)) ∨
    ((s.mem t i).testBit 0 = false ∧ (s.allocPage A).1 ≠ 0 ∧
      getNextLevel A t i true s =
        (some (s.allocPage A).1,
          { (s.allocPage A).2 with mem := linkTable s.mem t i (s.allocPage A).1 })) := by
  simp only [getNextLevel, pagePresent, pdePs, pdptePs, and_bit_ne_zero, or_self]
  cases h0 : (s.mem t i).testBit 0 with
  | true =>
    cases h7 : (s.mem t i).testBit 7 with
    | true => exact .inr (.inl ⟨⟨rfl, rfl⟩, by simp⟩)
    | false => exact .inl ⟨_, tableEntry_eq_some.mpr ⟨h0, h7, rfl⟩, by simp⟩
  | false =>
    by_cases hr : (s.allocPage A).1 = 0
    · exact .inr (.inr (.inl ⟨rfl, hr, by simp [hr]⟩))
    · refine .inr (.inr (.inr ⟨rfl, hr, ?_⟩))
      simp only [Bool.false_eq_true, if_false, Bool.not_true, hr]
      rfl

/-- Without allocation `get_next_level` follows the entry and changes nothing. -/
theorem getNextLevel_noalloc (t : ℕ) (i : Fin 512) (s : Machine S) :
    getNextLevel A t i false s = (tableEntry (s.mem t i), s) := by
  simp only [getNextLevel, pagePresent, pdePs, pdptePs, and_bit_ne_zero, or_self, tableEntry]
  cases (s.mem t i).testBit 0 <;> cases (s.mem t i).testBit 7 <;> simp

/-- A walk without allocation reaches the table at its path and changes nothing. -/
theorem descend_noalloc (path : List (Fin 512)) (t : ℕ) (s : Machine S) :
    descend A false t path s = (tableAt tableEntry s.mem t path, s) := by
  induction path generalizing t with
  | nil => rfl
  | cons i path ih =>
    rw [descend, getNextLevel_noalloc]
    cases hc : tableEntry (s.mem t i) with
    | none => simp only [tableAt_cons_none hc]
    | some g => simp only [tableAt_cons_some hc, ih]

/-- `pmap_unmap_page` clears the entry of a page and returns the frame that it names. -/
theorem pmapUnmapPage_cases (root va : ℕ) (s : Machine S) :
    (tableAt tableEntry s.mem root [pml4Idx va, pdptIdx va, pdIdx va] = none ∧
      pmapUnmapPage A root va s = (0, s)) ∨
    ∃ t, tableAt tableEntry s.mem root [pml4Idx va, pdptIdx va, pdIdx va] = some t ∧
      pmapUnmapPage A root va s =
        (s.mem t (ptIdx va) &&& pagePhysMask, { s with mem := writeSlot s.mem t (ptIdx va) 0 }) := by
  rw [pmapUnmapPage, descend_noalloc]
  cases tableAt tableEntry s.mem root [pml4Idx va, pdptIdx va, pdIdx va] with
  | none => exact .inl ⟨rfl, rfl⟩
  | some t => exact .inr ⟨t, rfl, rfl⟩

/-- Unmapping a page creates no leaf. -/
theorem PageLeaf.of_unmapPage {root va x f : ℕ} {s : Machine S}
    (h : PageLeaf (pmapUnmapPage A root va s).2.mem root x f) (hne : f ≠ 0) :
    PageLeaf s.mem root x f := by
  rcases pmapUnmapPage_cases A root va s with ⟨-, hr⟩ | ⟨t, -, hr⟩
  · rwa [hr] at h
  · rw [hr] at h
    exact h.of_clear hne

/-- The rule for walks that may allocate: what one level keeps, the walk keeps, and it ends in
the table at its path. -/
theorem descend_invariant {Inv : Machine S → Prop} {root n : ℕ}
    (hstep : ∀ p t i s, p.length < n → Inv s → tableAt tableEntry s.mem root p = some t →
      Inv (getNextLevel A t i true s).2 ∧ ∀ g, (getNextLevel A t i true s).1 = some g →
        tableAt tableEntry (getNextLevel A t i true s).2.mem root (p ++ [i]) = some g)
    (path p : List (Fin 512)) (t : ℕ) (s : Machine S) (hlen : p.length + path.length ≤ n)
    (hinv : Inv s) (ht : tableAt tableEntry s.mem root p = some t) :
    Inv (descend A true t path s).2 ∧ ∀ g, (descend A true t path s).1 = some g →
      tableAt tableEntry (descend A true t path s).2.mem root (p ++ path) = some g := by
  induction path generalizing p t s with
  | nil => exact ⟨hinv, by simpa [descend] using ht⟩
  | cons i path ih =>
    simp only [List.length_cons] at hlen
    obtain ⟨hinv', hnext⟩ := hstep p t i s (by omega) hinv ht
    rw [descend]
    rcases hr : getNextLevel A t i true s with ⟨_ | g, s'⟩
    · rw [hr] at hinv'
      exact ⟨hinv', by simp⟩
    · rw [hr] at hinv' hnext
      have hmain := ih (p ++ [i]) g s' (by simp only [List.length_append, List.length_singleton]; omega)
        hinv' (hnext g rfl)
      simpa using hmain

end Levels

section Links

variable {frames : Set ℕ} {mem : ℕ → Fin 512 → ℕ} {root t g : ℕ} {p : List (Fin 512)} {i : Fin 512}
  (hwf : WellFormedTable frames mem root) (hp : p.length ≤ 2)
  (ht : tableAt tableEntry mem root p = some t) (hclear : (mem t i).testBit 0 = false)
  (hfresh : g ∉ frames) (hdvd : 4096 ∣ g) (hlt : g < 2 ^ 52)

include hwf hp ht hclear hfresh hdvd hlt

/-- A new table is reached through its slot only, and every other path leads where it led. -/
theorem WellFormedTable.tableAt_linkTable {q : List (Fin 512)} (hq : q.length ≤ 4) :
    tableAt tableEntry (linkTable mem t i g) root q =
      if q = p ++ [i] then some g else tableAt tableEntry mem root q :=
  tableAt_link hwf.distinct inTables_closed (Nat.le_succ_of_le hp) ht
    (fun q hq hg => hfresh (hwf.held q g hq hg)) (fun _ => tableEntry_zero)
    (tableEntry_of_clear hclear) (linkEntry hdvd hlt).2 (readsWithin_inTables hq)

/-- Linking a new table: the page table stays well formed, every translation stays, and the new
table is reached through its slot. -/
theorem WellFormedTable.link :
    WellFormedTable (insert g frames) (linkTable mem t i g) root ∧
      (∀ va, translate (linkTable mem t i g) root va = translate mem root va) ∧
      tableAt tableEntry (linkTable mem t i g) root (p ++ [i]) = some g := by
  have htable := fun {q} => hwf.tableAt_linkTable hp ht hclear hfresh hdvd hlt (q := q)
  obtain ⟨hopen, hlink⟩ := linkEntry hdvd hlt
  have hpt : InTables p := Nat.le_succ_of_le hp
  have hunused : ∀ q, InTables q → tableAt tableEntry mem root q ≠ some g :=
    fun q hq hg => hfresh (hwf.held q g hq hg)
  have hnone := tableEntry_of_clear hclear
  have hrow : ∀ j : Fin 512, tableEntry ((fun _ => 0 : Fin 512 → ℕ) j) = none :=
    fun _ => tableEntry_zero
  refine ⟨⟨distinctTables_link hwf.distinct inTables_closed hpt ht hunused hrow hnone hlink,
    ?_, ?_⟩, ?_, ?_⟩
  · intro q j u f hq hu hf
    rw [htable (by omega)] at hu
    unfold linkTable at hf ⊢
    by_cases hslot : u = t ∧ j = i
    · obtain ⟨rfl, rfl⟩ := hslot
      rw [writeSlot_self]
      exact hopen
    · rw [writeSlot_of_ne hslot] at hf ⊢
      have hug : u ≠ g := by
        rintro rfl
        rw [Function.update_self] at hf
        simp at hf
      rw [Function.update_of_ne hug] at hf ⊢
      by_cases hqi : q = p ++ [i]
      · rw [if_pos hqi] at hu
        exact absurd (Option.some.inj hu).symm hug
      · rw [if_neg hqi] at hu
        exact hwf.openLink q j u f hq hu hf
  · intro q u hq hu
    rw [htable (Nat.le_succ_of_le hq)] at hu
    by_cases hqi : q = p ++ [i]
    · rw [if_pos hqi] at hu
      exact .inl (Option.some.inj hu).symm
    · rw [if_neg hqi] at hu
      exact .inr (hwf.held q u hq hu)
  · intro va
    have hne : pathOf va ≠ p ++ [i] := by
      intro h
      have hlen := congrArg List.length h
      simp only [pathOf_length, List.length_append, List.length_singleton] at hlen
      omega
    unfold linkTable
    rcases walkEntries_link hwf.distinct inTables_closed hpt ht hunused hrow hnone hlink
      (readsWithin_inTables (pathOf_length va).le) hne with h | ⟨j, r, -, hold, hnew⟩
    · exact translate_congr h
    · have hzero : decodeWalk (walkEntries tableEntry mem root p ++
          [g ||| pagePresent ||| pageRw ||| pageUser, 0]) va = none := by
        simpa using decodeWalk_of_clear (walkEntries tableEntry mem root p ++
          [g ||| pagePresent ||| pageRw ||| pageUser]) (Nat.zero_testBit 0) va
      rw [translate, translate, hnew, hold, hzero, decodeWalk_of_clear _ hclear]
  · rw [htable (by simp only [List.length_append, List.length_singleton]; omega), if_pos rfl]

end Links

/-- A page table does not depend on the memory outside the frames in use. -/
theorem WellFormedTable.congr {frames frames' : Set ℕ} {mem mem' : ℕ → Fin 512 → ℕ} {root : ℕ}
    (hwf : WellFormedTable frames mem root) (hmem : ∀ t ∈ frames, mem' t = mem t)
    (hframes : frames ⊆ frames') :
    WellFormedTable frames' mem' root ∧ ∀ q, q.length ≤ 4 →
      AgreeAlong tableEntry mem mem' root q := by
  have hagree : ∀ q : List (Fin 512), q.length ≤ 4 → AgreeAlong tableEntry mem mem' root q := by
    intro q hq a j r hsplit t ht
    rw [hmem t (hwf.held a t (readsWithin_inTables hq a j r hsplit) ht)]
  have hsame := fun q (hq : InTables q) => (hagree q (Nat.le_succ_of_le hq)).tableAt_eq
  refine ⟨⟨?_, ?_, ?_⟩, hagree⟩
  · intro a b t ha hb hta htb
    rw [hsame a ha] at hta
    rw [hsame b hb] at htb
    exact hwf.distinct a b t ha hb hta htb
  · intro q i t f hq ht hf
    have hqt : InTables q := Nat.le_succ_of_le hq
    rw [hsame q hqt] at ht
    rw [hmem t (hwf.held q t hqt ht)] at hf ⊢
    exact hwf.openLink q i t f hq ht hf
  · intro q t hq ht
    rw [hsame q hq] at ht
    exact hframes (hwf.held q t hq ht)

section Leaves

variable {frames : Set ℕ} {mem : ℕ → Fin 512 → ℕ} {root t entry phys : ℕ} {p : List (Fin 512)}
  {i : Fin 512} {access : Access} {huge : Bool}

/-- The virtual address bits below a leaf under `depth` links. -/
abbrev leafSpan (depth : ℕ) : ℕ := 2 ^ (39 - 9 * depth)

/-- Where the walk ends in a leaf behind open links, it translates to the leaf's page with the
leaf's permissions. -/
theorem decodeWalk_leaf {entries : List ℕ} (hleaf : LeafEntry entry phys access huge)
    (hopen : ∀ e ∈ entries, OpenEntry e) (hpos : 1 ≤ entries.length) (hlen : entries.length ≤ 3)
    (hdvd : leafSpan entries.length ∣ phys) (va : ℕ) :
    decodeWalk (entries ++ [entry]) va =
      some ⟨phys + va % leafSpan entries.length, access⟩ := by
  have haccess : walkAccess (entries ++ [entry]) entry = access := by
    have hw : (entries ++ [entry]).all (·.testBit 1) = access.write := by
      rw [List.all_append, List.all_eq_true.mpr fun e he => (hopen e he).write]
      simp [hleaf.write]
    have hu : (entries ++ [entry]).all (·.testBit 2) = access.user := by
      rw [List.all_append, List.all_eq_true.mpr fun e he => (hopen e he).user]
      simp [hleaf.user]
    have hx : (entries ++ [entry]).any (·.testBit 63) = access.noExec := by
      rw [List.any_append, List.any_eq_false.mpr fun e he => by simp [(hopen e he).noExec]]
      simp [hleaf.noExec]
    rw [walkAccess, hw, hu, hx, hleaf.uncached]
  simp only [decodeWalk, List.getLast?_append, List.getLast?_singleton, Option.some_or,
    hleaf.present, if_true, haccess, hleaf.addr, List.length_append, List.length_singleton]
  obtain h | h | h : entries.length = 1 ∨ entries.length = 2 ∨ entries.length = 3 := by omega
  all_goals
    rw [h] at hdvd ⊢
    simp only [leafSpan, Nat.reduceMul, Nat.reduceSub, Nat.reduceAdd] at hdvd ⊢
  · rw [Nat.div_mul_cancel hdvd]
  · rw [Nat.div_mul_cancel hdvd]

variable (hwf : WellFormedTable frames mem root) (hp : InTables p)
  (ht : tableAt tableEntry mem root p = some t) (hleaf : LeafEntry entry phys access huge)
  (hdepth : huge = true ∨ p.length = 3)

include hwf hp ht in
/-- The links on the way to a table are open. -/
theorem WellFormedTable.walk_open : ∀ e ∈ walkEntries tableEntry mem root p, OpenEntry e := by
  intro e he
  obtain ⟨q, j, r, s, g, rfl, hs, rfl, hg⟩ := exists_of_mem_walkEntries ht he
  simp only [InTables, List.length_append, List.length_cons] at hp
  exact hwf.openLink q j s g (by omega) hs hg

section WriteEntry

variable (hend : tableEntry entry = none ∨ p.length = 3)

include hwf hp ht hend

/-- Writing an entry that ends the walk only removes paths to tables. -/
theorem WellFormedTable.tableAt_of_writeLeaf {q : List (Fin 512)} {u : ℕ} (hq : InTables q)
    (hu : tableAt tableEntry (writeSlot mem t i entry) root q = some u) :
    tableAt tableEntry mem root q = some u := by
  by_cases hextends : p ++ [i] <+: q
  · obtain ⟨r, rfl⟩ := hextends
    rcases hend with hnone | hdepth
    · rw [List.append_assoc, List.singleton_append,
        tableAt_writeSlot_leaf hwf.distinct hp ht (inTables_closed p hp) hnone] at hu
      cases hu
    · simp only [InTables, List.length_append, List.length_singleton] at hq
      omega
  · rwa [(agreeAlong_writeSlot hwf.distinct hp ht (inTables_closed q hq) hextends).tableAt_eq] at hu

/-- Writing an entry that ends the walk keeps the page table well formed. -/
theorem WellFormedTable.writeLeaf : WellFormedTable frames (writeSlot mem t i entry) root := by
  have hback := fun {q u} => hwf.tableAt_of_writeLeaf (i := i) hp ht hend (q := q) (u := u)
  refine ⟨?_, ?_, ?_⟩
  · intro a b s ha hb hsa hsb
    exact hwf.distinct a b s ha hb (hback ha hsa) (hback hb hsb)
  · intro q j u f hq hu hf
    have hqt : InTables q := Nat.le_succ_of_le hq
    have hold := hback hqt hu
    by_cases hslot : u = t ∧ j = i
    · obtain ⟨rfl, rfl⟩ := hslot
      obtain rfl := hwf.distinct q p u hqt hp hold ht
      rcases hend with hnone | hdepth
      · rw [writeSlot_self, hnone] at hf
        cases hf
      · omega
    · rw [writeSlot_of_ne hslot] at hf ⊢
      exact hwf.openLink q j u f hq hold hf
  · exact fun q u hq hu => hwf.held q u hq (hback hq hu)

end WriteEntry

include hwf hp ht hleaf hdepth

/-- Writing a leaf changes the translation of exactly the addresses whose walk passes through
its slot; those translate to the leaf's page. -/
theorem WellFormedTable.translate_writeLeaf (hpos : 1 ≤ p.length) (hdvd : leafSpan p.length ∣ phys)
    {va : ℕ} (hcanon : Canonical va) :
    translate (writeSlot mem t i entry) root va =
      if p ++ [i] <+: pathOf va then some ⟨phys + va % leafSpan p.length, access⟩
      else translate mem root va := by
  have hreads := inTables_closed p hp
  split
  next hextends =>
    obtain ⟨r, hr⟩ := hextends
    have hend : tableEntry entry = none ∨ r = [] := by
      rcases hdepth with rfl | hdepth
      · exact .inl hleaf.tableEntry_huge
      · right
        have hlen := congrArg List.length hr
        simp only [List.length_append, List.length_singleton, pathOf_length] at hlen
        exact List.length_eq_zero_iff.mp (by omega)
    have hlen := walkEntries_length_of_some ht
    rw [translate, if_pos hcanon, ← hr, List.append_assoc, List.singleton_append,
      walkEntries_writeSlot_leaf hwf.distinct hp ht hreads hend,
      decodeWalk_leaf hleaf (hwf.walk_open hp ht) (by omega) (by rw [hlen]; exact hp)
        (by rw [hlen]; exact hdvd), hlen]
  next hextends =>
    exact translate_congr (agreeAlong_writeSlot hwf.distinct hp ht
      (readsWithin_inTables (pathOf_length va).le) hextends).walkEntries_eq

end Leaves

end Flos.Mm
