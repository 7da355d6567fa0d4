import Flos.Mm.PmapRange

/-!
# The user half of a page table

Seen from the allocator a user page is one more level of the tree of tables: a leaf entry has no
page-size bit there, so it names a frame exactly as the entry for a table does. The frames that an
address space owns through its page table are then the tables at the end of the user paths, with
at most four indices. Linking a table, mapping a page and unmapping one each change where a
single path leads.
-/

namespace Flos.Mm

open Flos.Lib

/-- A path through the lower half of the PML4, to a table or to a page. -/
def UserPath (p : List (Fin 512)) : Prop := p.length ≤ 4 ∧ ∀ i ∈ p.head?, i.val < 256

/-- The first part of a user path is one. -/
theorem UserPath.of_append {p q : List (Fin 512)} (h : UserPath (p ++ q)) : UserPath p := by
  refine ⟨(List.prefix_append p q).length_le.trans h.1, fun i hi => h.2 i ?_⟩
  cases p with
  | nil => cases hi
  | cons j p => exact hi

/-- A user path reads tables on user paths. -/
theorem UserPath.readsWithin {q : List (Fin 512)} (h : UserPath q) : ReadsWithin UserPath q := by
  rintro a j r rfl
  exact h.of_append

/-- A non-empty user path can be continued down to the pages. -/
theorem UserPath.append {p q : List (Fin 512)} (h : UserPath p) (hne : p ≠ [])
    (hlen : (p ++ q).length ≤ 4) : UserPath (p ++ q) := by
  refine ⟨hlen, fun i hi => h.2 i ?_⟩
  rwa [List.head?_append_of_ne_nil _ hne] at hi

/-- The paths to tables through the lower half of the PML4. -/
def LowerPath (p : List (Fin 512)) : Prop := UserPath p ∧ p.length ≤ 3

/-- The first part of a path to a table is one. -/
theorem LowerPath.of_append {p q : List (Fin 512)} (h : LowerPath (p ++ q)) : LowerPath p :=
  ⟨h.1.of_append, (List.prefix_append p q).length_le.trans h.2⟩

/-- A path to a table reads tables. -/
theorem LowerPath.readsWithin {q : List (Fin 512)} (h : LowerPath q) : ReadsWithin LowerPath q := by
  rintro a j r rfl
  exact h.of_append

/-- The path of an address in the lower half. -/
theorem userPath_pathOf {va : ℕ} (hva : va < 2 ^ 47) : UserPath (pathOf va) := by
  refine ⟨(pathOf_length va).le, ?_⟩
  rintro _ ⟨⟩
  rw [pml4Idx, tableIdx_val]
  omega

/-- Addresses of the lower half share a path when they lie in one page. -/
theorem pathOf_eq_iff {a b : ℕ} (ha : a < 2 ^ 47) (hb : b < 2 ^ 47) :
    pathOf a = pathOf b ↔ a / 4096 = b / 4096 := by
  simp only [pathOf, List.cons.injEq, and_true, pml4Idx, pdptIdx, pdIdx, ptIdx, tableIdx_eq_iff]
  omega

/-- The frame that the entry of an address in its table of the last level names. -/
def pageFrame (mem : ℕ → Fin 512 → ℕ) (root va : ℕ) : Option ℕ :=
  (tableAt tableEntry mem root [pml4Idx va, pdptIdx va, pdIdx va]).map fun t =>
    mem t (ptIdx va) &&& pagePhysMask

/-- The leaf of an address, computed. -/
theorem pageLeaf_iff {mem : ℕ → Fin 512 → ℕ} {root va f : ℕ} :
    PageLeaf mem root va f ↔ pageFrame mem root va = some f :=
  Option.map_eq_some_iff.symm

/-- Addresses of one page have the same leaf. -/
theorem PageLeaf.of_page {mem : ℕ → Fin 512 → ℕ} {root a b f : ℕ} (hpage : a / 4096 = b / 4096)
    (h : PageLeaf mem root a f) : PageLeaf mem root b f := by
  have hidx : pml4Idx a = pml4Idx b ∧ pdptIdx a = pdptIdx b ∧ pdIdx a = pdIdx b ∧
      ptIdx a = ptIdx b := by
    simp only [pml4Idx, pdptIdx, pdIdx, ptIdx, tableIdx_eq_iff]
    omega
  rw [PageLeaf, hidx.1, hidx.2.1, hidx.2.2.1, hidx.2.2.2] at h
  exact h

/-- The frame that an entry names and that is not borrowed. -/
noncomputable def ownEntry (borrowed : Set ℕ) (entry : ℕ) : Option ℕ :=
  open Classical in (tableEntry entry).filter fun f => f ∉ borrowed

/-- An entry names a frame that is not borrowed. -/
theorem ownEntry_eq_some {borrowed : Set ℕ} {entry f : ℕ} :
    ownEntry borrowed entry = some f ↔ tableEntry entry = some f ∧ f ∉ borrowed := by
  simp [ownEntry, Option.filter_eq_some_iff]

/-- An entry that names no frame, or a borrowed one. -/
theorem ownEntry_eq_none {borrowed : Set ℕ} {entry : ℕ} :
    ownEntry borrowed entry = none ↔ ∀ f, tableEntry entry = some f → f ∈ borrowed := by
  simp [ownEntry, Option.filter_eq_none_iff]

/-- A zero entry names no frame. -/
@[simp] theorem ownEntry_zero (borrowed : Set ℕ) : ownEntry borrowed 0 = none := by
  simp [ownEntry]

/-- With nothing borrowed every entry names a frame of its own. -/
@[simp] theorem ownEntry_empty : ownEntry ∅ = tableEntry := by
  funext entry
  cases h : tableEntry entry <;> simp [ownEntry, h]

/-- The frames that the user half owns: its tables, the PML4 among them, and the user pages that are
not borrowed. -/
def userFrames (borrowed : Set ℕ) (mem : ℕ → Fin 512 → ℕ) (root : ℕ) : Set ℕ :=
  reachedTables (ownEntry borrowed) UserPath mem root

/-- A page table whose user half is a tree: no frame that it owns is reached on two paths, and an
entry is either zero or names a frame, so there are no huge pages. Borrowed frames are pages only. -/
structure UserTree (borrowed : Set ℕ) (mem : ℕ → Fin 512 → ℕ) (root : ℕ) : Prop where
  distinct : DistinctTables (ownEntry borrowed) UserPath mem root
  entries : ∀ p i t, UserPath (p ++ [i]) → tableAt (ownEntry borrowed) mem root p = some t →
    mem t i = 0 ∨ ∃ f, tableEntry (mem t i) = some f ∧ (f ∈ borrowed → p.length = 3)

/-- An address without a translation leads to no page. -/
theorem tableAt_of_translate_none {mem : ℕ → Fin 512 → ℕ} {root va : ℕ} (hva : va < 2 ^ 47)
    (h : translate mem root va = none) : tableAt tableEntry mem root (pathOf va) = none := by
  cases hpage : tableAt tableEntry mem root (pathOf va) with
  | none => rfl
  | some f =>
    obtain ⟨t, ht, hf⟩ := tableAt_of_append
      (p := [pml4Idx va, pdptIdx va, pdIdx va]) (q := [ptIdx va]) hpage
    cases hentry : tableEntry (mem t (ptIdx va)) with
    | none =>
      rw [tableAt_cons_none hentry] at hf
      cases hf
    | some g =>
      have hlen := walkEntries_length_of_some ht
      have hwalk := walkEntries_append_of_some ht [ptIdx va]
      rw [walkEntries_cons_some hentry, walkEntries_nil] at hwalk
      have hpath : pathOf va = [pml4Idx va, pdptIdx va, pdIdx va] ++ [ptIdx va] := rfl
      rw [translate, if_pos (.inl hva), hpath, hwalk, decodeWalk, List.getLast?_concat,
        List.length_append, hlen] at h
      simp [(tableEntry_eq_some.mp hentry).1] at h

namespace UserTree

variable {borrowed : Set ℕ} {mem : ℕ → Fin 512 → ℕ} {root t g : ℕ} {p : List (Fin 512)} {i : Fin 512}

/-- A table that is empty in its lower half is a tree with no frame but itself. -/
theorem of_empty (hempty : ∀ i : Fin 512, i.val < 256 → mem root i = 0) :
    UserTree borrowed mem root ∧ userFrames borrowed mem root = {root} ∧
      ∀ q, UserPath q → q ≠ [] → tableAt tableEntry mem root q = none := by
  have hnone : ∀ (child : ℕ → Option ℕ), child 0 = none → ∀ q, UserPath q → q ≠ [] →
      tableAt child mem root q = none := by
    intro child hzero q hq hne
    cases q with
    | nil => exact absurd rfl hne
    | cons i q => exact tableAt_cons_none (by rw [hempty i (hq.2 i rfl), hzero]) q
  have hroot : ∀ q f, UserPath q → tableAt (ownEntry borrowed) mem root q = some f →
      q = [] ∧ f = root := by
    intro q f hq hf
    by_cases hne : q = []
    · subst hne
      exact ⟨rfl, (Option.some.inj hf).symm⟩
    · rw [hnone _ (ownEntry_zero borrowed) q hq hne] at hf
      cases hf
  refine ⟨⟨fun a b f ha hb hfa hfb => ?_, fun q i f hq hf => ?_⟩, ?_,
    hnone _ tableEntry_zero⟩
  · rw [(hroot a f ha hfa).1, (hroot b f hb hfb).1]
  · obtain ⟨rfl, rfl⟩ := hroot q f hq.of_append hf
    exact .inl (hempty i (hq.2 i rfl))
  · ext f
    rw [Set.mem_singleton_iff]
    constructor
    · rintro ⟨q, hq, hf⟩
      exact (hroot q f hq hf).2
    · rintro rfl
      exact ⟨[], ⟨by simp, by simp⟩, rfl⟩

/-- The tables below the PML4 are all owned. -/
theorem tableAt_eq (h : UserTree borrowed mem root) {q : List (Fin 512)} (hq : UserPath q)
    (hlen : q.length ≤ 3) :
    tableAt (ownEntry borrowed) mem root q = tableAt tableEntry mem root q := by
  induction q using List.reverseRecOn with
  | nil => rfl
  | append_singleton q i ih =>
    simp only [List.length_append, List.length_singleton] at hlen
    have hstep := ih hq.of_append (by omega)
    cases ht : tableAt (ownEntry borrowed) mem root q with
    | none => rw [tableAt_append, ht, tableAt_append, ← hstep, ht]; rfl
    | some t =>
      rw [tableAt_concat ht, tableAt_concat (hstep.symm.trans ht)]
      rcases h.entries q i t hq ht with hzero | ⟨f, hf, hborrowed⟩
      · simp [hzero]
      · rw [hf]
        exact ownEntry_eq_some.mpr ⟨hf, fun hmem => absurd (hborrowed hmem) (by omega)⟩

/-- Memory outside the owned frames does not matter. -/
theorem congr {mem' : ℕ → Fin 512 → ℕ} (h : UserTree borrowed mem root)
    (hsame : ∀ t ∈ userFrames borrowed mem root, mem' t = mem t) :
    UserTree borrowed mem' root ∧
      ∀ q, UserPath q → AgreeAlong (ownEntry borrowed) mem mem' root q := by
  have hagree : ∀ q, UserPath q → AgreeAlong (ownEntry borrowed) mem mem' root q := by
    intro q hq a j r hsplit t ht
    rw [hsame t ⟨a, hq.readsWithin a j r hsplit, ht⟩]
  have hpath := fun q hq => (hagree q hq).tableAt_eq
  refine ⟨⟨fun a b f ha hb hfa hfb => ?_, fun q i t hq ht => ?_⟩, hagree⟩
  · rw [hpath a ha] at hfa
    rw [hpath b hb] at hfb
    exact h.distinct a b f ha hb hfa hfb
  · rw [hpath q hq.of_append] at ht
    rw [hsame t ⟨q, hq.of_append, ht⟩]
    exact h.entries q i t hq ht

/-- Memory outside the owned frames does not matter for what is owned either. -/
theorem same_frames {mem' : ℕ → Fin 512 → ℕ} (h : UserTree borrowed mem root)
    (hsame : ∀ t ∈ userFrames borrowed mem root, mem' t = mem t) :
    UserTree borrowed mem' root ∧ userFrames borrowed mem' root = userFrames borrowed mem root := by
  obtain ⟨htree, hagree⟩ := h.congr hsame
  exact ⟨htree, reachedTables_congr fun q hq => (hagree q hq).tableAt_eq⟩

/-- Clearing a frame outside the tree changes no path. -/
theorem zeroFrame (h : UserTree borrowed mem root) (hfresh : g ∉ userFrames borrowed mem root) :
    UserTree borrowed (Function.update mem g fun _ => 0) root ∧
      ∀ q, UserPath q → tableAt (ownEntry borrowed) (Function.update mem g fun _ => 0) root q =
        tableAt (ownEntry borrowed) mem root q := by
  have hne : ∀ t ∈ userFrames borrowed mem root, t ≠ g := by
    rintro t ht rfl
    exact hfresh ht
  obtain ⟨htree, hagree⟩ := h.congr fun t ht =>
    Function.update_of_ne (hne t ht) (fun _ => 0) mem
  exact ⟨htree, fun q hq => (hagree q hq).tableAt_eq⟩

variable (h : UserTree borrowed mem root) (hp : UserPath (p ++ [i]))
  (ht : tableAt (ownEntry borrowed) mem root p = some t)

include h hp ht

/-- Linking a new table into a clear slot. -/
theorem link (hclear : mem t i = 0) (hfresh : g ∉ userFrames borrowed mem root) (hdvd : 4096 ∣ g)
    (hlt : g < 2 ^ 52) (hown : g ∉ borrowed) :
    UserTree borrowed (linkTable mem t i g) root ∧
      Retargets (ownEntry borrowed) UserPath mem (linkTable mem t i g) root (p ++ [i]) (some g) := by
  have hout : ∀ q, UserPath q → tableAt (ownEntry borrowed) mem root q ≠ some g :=
    fun q hq hg => hfresh ⟨q, hq, hg⟩
  have hnone : ownEntry borrowed (mem t i) = none := by rw [hclear, ownEntry_zero]
  have hrow : ∀ j : Fin 512, ownEntry borrowed ((fun _ => 0 : Fin 512 → ℕ) j) = none :=
    fun _ => ownEntry_zero borrowed
  obtain ⟨-, hlink⟩ := linkEntry hdvd hlt
  have hlink' := ownEntry_eq_some.mpr ⟨hlink, hown⟩
  have hclosed : ∀ q, UserPath q → ReadsWithin UserPath q := fun q hq => hq.readsWithin
  have hpath : Retargets (ownEntry borrowed) UserPath mem (linkTable mem t i g) root (p ++ [i])
      (some g) := fun q hq =>
    tableAt_link h.distinct hclosed hp.of_append ht hout hrow hnone hlink' hq.readsWithin
  refine ⟨⟨distinctTables_link h.distinct hclosed hp.of_append ht hout hrow hnone hlink', ?_⟩, hpath⟩
  intro q j u hq hu
  rw [hpath q hq.of_append] at hu
  rw [linkTable]
  by_cases hslot : u = t ∧ j = i
  · obtain ⟨rfl, rfl⟩ := hslot
    rw [writeSlot_self]
    exact .inr ⟨g, hlink, fun hmem => absurd hmem hown⟩
  · rw [writeSlot_of_ne hslot]
    by_cases hug : u = g
    · subst hug
      rw [Function.update_self]
      exact .inl rfl
    · rw [Function.update_of_ne hug]
      by_cases hqi : q = p ++ [i]
      · rw [if_pos hqi] at hu
        exact absurd (Option.some.inj hu).symm hug
      · rw [if_neg hqi] at hu
        exact h.entries q j u hq hu

/-- Writing an entry into a table of the last level: zero, a borrowed page, or a page that was not
reached. -/
theorem setPage (hlen : p.length = 3) {e : ℕ} (he : e = 0 ∨ ∃ f, tableEntry e = some f)
    (hfresh : ∀ f, ownEntry borrowed e = some f → f ∉ userFrames borrowed mem root) :
    UserTree borrowed (writeSlot mem t i e) root ∧
      Retargets (ownEntry borrowed) UserPath mem (writeSlot mem t i e) root (p ++ [i])
        (ownEntry borrowed e) := by
  have hpath : Retargets (ownEntry borrowed) UserPath mem (writeSlot mem t i e) root (p ++ [i])
      (ownEntry borrowed e) := by
    intro q hq
    refine tableAt_writeSlot_last h.distinct hp.of_append ht hp.of_append.readsWithin ?_ hq
      hq.readsWithin
    intro r hr hpre
    refine (hpre.eq_of_length_le ?_).symm
    rw [List.length_append, hlen]
    exact hr.1
  refine ⟨⟨h.distinct.retarget hpath hfresh, ?_⟩, hpath⟩
  intro q j u hq hu
  -- a table sits above the last level
  have hqne : q ≠ p ++ [i] := by
    rintro rfl
    have hle := hq.1
    simp only [List.length_append, List.length_singleton, hlen] at hle
    omega
  rw [hpath q hq.of_append, if_neg hqne] at hu
  by_cases hslot : u = t ∧ j = i
  · obtain ⟨rfl, rfl⟩ := hslot
    obtain rfl := h.distinct q p u hq.of_append hp.of_append hu ht
    rw [writeSlot_self]
    exact he.imp_right fun ⟨f, hf⟩ => ⟨f, hf, fun _ => hlen⟩
  · rw [writeSlot_of_ne hslot]
    exact h.entries q j u hq hu

end UserTree

end Flos.Mm
