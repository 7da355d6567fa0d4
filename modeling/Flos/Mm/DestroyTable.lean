import Flos.Mm.FaultPages

/-!
# Destroying a page table

The teardown loops take every present entry for the frame of a table. That is right as long as there
are no huge pages: then the tables behind the lower half are the frames that walks have allocated, and
each of them is freed once. A huge page looks like a table to them, and may have cut off real ones.
-/

namespace Flos.Mm

open Flos.Lib

/-! ## The tables behind the lower half -/

/-- The tables behind the lower half, the PML4 among them. -/
def lowerTables (mem : ℕ → Fin 512 → ℕ) (root : ℕ) : Set ℕ :=
  reachedTables tableEntry LowerPath mem root

/-- Tables behind the lower half that are all distinct, with entries that are clear or name a table. -/
structure LowerTree (mem : ℕ → Fin 512 → ℕ) (root : ℕ) : Prop where
  distinct : DistinctTables tableEntry LowerPath mem root
  entries : ∀ p i t, LowerPath (p ++ [i]) → tableAt tableEntry mem root p = some t →
    (mem t i).testBit 0 = false ∨ ∃ f, tableEntry (mem t i) = some f

/-- The tables on the way to an address of the lower half. -/
theorem lowerPath_tablePath {va : ℕ} (hva : va < 2 ^ 47) : LowerPath (tablePath va) :=
  ⟨(userPath_pathOf hva).of_append (q := [ptIdx va]), le_rfl⟩

namespace LowerTree

variable {mem : ℕ → Fin 512 → ℕ} {root t g : ℕ} {p : List (Fin 512)} {i : Fin 512}

/-- A table without entries in its lower half. -/
theorem of_empty (hempty : ∀ i : Fin 512, i.val < 256 → mem root i = 0) :
    LowerTree mem root ∧ lowerTables mem root = {root} := by
  have hroot : ∀ q f, LowerPath q → tableAt tableEntry mem root q = some f → q = [] ∧ f = root := by
    intro q f hq hf
    cases q with
    | nil => exact ⟨rfl, (Option.some.inj hf).symm⟩
    | cons i q =>
      rw [tableAt_cons_none (by rw [hempty i (hq.1.2 i rfl), tableEntry_zero])] at hf
      cases hf
  refine ⟨⟨fun a b f ha hb hfa hfb => ?_, fun q i t hq ht => ?_⟩, Set.ext fun f => ?_⟩
  · rw [(hroot a f ha hfa).1, (hroot b f hb hfb).1]
  · obtain ⟨rfl, rfl⟩ := hroot q t hq.of_append ht
    exact .inl (by rw [hempty i (hq.1.2 i rfl), Nat.zero_testBit])
  · constructor
    · rintro ⟨q, hq, hf⟩
      exact (hroot q f hq hf).2
    · rintro rfl
      exact ⟨[], ⟨⟨by simp, by simp⟩, by simp⟩, rfl⟩

/-- Memory outside the tables does not matter. -/
theorem congr {mem' : ℕ → Fin 512 → ℕ} (h : LowerTree mem root)
    (hsame : ∀ t ∈ lowerTables mem root, mem' t = mem t) :
    LowerTree mem' root ∧ ∀ q, LowerPath q → AgreeAlong tableEntry mem mem' root q := by
  have hagree : ∀ q, LowerPath q → AgreeAlong tableEntry mem mem' root q := by
    intro q hq a j r hsplit t ht
    rw [hsame t ⟨a, hq.readsWithin a j r hsplit, ht⟩]
  have hpath := fun q hq => (hagree q hq).tableAt_eq
  refine ⟨⟨fun a b f ha hb hfa hfb => ?_, fun q i t hq ht => ?_⟩, hagree⟩
  · rw [hpath a ha] at hfa
    rw [hpath b hb] at hfb
    exact h.distinct a b f ha hb hfa hfb
  · rw [hpath q hq.of_append] at ht
    rw [hsame t ⟨q, hq.of_append, ht⟩]
    exact h.entries q i t hq ht

/-- Linking a new table adds it. -/
theorem link (h : LowerTree mem root) (hp : LowerPath (p ++ [i]))
    (ht : tableAt tableEntry mem root p = some t) (hclear : (mem t i).testBit 0 = false)
    (hfresh : g ∉ lowerTables mem root) (hdvd : 4096 ∣ g) (hlt : g < 2 ^ 52) :
    LowerTree (linkTable mem t i g) root ∧
      lowerTables (linkTable mem t i g) root = insert g (lowerTables mem root) ∧
      tableAt tableEntry (linkTable mem t i g) root (p ++ [i]) = some g := by
  have hout : ∀ q, LowerPath q → tableAt tableEntry mem root q ≠ some g :=
    fun q hq hg => hfresh ⟨q, hq, hg⟩
  have hrow : ∀ j : Fin 512, tableEntry ((fun _ => 0 : Fin 512 → ℕ) j) = none := fun _ => tableEntry_zero
  have hnone := tableEntry_of_clear hclear
  obtain ⟨-, hlink⟩ := linkEntry hdvd hlt
  have hclosed : ∀ q, LowerPath q → ReadsWithin LowerPath q := fun q hq => hq.readsWithin
  have hpath : Retargets tableEntry LowerPath mem (linkTable mem t i g) root (p ++ [i]) (some g) :=
    fun q hq => tableAt_link h.distinct hclosed hp.of_append ht hout hrow hnone hlink hq.readsWithin
  refine ⟨⟨distinctTables_link h.distinct hclosed hp.of_append ht hout hrow hnone hlink, ?_⟩, ?_, ?_⟩
  · intro q j u hq hu
    rw [hpath q hq.of_append] at hu
    rw [linkTable]
    by_cases hslot : u = t ∧ j = i
    · obtain ⟨rfl, rfl⟩ := hslot
      rw [writeSlot_self]
      exact .inr ⟨g, hlink⟩
    · rw [writeSlot_of_ne hslot]
      by_cases hug : u = g
      · subst hug
        rw [Function.update_self]
        exact .inl (Nat.zero_testBit 0)
      · rw [Function.update_of_ne hug]
        by_cases hqi : q = p ++ [i]
        · rw [if_pos hqi] at hu
          exact absurd (Option.some.inj hu).symm hug
        · rw [if_neg hqi] at hu
          exact h.entries q j u hq hu
  · ext f
    rw [lowerTables, hpath.mem_reached hp h.distinct, tableAt_concat ht, hnone, Set.mem_insert_iff,
      Option.some.injEq, eq_comm]
    exact or_congr_right (and_iff_left (by simp))
  · rw [hpath _ hp, if_pos rfl]

/-- Writing an entry of a table of the last level changes no table. -/
theorem setPage (h : LowerTree mem root) (hp : LowerPath p) (hlen : p.length = 3)
    (ht : tableAt tableEntry mem root p = some t) (e : ℕ) :
    LowerTree (writeSlot mem t i e) root ∧
      lowerTables (writeSlot mem t i e) root = lowerTables mem root := by
  have hpath : ∀ q, LowerPath q → tableAt tableEntry (writeSlot mem t i e) root q =
      tableAt tableEntry mem root q := by
    intro q hq
    refine (agreeAlong_writeSlot h.distinct hp ht hq.readsWithin fun hpre => ?_).tableAt_eq
    have hle := hpre.length_le.trans hq.2
    simp only [List.length_append, List.length_singleton, hlen] at hle
    omega
  refine ⟨⟨fun a b f ha hb hfa hfb => ?_, fun q j u hq hu => ?_⟩, reachedTables_congr hpath⟩
  · rw [hpath a ha] at hfa
    rw [hpath b hb] at hfb
    exact h.distinct a b f ha hb hfa hfb
  · rw [hpath q hq.of_append] at hu
    rw [writeSlot_of_ne]
    · exact h.entries q j u hq hu
    · -- a table on the last level ends no longer path
      rintro ⟨rfl, rfl⟩
      obtain rfl := h.distinct q p u hq.of_append hp hu ht
      have hle := hq.2
      simp only [List.length_append, List.length_singleton, hlen] at hle
      omega

/-- The teardown loops find the tables of the tree. -/
theorem teardownEntries (h : LowerTree mem root) : TeardownEntries tableEntry mem root := by
  intro p i t hp hlen ht
  have hlower : LowerPath (p ++ [i]) :=
    ⟨hp, by rw [List.length_append, List.length_singleton]; omega⟩
  rcases h.entries p i t hlower ht with hclear | ⟨f, hf⟩
  · exact .inl ⟨hclear, tableEntry_of_clear hclear⟩
  · obtain ⟨hpresent, -, rfl⟩ := tableEntry_eq_some.mp hf
    exact .inr ⟨hpresent, hf⟩

end LowerTree

/-! ## Operations on a table -/

/-- A call on a page table. -/
inductive TableOp
  | mapPage (virt phys flags : ℕ)
  | mapRange (virt phys flags remain : ℕ)
  | unmapPage (virt : ℕ)
  deriving DecidableEq, Repr

/-- The range contains a 2 MiB page that is aligned in both address spaces. -/
def HugeBlock (virt phys len : ℕ) : Prop := ∃ d, d + 2 ^ 21 ≤ len ∧ 2 ^ 21 ∣ virt + d ∧ 2 ^ 21 ∣ phys + d

namespace TableOp

/-- The addresses of a call are in the lower half. -/
def InLowerHalf : TableOp → Prop
  | mapPage virt _ _ => virt < 2 ^ 47
  | mapRange virt _ _ remain => virt < 2 ^ 47 ∧ virt + remain ≤ 2 ^ 47
  | unmapPage virt => virt < 2 ^ 47

/-- A call that installs no huge page: it may not, or its rounded range has no room for one. -/
def SmallPages : TableOp → Prop
  | mapRange virt phys flags remain => flags &&& mmuFlagHugeOk = 0 ∨
      ¬ HugeBlock (alignDown virt pageSize) (alignDown phys pageSize) (roundedLength virt remain)
  | _ => True

end TableOp

/-- A call on a page table, and the states before and behind it. -/
inductive TableStep {S : Type*} (A : KernelAlloc S) (root : ℕ) : Machine S → TableOp → Machine S → Prop
  | mapPage (s : Machine S) (virt phys flags : ℕ) :
      TableStep A root s (.mapPage virt phys flags) (pmapMapPage A root virt phys flags s).2
  | mapRange (s : Machine S) (virt phys flags remain : ℕ) :
      TableStep A root s (.mapRange virt phys flags remain) (pmapMapRange A root virt phys flags remain s).2
  | unmapPage (s : Machine S) (virt : ℕ) :
      TableStep A root s (.unmapPage virt) (pmapUnmapPage A root virt s).2

section Runs

variable {S : Type*} {A : KernelAlloc S} {Ok : S → Prop} {frames : S → Set ℕ} {root : ℕ}
  {s₁ s : Machine S}

/-- Destroying the table frees its PML4 and the frames taken since `s₁`, each of them once and no other,
whatever the frames that are none of these contain. -/
def FreesOwnTables (A : KernelAlloc S) (table : PageTable) (s₁ s : Machine S) : Prop :=
  ∃ tables : List ℕ, tables.Nodup ∧
    (∀ f, f ∈ tables ↔ f = table.pml4Phy ∨ f ∈ framesTaken s₁ s) ∧
    ∀ mem, (∀ f ∈ tables, mem f = s.mem f) →
      (pmapDestroyTable A table ⟨mem, s.alloc, s.log⟩).log =
        s.log ++ tables.map .freeFrame ++ [.freeObject .pageTableCache table.obj]

/-- What holds of a table between calls: its tables are the PML4 and the frames taken since `s₁`. -/
structure OwnTables (Ok : S → Prop) (frames : S → Set ℕ) (root : ℕ) (s₁ s : Machine S) : Prop where
  ok : Ok s.alloc
  tree : LowerTree s.mem root
  tables : ∀ f, f ∈ lowerTables s.mem root ↔ f = root ∨ f ∈ framesTaken s₁ s
  held : lowerTables s.mem root ⊆ frames s.alloc
  log : s₁.log <+: s.log

/-- One level of a walk keeps it and ends in the table at its path. -/
theorem OwnTables.nextLevel (hA : A.LawfulPages Ok frames) (h : OwnTables Ok frames root s₁ s)
    {p : List (Fin 512)} {i : Fin 512} {t : ℕ} (hp : LowerPath (p ++ [i]))
    (ht : tableAt tableEntry s.mem root p = some t) :
    OwnTables Ok frames root s₁ (getNextLevel A t i true s).2 ∧
      ∀ g, (getNextLevel A t i true s).1 = some g →
        tableAt tableEntry (getNextLevel A t i true s).2.mem root (p ++ [i]) = some g := by
  have hok := hA.allocPage_ok _ h.ok
  have hlog : s₁.log <+: (s.allocPage A).2.log := h.log.trans (List.prefix_append _ _)
  have htaken := fun f => framesTaken_allocPage A h.log f
  rcases getNextLevel_cases A t i s with ⟨f, hf, hr⟩ | ⟨-, hr⟩ | ⟨-, hfail, hr⟩ | ⟨hclear, hnew, hr⟩
  all_goals rw [hr]
  · refine ⟨h, ?_⟩
    rintro _ ⟨⟩
    rw [tableAt_concat ht, hf]
  · exact ⟨h, by simp⟩
  · refine ⟨⟨hok, h.tree, fun f => ?_, ?_, hlog⟩, by simp⟩
    · rw [htaken, hfail]
      exact (h.tables f).trans (or_congr_right (or_iff_left fun hzero => hzero.1 hzero.2).symm)
    · exact h.held.trans (hA.allocPage_fail _ h.ok hfail).ge
  · have hfresh : (s.allocPage A).1 ∉ frames s.alloc := hA.allocPage_fresh _ h.ok hnew
    obtain ⟨hdvd, hlt⟩ := hA.allocPage_addr _ h.ok
    obtain ⟨htree, htables, hreach⟩ :=
      h.tree.link hp ht hclear (fun hmem => hfresh (h.held hmem)) hdvd hlt
    refine ⟨⟨hok, htree, fun f => ?_, ?_, hlog⟩, ?_⟩
    · have hsplit : f ∈ framesTaken s₁ (s.allocPage A).2 ↔ _ := htaken f
      change f ∈ lowerTables (linkTable s.mem t i (s.allocPage A).1) root ↔
        f = root ∨ f ∈ framesTaken s₁ (s.allocPage A).2
      rw [htables, Set.mem_insert_iff, h.tables, hsplit]
      constructor
      · rintro (rfl | hroot | hf)
        · exact .inr (.inr ⟨hnew, rfl⟩)
        · exact .inl hroot
        · exact .inr (.inl hf)
      · rintro (hroot | hf | ⟨-, hf⟩)
        · exact .inr (.inl hroot)
        · exact .inr (.inr hf)
        · exact .inl hf
    · change lowerTables (linkTable s.mem t i (s.allocPage A).1) root ⊆ _
      rw [htables]
      exact (Set.insert_subset_insert h.held).trans (hA.allocPage_frames _ h.ok hnew).ge
    · rintro _ ⟨⟩
      exact hreach

/-- A walk keeps it and ends in the table at its path. -/
theorem OwnTables.descend (hA : A.LawfulPages Ok frames) (path p : List (Fin 512)) (t : ℕ)
    (h : OwnTables Ok frames root s₁ s) (hp : LowerPath (p ++ path))
    (ht : tableAt tableEntry s.mem root p = some t) :
    OwnTables Ok frames root s₁ (descend A true t path s).2 ∧
      ∀ g, (descend A true t path s).1 = some g →
        tableAt tableEntry (descend A true t path s).2.mem root (p ++ path) = some g := by
  induction path generalizing p t s with
  | nil => exact ⟨h, by simpa [Mm.descend] using ht⟩
  | cons i path ih =>
    rw [List.append_cons] at hp ⊢
    obtain ⟨h', hnext⟩ := h.nextLevel hA hp.of_append ht
    rw [Mm.descend]
    rcases hr : getNextLevel A t i true s with ⟨_ | g, s'⟩
    · rw [hr] at h'
      exact ⟨h', by simp⟩
    · rw [hr] at h' hnext
      exact ih (p ++ [i]) g h' hp (hnext g rfl)

/-- Writing an entry of a table of the last level keeps it. -/
theorem OwnTables.setPage (h : OwnTables Ok frames root s₁ s) {p : List (Fin 512)} {i : Fin 512}
    {t : ℕ} (hp : LowerPath p) (hlen : p.length = 3) (ht : tableAt tableEntry s.mem root p = some t)
    (e : ℕ) : OwnTables Ok frames root s₁ ⟨writeSlot s.mem t i e, s.alloc, s.log⟩ := by
  obtain ⟨htree, htables⟩ := h.tree.setPage (i := i) hp hlen ht e
  exact ⟨h.ok, htree, fun f => htables ▸ h.tables f, htables ▸ h.held, h.log⟩

/-- Mapping a page of the lower half keeps it. -/
theorem OwnTables.map (hA : A.LawfulPages Ok frames) (h : OwnTables Ok frames root s₁ s) {virt : ℕ}
    (hvirt : virt < 2 ^ 47) (phys archFlags : ℕ) :
    OwnTables Ok frames root s₁ (map A root virt phys archFlags s).2 := by
  obtain ⟨h', hreach⟩ := h.descend hA (tablePath virt) [] root (lowerPath_tablePath hvirt) rfl
  rw [Mm.map, mapLeaf]
  rcases hr : Mm.descend A true root [pml4Idx virt, pdptIdx virt, pdIdx virt] s with ⟨_ | t, s'⟩
  all_goals rw [hr] at h' hreach
  · exact h'
  · exact h'.setPage (lowerPath_tablePath hvirt) rfl (hreach t rfl) _

/-- Without a huge block in the range an iteration maps a page. -/
theorem mapStep_small {flags virt phys remain : ℕ} (archFlags : ℕ)
    (hsmall : flags &&& mmuFlagHugeOk = 0 ∨ ¬ HugeBlock virt phys remain) :
    mapStep A root flags archFlags virt phys remain s = Mm.map A root virt phys archFlags s := by
  rw [mapStep]
  split
  next hflag =>
    have hblock := hsmall.resolve_left hflag
    have hnone : ¬ (phys % 2 ^ 21 = 0 ∧ virt % 2 ^ 21 = 0 ∧ 2 ^ 21 ≤ remain) := by
      intro hhuge
      refine hblock ⟨0, ?_, Nat.dvd_of_mod_eq_zero hhuge.2.1, Nat.dvd_of_mod_eq_zero hhuge.1⟩
      rw [Nat.zero_add]
      exact hhuge.2.2
    rw [mapHugeOk, if_neg, if_neg]
    · exact hnone
    · simp only [pageSize1G]
      omega
  next => rfl

/-- The loop of `pmap_map_range` keeps it when it maps small pages only. -/
theorem OwnTables.mapRangeLoop (hA : A.LawfulPages Ok frames) {flags : ℕ} (archFlags fuel : ℕ)
    {virt phys remain : ℕ} (mapped : ℕ) (h : OwnTables Ok frames root s₁ s)
    (hdvd : 4096 ∣ remain) (hhalf : virt + remain ≤ 2 ^ 47)
    (hsmall : flags &&& mmuFlagHugeOk = 0 ∨ ¬ HugeBlock virt phys remain) :
    OwnTables Ok frames root s₁
      (mapRangeLoop A root flags archFlags fuel virt phys remain mapped s).2 := by
  induction fuel generalizing virt phys remain mapped s with
  | zero => exact h
  | succ fuel ih =>
    rw [mapRangeLoop_succ, mapStep_small archFlags hsmall]
    split
    next => exact h
    next hremain =>
      have hstep := h.map hA (show virt < 2 ^ 47 by omega) phys archFlags
      have hsize := mapLeaf_size A root [pml4Idx virt, pdptIdx virt, pdIdx virt] (ptIdx virt)
        (phys ||| archFlags) pageSize s
      split
      next => exact hstep
      next hmapped =>
        have hpage : (Mm.map A root virt phys archFlags s).1 = 4096 := hsize.resolve_left hmapped
        rw [hpage, Nat.mod_eq_of_lt (show virt + 4096 < wordSize by simp only [wordSize]; omega)]
        refine ih _ hstep (by omega) (by omega) (hsmall.imp_right ?_)
        -- a block behind the page is one of the whole range
        rintro hnone ⟨d, hd, hv, hp⟩
        simp only [wordSize] at hp
        exact hnone ⟨d + 4096, by omega, by omega, by omega⟩

/-- Every call on the lower half that maps small pages only keeps it. -/
theorem OwnTables.step (hA : A.LawfulPages Ok frames) (h : OwnTables Ok frames root s₁ s)
    {op : TableOp} {s' : Machine S} (hstep : TableStep A root s op s') (hlower : op.InLowerHalf)
    (hsmall : op.SmallPages) : OwnTables Ok frames root s₁ s' := by
  cases hstep with
  | mapPage virt phys flags =>
    have hvirt : virt < 2 ^ 47 := hlower
    refine h.map hA ?_ _ _
    rw [alignDown_page (hvirt.trans (by decide))]
    exact (Nat.div_mul_le_self _ _).trans_lt hvirt
  | mapRange virt phys flags remain =>
    obtain ⟨hvirt, hend⟩ := hlower
    have hword : virt < wordSize := hvirt.trans (by decide)
    have hround := roundedLength_eq hword (.inl hend)
    have hdown := alignDown_page hword
    exact h.mapRangeLoop hA _ _ 0 (by omega) (by omega) hsmall
  | unmapPage virt =>
    rcases pmapUnmapPage_cases A root virt s with ⟨-, hr⟩ | ⟨t, ht, hr⟩
    all_goals rw [hr]
    · exact h
    · exact h.setPage (lowerPath_tablePath hlower) rfl ht 0

/-- Destroying the table then frees these tables. -/
theorem OwnTables.freesOwnTables {obj : ℕ} (h : OwnTables Ok frames root s₁ s) :
    FreesOwnTables A ⟨obj, root⟩ s₁ s := by
  obtain ⟨hnodup, hmem⟩ := teardownTables_spec h.tree.distinct
  refine ⟨teardownTables tableEntry s.mem root, hnodup, fun f => (hmem f).trans (h.tables f), ?_⟩
  intro mem hsame
  obtain ⟨htree, hagree⟩ := h.tree.congr fun f hf => hsame f ((hmem f).mpr hf)
  have htables : teardownTables tableEntry mem root = teardownTables tableEntry s.mem root := by
    rw [teardownTables, teardownTables, subtables_congr fun i hi q hq => hagree (i :: q) ⟨⟨?_, ?_⟩, hq⟩]
    · exact Nat.le_succ_of_le hq
    · rintro _ ⟨⟩
      simpa [userSlots, allSlots] using hi
  rw [pmapDestroyTable_eq htree.teardownEntries, htables, Machine.cacheFree, foldl_freePage_log]

/-- A new table has no table but its PML4. -/
theorem OwnTables.of_create {objects : CacheName → S → Set ℕ} (hA : A.Lawful Ok frames objects)
    {kernel : Option PageTable} (hok : Ok s.alloc)
    (hkernel : ∀ k ∈ kernel, k.pml4Phy ∈ frames s.alloc) {table : PageTable}
    (hcreate : pmapCreateTable A kernel s = (some table, s₁)) :
    OwnTables Ok frames table.pml4Phy s₁ s₁ := by
  obtain ⟨hok', -, -, hnew⟩ := pmapCreateTable_spec hA hok hkernel
  rw [hcreate] at hok' hnew
  obtain ⟨-, hheld, hrow⟩ := hnew table rfl
  obtain ⟨htree, htables⟩ := @LowerTree.of_empty s₁.mem table.pml4Phy fun i hi => by
    rw [hrow, sharedEntry, if_neg (by omega)]
  refine ⟨hok', htree, fun f => ?_, ?_, List.prefix_rfl⟩
  · rw [htables, Set.mem_singleton_iff, or_iff_left]
    simp [framesTaken]
  · rw [htables]
    exact Set.singleton_subset_iff.mpr hheld

/-- Destroying a page table frees exactly its own tables, as long as it never had huge pages. In every
run of mapping and unmapping calls on a new page table, on the lower half and without a call that could
install a huge page, with any frames, flags and outcomes of the allocations: destroying the table frees
its PML4 and each frame that a walk has taken for it, once, and no other frame, and it depends on what is
in these frames only. -/
theorem pmapDestroyTable_run_freesOwnTables {objects : CacheName → S → Set ℕ}
    (hA : A.Lawful Ok frames objects) {kernel : Option PageTable} (hok : Ok s.alloc)
    (hkernel : ∀ k ∈ kernel, k.pml4Phy ∈ frames s.alloc) {table : PageTable}
    (hcreate : pmapCreateTable A kernel s = (some table, s₁)) {ops : List TableOp} {s' : Machine S}
    (hrun : Run (TableStep A table.pml4Phy) s₁ ops s') (hlower : ∀ op ∈ ops, op.InLowerHalf)
    (hsmall : ∀ op ∈ ops, op.SmallPages) : FreesOwnTables A table s₁ s' := by
  have hnew := OwnTables.of_create hA hok hkernel hcreate
  have hinv : OwnTables Ok frames table.pml4Phy s₁ s' := by
    induction hrun with
    | nil => exact hnew
    | snoc _ hlast ih =>
      simp only [List.mem_append, List.mem_singleton, or_imp, forall_and, forall_eq] at hlower hsmall
      exact (ih hlower.1 hsmall.1).step hA.toLawfulPages hlast hlower.2 hsmall.2
  exact hinv.freesOwnTables

end Runs

/-- On the small map: three pages are mapped, the first is unmapped, and the table is destroyed. -/
theorem pmapDestroyTable_run_freesOwnTables_sixteenFrameMap :
    ∃ s₀ table s₁ s', initBitmapPmm sixteenFrameMap (fun _ => 0#8) = some s₀ ∧
      pmapCreateTable kernelAllocators none (bootMachine s₀) = (some table, s₁) ∧
      Run (TableStep kernelAllocators table.pml4Phy) s₁
        [.mapPage 0x400000 0x5000 7, .mapRange 0x401000 0x9000 (mmuFlagWrite ||| mmuFlagHugeOk) 0x2000,
          .unmapPage 0x400000] s' ∧
      FreesOwnTables kernelAllocators table s₁ s' := by
  obtain ⟨s₀, hinit⟩ := initBitmapPmm_isSome sixteenFrameMap_bootable (fun _ => 0#8)
  have hok : (bootMachine s₀).alloc.Ok _ _ _ := bootMem_ok (Pmm.Ok.of_init sixteenFrameMap_bootable hinit)
  have hconcrete : ((initBitmapPmm sixteenFrameMap (fun _ => 0#8)).map fun pages =>
      (pmapCreateTable kernelAllocators none (bootMachine pages)).1.isSome) = some true := by
    decide +kernel
  rw [hinit, Option.map_some, Option.some.injEq, Option.isSome_iff_exists] at hconcrete
  obtain ⟨table, htable⟩ := hconcrete
  have hcreate : pmapCreateTable kernelAllocators none (bootMachine s₀) = (some table, _) :=
    Prod.ext htable rfl
  have hrun := (((Run.nil _).snoc (@TableStep.mapPage _ kernelAllocators table.pml4Phy
    (pmapCreateTable kernelAllocators none (bootMachine s₀)).2 0x400000 0x5000 7)).snoc
    (.mapRange _ 0x401000 0x9000 (mmuFlagWrite ||| mmuFlagHugeOk) 0x2000)).snoc (.unmapPage _ 0x400000)
  refine ⟨s₀, table, _, _, hinit, hcreate, hrun,
    pmapDestroyTable_run_freesOwnTables kernelAllocators_lawful hok (by simp) hcreate hrun ?_ ?_⟩
  · intro op hop
    simp only [List.nil_append, List.cons_append, List.mem_cons, List.not_mem_nil, or_false] at hop
    rcases hop with rfl | rfl | rfl <;> simp [TableOp.InLowerHalf]
  · intro op hop
    simp only [List.nil_append, List.cons_append, List.mem_cons, List.not_mem_nil, or_false] at hop
    rcases hop with rfl | rfl | rfl
    · trivial
    · right
      rintro ⟨d, hd, -⟩
      rw [show roundedLength 0x401000 0x2000 = 0x2000 by decide] at hd
      omega
    · trivial

/-- What the teardown loops take for a table: the frame of any present entry. -/
def presentEntry (entry : ℕ) : Option ℕ :=
  if entry.testBit 0 then some (entry &&& pagePhysMask) else none

/-- Whatever the memory, the teardown frees the frames behind present entries. -/
theorem teardownEntries_presentEntry (mem : ℕ → Fin 512 → ℕ) (root : ℕ) :
    TeardownEntries presentEntry mem root := by
  intro p i t _ _ _
  cases hbit : (mem t i).testBit 0 with
  | false => exact .inl ⟨rfl, by simp [presentEntry, hbit]⟩
  | true => exact .inr ⟨rfl, by simp [presentEntry, hbit]⟩

/-- A frame behind present entries that has neither been taken nor is the PML4 does not belong to the
table, but is freed with it. -/
theorem not_freesOwnTables {S : Type*} {A : KernelAlloc S} {table : PageTable} {s₁ s : Machine S}
    {f : ℕ} {i : Fin 512} {q : List (Fin 512)} (hroot : table.pml4Phy ≠ f)
    (htaken : .allocFrame f ∉ s.log) (hi : i.val < 256) (hq : q.length < 3)
    (hpath : tableAt presentEntry s.mem table.pml4Phy (i :: q) = some f) :
    ¬ FreesOwnTables A table s₁ s := by
  rintro ⟨tables, -, hmem, hdestroy⟩
  have hlog := hdestroy s.mem fun _ _ => rfl
  rw [pmapDestroyTable_eq (teardownEntries_presentEntry s.mem table.pml4Phy), Machine.cacheFree,
    foldl_freePage_log, List.append_cancel_right_eq, List.append_cancel_left_eq] at hlog
  have hfreed : f ∈ teardownTables presentEntry s.mem table.pml4Phy := by
    refine List.mem_append_left _ ((mem_subtables List.mem_finRange).mpr ⟨i, ?_, q, hq, hpath⟩)
    simpa [userSlots, allSlots] using hi
  have htables := List.map_injective_iff.mpr (fun _ _ => MemEvent.freeFrame.inj) hlog
  rw [htables] at hfreed
  rcases (hmem f).mp hfreed with hf | hf
  · exact hroot hf.symm
  · exact htaken (List.mem_of_mem_drop hf.2)

/-- A 2 MiB page at physical address 2 MiB is mapped in a new table: destroying the table frees the frame
there, which nobody has taken. -/
theorem pmapDestroyTable_freesHugePage :
    ∃ s₀ table s₁ s', initBitmapPmm sixteenFrameMap (fun _ => 0#8) = some s₀ ∧
      pmapCreateTable kernelAllocators none (bootMachine s₀) = (some table, s₁) ∧
      Run (TableStep kernelAllocators table.pml4Phy) s₁
        [.mapRange 0x200000 0x200000 (mmuFlagWrite ||| mmuFlagHugeOk) 0x200000] s' ∧
      (TableOp.mapRange 0x200000 0x200000 (mmuFlagWrite ||| mmuFlagHugeOk) 0x200000).InLowerHalf ∧
      ¬ FreesOwnTables kernelAllocators table s₁ s' := by
  obtain ⟨s₀, hinit⟩ := initBitmapPmm_isSome sixteenFrameMap_bootable (fun _ => 0#8)
  have hconcrete : ((initBitmapPmm sixteenFrameMap (fun _ => 0#8)).bind fun pages =>
      (pmapCreateTable kernelAllocators none (bootMachine pages)).1.map fun table =>
        let s := (pmapMapRange kernelAllocators table.pml4Phy 0x200000 0x200000
          (mmuFlagWrite ||| mmuFlagHugeOk) 0x200000
          (pmapCreateTable kernelAllocators none (bootMachine pages)).2).2
        decide (table.pml4Phy ≠ 0x200000 ∧ .allocFrame 0x200000 ∉ s.log ∧
          tableAt presentEntry s.mem table.pml4Phy [0, 0, 1] = some 0x200000)) = some true := by
    decide +kernel
  rw [hinit, Option.bind_some] at hconcrete
  obtain ⟨table, htable, hconcrete⟩ := Option.map_eq_some_iff.mp hconcrete
  obtain ⟨hroot, htaken, hpath⟩ := of_decide_eq_true hconcrete
  exact ⟨s₀, table, _, _, hinit, Prod.ext htable rfl, .single (.mapRange _ _ _ _ _),
    ⟨by decide, by decide⟩, not_freesOwnTables hroot htaken (by decide) (by decide) hpath⟩

end Flos.Mm
