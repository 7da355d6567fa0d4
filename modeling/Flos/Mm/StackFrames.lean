import Flos.Mm.HeapInv
import Flos.Mm.HugePages
import Flos.Mm.ImageRelease

/-!
# The frames of user stacks

`ktask_execve` maps two code pages and two stack pages into a new page table, and looks at no result on
the way. Its first page takes the three tables that all four pages share. With fewer frames than that
nothing is mapped; with two frames more both stack pages get frames of their own. In between a stack page
is mapped to frame 0, which belongs to nobody.
-/

namespace Flos.Mm

open Flos.Lib

variable {S : Type*}

/-! ## Taking frames -/

section Take

variable (A : KernelAlloc S)

/-- The allocators after `n` frame allocations. -/
def takeFrames : ℕ → S → S
  | 0, a => a
  | n + 1, a => takeFrames n (A.allocPage a).2

/-- A failed frame allocation is followed by failed ones, as long as nothing is freed. -/
def KernelAlloc.StaysExhausted (Ok : S → Prop) : Prop :=
  ∀ a, Ok a → (A.allocPage a).1 = 0 → (A.allocPage (A.allocPage a).2).1 = 0

variable {A}

/-- Allocations in a row can be split. -/
theorem framesAvailable_add (m n : ℕ) (a : S) : FramesAvailable A (m + n) a ↔
    FramesAvailable A m a ∧ FramesAvailable A n (takeFrames A m a) := by
  induction m generalizing a with
  | zero =>
    rw [Nat.zero_add]
    exact ⟨fun h => ⟨trivial, h⟩, fun h => h.2⟩
  | succ m ih =>
    rw [Nat.succ_add, FramesAvailable, FramesAvailable, ih, and_assoc, takeFrames]

/-- Where no frame is left none is available. -/
theorem not_framesAvailable {n : ℕ} {a : S} (hn : 0 < n) (h : (A.allocPage a).1 = 0) :
    ¬ FramesAvailable A n a := by
  cases n with
  | zero => exact absurd hn (Nat.lt_irrefl 0)
  | succ n => exact fun havail => havail.1 h

end Take

section Walks

variable {A : KernelAlloc S} {Ok : S → Prop} {frames : S → Set ℕ} {root : ℕ}

/-- A walk to a table that is there changes nothing. -/
theorem descend_of_tableAt {path : List (Fin 512)} {t g : ℕ} {s : Machine S}
    (h : tableAt tableEntry s.mem t path = some g) : descend A true t path s = (some g, s) := by
  induction path generalizing t with
  | nil =>
    obtain rfl := Option.some.inj h
    rfl
  | cons i path ih =>
    cases hc : tableEntry (s.mem t i) with
    | none =>
      rw [tableAt_cons_none hc] at h
      cases h
    | some f =>
      rw [tableAt_cons_some hc] at h
      have hnext : getNextLevel A t i true s = (some f, s) := by
        rcases getNextLevel_cases A t i s with ⟨f', hf', hr⟩ | ⟨hhuge, -⟩ | ⟨hclear, -⟩ | ⟨hclear, -⟩
        · rw [hr, Option.some.inj (hf'.symm.trans hc)]
        · simp [tableEntry, hhuge.1, hhuge.2] at hc
        · rw [tableEntry_of_clear hclear] at hc
          cases hc
        · rw [tableEntry_of_clear hclear] at hc
          cases hc
      rw [descend, hnext]
      exact ih h

/-- A walk with nothing in its way and no table missing ends in a table. -/
theorem exists_tableAt_of_present {mem : ℕ → Fin 512 → ℕ} {t : ℕ} {path : List (Fin 512)}
    (hmissing : missingTables mem t path = 0) : ∃ g, tableAt tableEntry mem t path = some g := by
  induction path generalizing t with
  | nil => exact ⟨t, rfl⟩
  | cons i path ih =>
    rw [missingTables] at hmissing
    cases hc : tableEntry (mem t i) with
    | none =>
      rw [hc] at hmissing
      cases hmissing
    | some f =>
      rw [hc] at hmissing
      rw [tableAt_cons_some hc]
      exact ih hmissing

variable (hA : A.LawfulPages Ok frames)

include hA

/-- A walk that succeeds takes one frame for each missing table. -/
theorem descend_takeFrames (path p : List (Fin 512)) (t : ℕ) (s : Machine S)
    (hlen : (p ++ path).length ≤ 3) (hs : PtState Ok frames root s)
    (ht : tableAt tableEntry s.mem root p = some t) (hsome : (descend A true t path s).1.isSome) :
    (descend A true t path s).2.alloc = takeFrames A (missingTables s.mem t path) s.alloc := by
  induction path generalizing p t s with
  | nil => rfl
  | cons i path ih =>
    have hp : p.length ≤ 2 := by
      simp only [List.length_append, List.length_cons] at hlen
      omega
    rw [List.append_cons] at hlen
    obtain ⟨⟨hs', -⟩, hnext⟩ := getNextLevel_spec hA i hs hp ht
    rw [descend] at hsome ⊢
    rw [missingTables]
    rcases getNextLevel_cases A t i s with ⟨f, hf, hr⟩ | ⟨-, hr⟩ | ⟨-, -, hr⟩ | ⟨hclear, hnew, hr⟩
    all_goals rw [hr] at hs' hnext hsome ⊢
    · rw [hf]
      exact ih (p ++ [i]) f s hlen hs' (hnext f rfl) hsome
    · cases hsome
    · cases hsome
    · have hne : t ≠ (s.allocPage A).1 := by
        rintro rfl
        exact hA.allocPage_fresh _ hs.ok hnew (hs.table.held p _ (Nat.le_succ_of_le hp) ht)
      have hempty : ∀ j, linkTable s.mem t i (s.allocPage A).1 (s.allocPage A).1 j = 0 := fun j => by
        rw [linkTable, writeSlot_of_ne (fun h => hne h.1.symm), Function.update_self]
      have hrest := ih (p ++ [i]) _ _ hlen hs' (hnext _ rfl) hsome
      rw [(missingTables_of_empty hempty path).1] at hrest
      rw [tableEntry_of_clear hclear]
      exact hrest

/-- Where no frame is left, or an allocation of a mapping fails, no frame is left behind it. -/
theorem mapInvariant_exhausted (hstays : A.StaysExhausted Ok) (s₀ : Machine S) :
    MapInvariant A root fun s => PtState Ok frames root s ∧ s₀.log <+: s.log ∧
      ((A.allocPage s₀.alloc).1 = 0 ∨ Failed s₀ s → (A.allocPage s.alloc).1 = 0) where
  level p i t s hp hs ht := by
    obtain ⟨hstate, hlog, hfail⟩ := hs
    obtain ⟨⟨hs', -⟩, hnext⟩ := getNextLevel_spec hA i hstate hp ht
    have hlog' : s₀.log <+: (s.allocPage A).2.log := hlog.trans (List.prefix_append _ _)
    have halloc : (A.allocPage s₀.alloc).1 = 0 ∨ Failed s₀ (s.allocPage A).2 →
        (A.allocPage (s.allocPage A).2.alloc).1 = 0 := by
      rintro (hnone | ⟨e, he, hbad⟩)
      · exact hstays _ hstate.ok (hfail (.inl hnone))
      · refine hstays _ hstate.ok ?_
        change e ∈ (s.log ++ [MemEvent.allocFrame (s.allocPage A).1]).drop s₀.log.length at he
        rw [List.drop_append_of_le_length hlog.length_le] at he
        rcases List.mem_append.mp he with he | he
        · exact hfail (.inr ⟨e, he, hbad⟩)
        · obtain rfl := List.mem_singleton.mp he
          by_contra hne
          exact hbad hne
    refine ⟨⟨hs', ?_⟩, hnext⟩
    rcases getNextLevel_cases A t i s with ⟨f, -, hr⟩ | ⟨-, hr⟩ | ⟨-, -, hr⟩ | ⟨-, -, hr⟩
    · rw [hr]
      exact ⟨hlog, hfail⟩
    · rw [hr]
      exact ⟨hlog, hfail⟩
    · rw [hr]
      exact ⟨hlog', halloc⟩
    · rw [hr]
      exact ⟨hlog', halloc⟩
  leaf p i t e s _ hlen hend hs ht := ⟨⟨hs.1.ok, hs.1.table.writeLeaf hlen ht hend⟩, hs.2⟩

end Walks

/-! ## The pages of a user image -/

/-- An address whose PML4 slot is not present has no translation. -/
theorem translate_of_clear {mem : ℕ → Fin 512 → ℕ} {root va : ℕ}
    (h : (mem root (pml4Idx va)).testBit 0 = false) : translate mem root va = none := by
  rw [translate]
  split
  · rw [pathOf, walkEntries_cons_none (tableEntry_of_clear h)]
    exact decodeWalk_of_clear [] h va
  · rfl

/-- The PML4 of a new address space is well formed beside that of the kernel. -/
theorem WellFormedTable.of_copy {frames frames' : Set ℕ} {mem mem' : ℕ → Fin 512 → ℕ} {k root : ℕ}
    (hk : WellFormedTable frames mem k) (hfresh : root ∉ frames) (hheld : root ∈ frames')
    (hkept : frames ⊆ frames') (hmem : ∀ t ∈ frames, mem' t = mem t)
    (hrow : ∀ i : Fin 512, mem' root i = if 256 ≤ i.val then mem k i else 0) :
    WellFormedTable frames' mem' root := by
  have hk' := (hk.congr hmem hkept).1
  have hheldOld : ∀ q t, InTables q → tableAt tableEntry mem' k q = some t → t ∈ frames :=
    ((hk.congr hmem le_rfl).1).held
  have hkrow : ∀ i, mem' k i = mem k i := fun i => congrFun (hmem k (hk.held [] k (Nat.zero_le 3) rfl)) i
  -- behind its first index every path of the new table is one of the kernel's
  have hpath : ∀ i q t, tableAt tableEntry mem' root (i :: q) = some t →
      tableAt tableEntry mem' k (i :: q) = some t := by
    intro i q t ht
    by_cases hi : 256 ≤ i.val
    · have hslot : mem' root i = mem' k i := by rw [hrow, if_pos hi, hkrow]
      rwa [tableAt, hslot] at ht
    · rw [tableAt_cons_none (by rw [hrow, if_neg hi, tableEntry_zero])] at ht
      cases ht
  refine ⟨fun p q t hp hq htp htq => ?_, fun p i t f hp ht hf => ?_, fun p t hp ht => ?_⟩
  · cases p with
    | nil =>
      obtain rfl := Option.some.inj htp
      cases q with
      | nil => rfl
      | cons j q => exact absurd (hheldOld _ _ hq (hpath j q _ htq)) hfresh
    | cons i p =>
      cases q with
      | nil =>
        obtain rfl := Option.some.inj htq
        exact absurd (hheldOld _ _ hp (hpath i p _ htp)) hfresh
      | cons j q => exact hk'.distinct _ _ t hp hq (hpath i p t htp) (hpath j q t htq)
  · cases p with
    | nil =>
      obtain rfl := Option.some.inj ht
      rw [hrow] at hf ⊢
      split at hf
      next hi =>
        rw [if_pos hi, ← hkrow]
        rw [← hkrow] at hf
        exact hk'.openLink [] i k f (Nat.zero_le 2) rfl hf
      next =>
        rw [tableEntry_zero] at hf
        cases hf
    | cons j p => exact hk'.openLink _ i t f hp (hpath j p t ht) hf
  · cases p with
    | nil =>
      obtain rfl := Option.some.inj ht
      exact hheld
    | cons j p => exact hk'.held _ t hp (hpath j p t ht)

/-- A page of the set-up of a user image: the pages share their three tables. -/
structure ImagePage (va pa : ℕ) : Prop where
  path : tablePath va = tablePath utaskEntry
  aligned : 4096 ∣ va
  lower : va + 4096 ≤ 2 ^ 47
  frame : 4096 ∣ pa
  physical : pa < 2 ^ 52

section Pages

variable {A : KernelAlloc S} {Ok : S → Prop} {frames : S → Set ℕ} {root va pa : ℕ} {s : Machine S}
  (hA : A.LawfulPages Ok frames) (flags : ℕ)

/-- Mapping a page of a user image, as a leaf behind the three tables. -/
theorem ImagePage.map_eq (hpage : ImagePage va pa) (s : Machine S) :
    pmapMapPage A root va pa flags s = map A root va pa (parseCommonFlags flags) s := by
  have hlower := hpage.lower
  rw [pmapMapPage_eq (by omega) hpage.aligned hpage.physical hpage.frame, map]

/-- The tables of the user image are there. -/
structure TablesPresent (Ok : S → Prop) (frames : S → Set ℕ) (root : ℕ) (s : Machine S) : Prop where
  state : PtState Ok frames root s
  tables : ∃ t, tableAt tableEntry s.mem root (tablePath utaskEntry) = some t

/-- The tables of the user image are not there, and no frame is left. -/
structure TablesMissing (A : KernelAlloc S) (Ok : S → Prop) (frames : S → Set ℕ) (root : ℕ)
    (s : Machine S) : Prop where
  state : PtState Ok frames root s
  tables : tableAt tableEntry s.mem root (tablePath utaskEntry) = none
  exhausted : (A.allocPage s.alloc).1 = 0

include hA

/-- Behind the tables a page is mapped without an allocation. -/
theorem TablesPresent.mapPage (h : TablesPresent Ok frames root s) (hpage : ImagePage va pa) :
    TablesPresent Ok frames root (pmapMapPage A root va pa flags s).2 ∧
      (pmapMapPage A root va pa flags s).2.alloc = s.alloc ∧
      (pmapMapPage A root va pa flags s).2.log = s.log ∧
      Overlay s.mem (pmapMapPage A root va pa flags s).2.mem root va pa 4096 (flagsAccess flags) := by
  obtain ⟨t, ht⟩ := h.tables
  have hlower := hpage.lower
  obtain ⟨hs', hover⟩ := map_spec hA flags h.state hpage.aligned hpage.frame hpage.physical
    (.inl hlower)
  have hpath : tableAt tableEntry s.mem root (tablePath va) = some t := by rw [hpage.path, ht]
  have hmap : map A root va pa (parseCommonFlags flags) s = (pageSize,
      { s with mem := writeSlot s.mem t (ptIdx va) (pa ||| parseCommonFlags flags) }) := by
    rw [map, mapLeaf, descend_of_tableAt hpath]
  rw [hpage.map_eq flags s]
  refine ⟨⟨hs', t, ?_⟩, ?_, ?_, ?_⟩
  · rw [hmap]
    exact tableAt_writeSlot_self h.state.table.distinct (Nat.le_refl 3) ht
      (inTables_closed _ (Nat.le_refl 3))
  · rw [hmap]
  · rw [hmap]
  · rwa [hmap] at hover ⊢

/-- Where the tables are missing and no frame is left, mapping a page changes no translation. -/
theorem TablesMissing.mapPage (hstays : A.StaysExhausted Ok) (h : TablesMissing A Ok frames root s)
    (hpage : ImagePage va pa) :
    TablesMissing A Ok frames root (pmapMapPage A root va pa flags s).2 ∧
      ∀ x, translate (pmapMapPage A root va pa flags s).2.mem root x = translate s.mem root x := by
  obtain ⟨hs', hover⟩ := map_spec hA flags h.state hpage.aligned hpage.frame hpage.physical
    (.inl hpage.lower)
  obtain ⟨-, -, hexhausted⟩ := (mapInvariant_exhausted hA hstays s).map va pa
    (parseCommonFlags flags) ⟨h.state, List.prefix_rfl, fun _ => h.exhausted⟩
  obtain ⟨hiff, hstop⟩ := descend_isSome_iff hA (tablePath va) [] root s (Nat.le_refl 3) h.state rfl
  have hnone : (descend A true root (tablePath va) s).1 = none := by
    by_contra hsome
    have havail := (hiff.mp (Option.isSome_iff_ne_none.mpr hsome)).2
    refine not_framesAvailable (Nat.pos_of_ne_zero fun hmissing => ?_) h.exhausted havail
    obtain ⟨g, hg⟩ := exists_tableAt_of_present hmissing
    rw [hpage.path, h.tables] at hg
    cases hg
  have htables := (hstop hnone).1
  rw [hpage.map_eq flags s]
  have hmap : map A root va pa (parseCommonFlags flags) s =
      (0, (descend A true root (tablePath va) s).2) := by
    rw [map, mapLeaf]
    rcases hr : descend A true root (tablePath va) s with ⟨_ | g, s'⟩
    · rfl
    · rw [hr] at hnone
      cases hnone
  rw [hmap] at hs' hover hexhausted ⊢
  refine ⟨⟨hs', by rwa [← hpage.path], hexhausted (.inl h.exhausted)⟩, fun x => ?_⟩
  rw [hover x, if_neg (by omega)]

/-- A frame for a stack page is aligned, also the one there is none for. -/
theorem imagePage_stack (hok : Ok s.alloc) (hva : tablePath va = tablePath utaskEntry)
    (hdvd : 4096 ∣ va) (hlower : va + 4096 ≤ 2 ^ 47) :
    alignDown (s.allocPage A).1 pageSize = (s.allocPage A).1 ∧ ImagePage va (s.allocPage A).1 := by
  obtain ⟨hframe, hlt⟩ := hA.allocPage_addr _ hok
  refine ⟨?_, hva, hdvd, hlower, hframe, hlt⟩
  change alignDown (A.allocPage s.alloc).1 pageSize = (A.allocPage s.alloc).1
  rw [alignDown_page (hlt.trans (by decide)), Nat.div_mul_cancel hframe]

/-- Behind the tables a stack page is mapped to what the frame manager returns. -/
theorem TablesPresent.mapStackPage (h : TablesPresent Ok frames root s)
    (hva : tablePath va = tablePath utaskEntry) (hdvd : 4096 ∣ va) (hlower : va + 4096 ≤ 2 ^ 47) :
    TablesPresent Ok frames root (mapStackPage A root va s) ∧
      (mapStackPage A root va s).alloc = (A.allocPage s.alloc).2 ∧
      (mapStackPage A root va s).log = s.log ++ [.allocFrame (A.allocPage s.alloc).1] ∧
      Overlay s.mem (mapStackPage A root va s).mem root va (A.allocPage s.alloc).1 4096
        ⟨true, true, false, false⟩ := by
  obtain ⟨halign, hpage⟩ := imagePage_stack hA h.state.ok hva hdvd hlower
  have htaken : TablesPresent Ok frames root (s.allocPage A).2 :=
    ⟨h.state.allocPage hA, h.tables⟩
  have hmap := htaken.mapPage hA (mmuFlagUser ||| mmuFlagWrite ||| mmuFlagPresent) hpage
  rw [Mm.mapStackPage, halign]
  exact hmap

/-- Where the tables are missing and no frame is left, a stack page changes no translation. -/
theorem TablesMissing.mapStackPage (hstays : A.StaysExhausted Ok)
    (h : TablesMissing A Ok frames root s) (hva : tablePath va = tablePath utaskEntry)
    (hdvd : 4096 ∣ va) (hlower : va + 4096 ≤ 2 ^ 47) :
    TablesMissing A Ok frames root (mapStackPage A root va s) ∧
      ∀ x, translate (mapStackPage A root va s).mem root x = translate s.mem root x := by
  obtain ⟨halign, hpage⟩ := imagePage_stack hA h.state.ok hva hdvd hlower
  have htaken : TablesMissing A Ok frames root (s.allocPage A).2 :=
    ⟨h.state.allocPage hA, h.tables, hstays _ h.state.ok h.exhausted⟩
  have hmap := htaken.mapPage hA (mmuFlagUser ||| mmuFlagWrite ||| mmuFlagPresent) hstays hpage
  rw [Mm.mapStackPage, halign]
  exact hmap

/-- The first page takes the tables: either there were frames for all three, or none is left. -/
theorem firstPage_cases (hstays : A.StaysExhausted Ok) (hs : PtState Ok frames root s)
    (hempty : s.mem root (pml4Idx utaskEntry) = 0) (hpage : ImagePage utaskEntry pa) :
    let s' := (pmapMapPage A root utaskEntry pa flags s).2
    s.log <+: s'.log ∧
      (FramesAvailable A 3 s.alloc ∧ TablesPresent Ok frames root s' ∧
          s'.alloc = takeFrames A 3 s.alloc ∧
          Overlay s.mem s'.mem root utaskEntry pa 4096 (flagsAccess flags) ∨
        ¬ FramesAvailable A 3 s.alloc ∧ TablesMissing A Ok frames root s' ∧
          ∀ x, translate s'.mem root x = translate s.mem root x) := by
  have hclear : tableEntry (s.mem root (pml4Idx utaskEntry)) = none := by rw [hempty, tableEntry_zero]
  have hmissing : missingTables s.mem root (tablePath utaskEntry) = 3 := by
    rw [missingTables, hclear]
    rfl
  have hopen : hugeOnPath s.mem root (tablePath utaskEntry) = false := by
    rw [hugeOnPath, hclear, hempty]
    rfl
  obtain ⟨hiff, hstop⟩ :=
    descend_isSome_iff hA (tablePath utaskEntry) [] root s (Nat.le_refl 3) hs rfl
  obtain ⟨hwalk, -, hreach⟩ := descend_spec hA hs
    (show (tablePath utaskEntry).length ≤ 3 from Nat.le_refl 3)
  obtain ⟨hs', hover⟩ := map_spec hA flags hs hpage.aligned hpage.frame hpage.physical
    (.inl hpage.lower)
  have hfree := (mapInvariant_exhausted hA hstays s).descend (tablePath utaskEntry) [] root
    (Nat.le_refl 3) ⟨hs, List.prefix_rfl, fun h => h.elim id fun h => by simp [Failed] at h⟩ rfl
  rw [hmissing] at hiff
  rw [hpage.map_eq flags s]
  dsimp only
  rcases hr : descend A true root (tablePath utaskEntry) s with ⟨_ | t, s'⟩
  · rw [hr] at hiff hstop hfree
    have hnone : ¬ FramesAvailable A 3 s.alloc := fun h => by simpa using hiff.mpr ⟨hopen, h⟩
    obtain ⟨htables, hfailed⟩ := hstop rfl
    have hmap : map A root utaskEntry pa (parseCommonFlags flags) s = (0, s') := by
      rw [map, mapLeaf, hr]
    rw [hmap] at hs' hover ⊢
    refine ⟨hfree.1.2.1, .inr ⟨hnone, ⟨hs', htables, hfree.1.2.2 (.inr (hfailed hopen))⟩, ?_⟩⟩
    intro x
    rw [hover x, if_neg (by omega)]
  · rw [hr] at hiff hfree hwalk hreach
    have havail : FramesAvailable A 3 s.alloc := (hiff.mp rfl).2
    have htaken := descend_takeFrames hA (tablePath utaskEntry) [] root s (Nat.le_refl 3) hs rfl
      (by rw [hr]; rfl)
    rw [hr, hmissing] at htaken
    have ht := hreach t rfl
    have hmap : map A root utaskEntry pa (parseCommonFlags flags) s = (pageSize,
        { s' with mem := writeSlot s'.mem t (ptIdx utaskEntry) (pa ||| parseCommonFlags flags) }) := by
      rw [map, mapLeaf, hr]
    rw [hmap] at hs' hover ⊢
    refine ⟨hfree.1.2.1, .inl ⟨havail, ⟨hs', t, ?_⟩, htaken, hover⟩⟩
    exact tableAt_writeSlot_self hwalk.table.distinct (Nat.le_refl 3) ht
      (inTables_closed _ (Nat.le_refl 3))

end Pages

/-- What a user image maps: two code pages, and two stack pages to write to. -/
def imageTranslation (code₁ code₂ stack₁ stack₂ va : ℕ) : Option Translation :=
  if 0x4000 ≤ va ∧ va < 0x5000 then some ⟨stack₂ + (va - 0x4000), ⟨true, true, false, false⟩⟩
  else if 0x3000 ≤ va ∧ va < 0x4000 then some ⟨stack₁ + (va - 0x3000), ⟨true, true, false, false⟩⟩
  else if 0x2000 ≤ va ∧ va < 0x3000 then some ⟨code₂ + (va - 0x2000), ⟨false, true, false, false⟩⟩
  else if 0x1000 ≤ va ∧ va < 0x2000 then some ⟨code₁ + (va - 0x1000), ⟨false, true, false, false⟩⟩
  else none

section Image

variable {A : KernelAlloc S} {Ok : S → Prop} {frames : S → Set ℕ} {root fnPhys : ℕ}
  {s : Machine S} (hA : A.LawfulPages Ok frames)

include hA

/-- A user image in an address space without a lower half: it is mapped as a whole, with what the
frame manager returns for the stack pages, or not at all. -/
theorem mapUserPages_cases (hstays : A.StaysExhausted Ok) (hs : PtState Ok frames root s)
    (hempty : ∀ i : Fin 512, i.val < 256 → s.mem root i = 0) (hphys : fnPhys + pageSize < 2 ^ 52) :
    let s' := mapUserPages A root fnPhys s
    let a := takeFrames A 3 s.alloc
    ¬ FramesAvailable A 3 s.alloc ∧ (∀ va < 2 ^ 47, translate s'.mem root va = none) ∨
      FramesAvailable A 3 s.alloc ∧ PtState Ok frames root s' ∧ s'.alloc = takeFrames A 2 a ∧
        (∃ log, s.log <+: log ∧ s'.log = log ++ [.allocFrame (A.allocPage a).1] ++
          [.allocFrame (A.allocPage (A.allocPage a).2).1]) ∧
        ∀ va < 2 ^ 47, translate s'.mem root va =
          imageTranslation (alignDown fnPhys pageSize) (alignDown (fnPhys + pageSize) pageSize)
            (A.allocPage a).1 (A.allocPage (A.allocPage a).2).1 va := by
  have hround : ∀ pa, pa < 2 ^ 52 → 4096 ∣ alignDown pa pageSize ∧
      alignDown pa pageSize < 2 ^ 52 := by
    intro pa hpa
    rw [alignDown_page (hpa.trans (by decide))]
    exact ⟨Nat.dvd_mul_left _ _, (Nat.div_mul_le_self _ _).trans_lt hpa⟩
  have hlow := hround fnPhys ((Nat.le_add_right _ _).trans_lt hphys)
  have hhigh := hround (fnPhys + pageSize) hphys
  have hfirst : ImagePage utaskEntry (alignDown fnPhys pageSize) :=
    ⟨rfl, by decide, by decide, hlow.1, hlow.2⟩
  have hsecond : ImagePage (utaskEntry + pageSize) (alignDown (fnPhys + pageSize) pageSize) :=
    ⟨by decide, by decide, by decide, hhigh.1, hhigh.2⟩
  have hnone : ∀ va < 2 ^ 47, translate s.mem root va = none := by
    intro va hva
    refine translate_of_clear ?_
    rw [hempty _ (by rw [pml4Idx, tableIdx_val]; omega), Nat.zero_testBit]
  have hmod : (fnPhys + pageSize) % wordSize = fnPhys + pageSize :=
    Nat.mod_eq_of_lt (hphys.trans (by decide))
  simp only [mapUserPages, hmod]
  obtain ⟨hlog, hcases⟩ := firstPage_cases hA (mmuFlagUser ||| mmuFlagPresent) hstays hs
    (hempty _ (by decide)) hfirst
  generalize (pmapMapPage A root utaskEntry (alignDown fnPhys pageSize)
    (mmuFlagUser ||| mmuFlagPresent) s).2 = s₁ at hlog hcases ⊢
  rcases hcases with ⟨havail, hpresent, halloc, hover₁⟩ | ⟨hmissing, htables, hsame₁⟩
  · right
    obtain ⟨h₂, halloc₂, hlog₂, hover₂⟩ :=
      hpresent.mapPage hA (mmuFlagUser ||| mmuFlagPresent) hsecond
    generalize (pmapMapPage A root (utaskEntry + pageSize) (alignDown (fnPhys + pageSize) pageSize)
      (mmuFlagUser ||| mmuFlagPresent) s₁).2 = s₂ at h₂ halloc₂ hlog₂ hover₂ ⊢
    obtain ⟨h₃, halloc₃, hlog₃, hover₃⟩ :=
      h₂.mapStackPage hA (show tablePath utaskStackBottom = _ by decide) (by decide) (by decide)
    generalize mapStackPage A root utaskStackBottom s₂ = s₃ at h₃ halloc₃ hlog₃ hover₃ ⊢
    obtain ⟨h₄, halloc₄, hlog₄, hover₄⟩ :=
      h₃.mapStackPage hA (show tablePath (utaskStackBottom + pageSize) = _ by decide) (by decide)
        (by decide)
    rw [halloc₃, halloc₂, halloc] at halloc₄ hlog₄ hover₄
    rw [halloc₂, halloc] at hlog₃ hover₃
    refine ⟨havail, h₄.state, halloc₄, ⟨s₁.log, hlog, ?_⟩, fun va hva => ?_⟩
    · rw [hlog₄, hlog₃, hlog₂]
    · rw [hover₄ va, hover₃ va, hover₂ va, hover₁ va, hnone va hva]
      rfl
  · refine .inl ⟨hmissing, fun va hva => ?_⟩
    obtain ⟨h₂, hsame₂⟩ := htables.mapPage hA (mmuFlagUser ||| mmuFlagPresent) hstays hsecond
    obtain ⟨h₃, hsame₃⟩ := h₂.mapStackPage hA hstays
      (show tablePath utaskStackBottom = _ by decide) (by decide) (by decide)
    obtain ⟨-, hsame₄⟩ := h₃.mapStackPage hA hstays
      (show tablePath (utaskStackBottom + pageSize) = _ by decide) (by decide) (by decide)
    rw [hsame₄, hsame₃, hsame₂, hsame₁, hnone va hva]

end Image

/-- The frame of a translated address. -/
def Translation.frame (t : Translation) : ℕ := t.phys / 4096 * 4096

/-- Each page of a user image has a frame, and only the stack pages can be written. -/
theorem imageTranslation_cases {code₁ code₂ stack₁ stack₂ va : ℕ} {t : Translation}
    (hcode₁ : 4096 ∣ code₁) (hcode₂ : 4096 ∣ code₂) (hstack₁ : 4096 ∣ stack₁)
    (hstack₂ : 4096 ∣ stack₂) (h : imageTranslation code₁ code₂ stack₁ stack₂ va = some t) :
    (va / 4096 = 4 ∧ t.frame = stack₂) ∨ (va / 4096 = 3 ∧ t.frame = stack₁) ∨
      (t.access.write = false ∧ (t.frame = code₂ ∨ t.frame = code₁)) := by
  rw [imageTranslation] at h
  split at h
  next hin =>
    obtain rfl := Option.some.inj h
    simp only [Translation.frame]
    omega
  next =>
    split at h
    next hin =>
      obtain rfl := Option.some.inj h
      simp only [Translation.frame]
      omega
    next =>
      split at h
      next hin =>
        obtain rfl := Option.some.inj h
        refine .inr (.inr ⟨rfl, .inl ?_⟩)
        simp only [Translation.frame]
        omega
      next =>
        split at h
        next hin =>
          obtain rfl := Option.some.inj h
          refine .inr (.inr ⟨rfl, .inr ?_⟩)
          simp only [Translation.frame]
          omega
        next => cases h

/-- An address of the lower half that user code can write to. -/
structure WritableUser (mem : ℕ → Fin 512 → ℕ) (root va : ℕ) (t : Translation) : Prop where
  lower : va < 2 ^ 47
  translated : translate mem root va = some t
  user : t.access.user = true
  write : t.access.write = true

/-- What user code can write to after a call, it can write to alone: the frame was taken during the
call, was not in use before and is in use now, and the page table names it for one page only. -/
structure StacksPrivate (frames : S → Set ℕ) (s s' : Machine S) (root : ℕ) : Prop where
  taken : ∀ va t, WritableUser s'.mem root va t → t.frame ∈ framesTaken s s'
  fresh : ∀ va t, WritableUser s'.mem root va t → t.frame ∉ frames s.alloc
  held : ∀ va t, WritableUser s'.mem root va t → t.frame ∈ frames s'.alloc
  single : ∀ va t va' t', WritableUser s'.mem root va t → va' < 2 ^ 47 →
    translate s'.mem root va' = some t' → t'.frame = t.frame → va' / 4096 = va / 4096

/-- Two stack frames that were not in use before, beside code frames that were, are private. -/
theorem StacksPrivate.of_image {frames : S → Set ℕ} {s s' : Machine S}
    {root code₁ code₂ stack₁ stack₂ : ℕ} {used : Set ℕ}
    (himage : ∀ va < 2 ^ 47, translate s'.mem root va =
      imageTranslation code₁ code₂ stack₁ stack₂ va)
    (halign₁ : 4096 ∣ code₁) (halign₂ : 4096 ∣ code₂) (halign₃ : 4096 ∣ stack₁)
    (halign₄ : 4096 ∣ stack₂) (hused : frames s.alloc ⊆ used) (hcode₁ : code₁ ∈ used)
    (hcode₂ : code₂ ∈ used) (hfresh₁ : stack₁ ∉ used) (hfresh₂ : stack₂ ∉ insert stack₁ used)
    (htaken₁ : stack₁ ∈ framesTaken s s' ∧ stack₁ ∈ frames s'.alloc)
    (htaken₂ : stack₂ ∈ framesTaken s s' ∧ stack₂ ∈ frames s'.alloc) :
    StacksPrivate frames s s' root := by
  have hapart : stack₂ ≠ stack₁ := fun heq => hfresh₂ (heq ▸ Set.mem_insert _ _)
  have hpages : ∀ va < 2 ^ 47, ∀ t, translate s'.mem root va = some t →
      (va / 4096 = 4 ∧ t.frame = stack₂) ∨ (va / 4096 = 3 ∧ t.frame = stack₁) ∨
        (t.access.write = false ∧ t.frame ∈ used) := by
    intro va hva t ht
    rw [himage va hva] at ht
    rcases imageTranslation_cases halign₁ halign₂ halign₃ halign₄ ht with h | h | ⟨hwrite, h | h⟩
    · exact .inl h
    · exact .inr (.inl h)
    · exact .inr (.inr ⟨hwrite, h ▸ hcode₂⟩)
    · exact .inr (.inr ⟨hwrite, h ▸ hcode₁⟩)
  have hstacks : ∀ va t, WritableUser s'.mem root va t →
      (va / 4096 = 4 ∧ t.frame = stack₂) ∨ (va / 4096 = 3 ∧ t.frame = stack₁) := by
    intro va t h
    rcases hpages va h.lower t h.translated with h' | h' | ⟨hwrite, -⟩
    · exact .inl h'
    · exact .inr h'
    · rw [h.write] at hwrite
      cases hwrite
  constructor
  · intro va t h
    rcases hstacks va t h with ⟨-, heq⟩ | ⟨-, heq⟩
    · exact heq ▸ htaken₂.1
    · exact heq ▸ htaken₁.1
  · intro va t h hmem
    rcases hstacks va t h with ⟨-, heq⟩ | ⟨-, heq⟩
    · exact hfresh₂ (Set.mem_insert_of_mem _ (hused (heq ▸ hmem)))
    · exact hfresh₁ (hused (heq ▸ hmem))
  · intro va t h
    rcases hstacks va t h with ⟨-, heq⟩ | ⟨-, heq⟩
    · exact heq ▸ htaken₂.2
    · exact heq ▸ htaken₁.2
  · intro va t va' t' h hva' ht' heq
    rcases hstacks va t h with ⟨hva, hframe⟩ | ⟨hva, hframe⟩
    all_goals rcases hpages va' hva' t' ht' with ⟨hva', hframe'⟩ | ⟨hva', hframe'⟩ | ⟨-, hmem⟩
    · omega
    · exact absurd (hframe.symm.trans (heq.symm.trans hframe')) hapart
    · rw [heq, hframe] at hmem
      exact absurd (Set.mem_insert_of_mem _ hmem) hfresh₂
    · exact absurd (hframe'.symm.trans (heq.trans hframe)) hapart
    · omega
    · rw [heq, hframe] at hmem
      exact absurd hmem hfresh₁

/-- The stacks of two tasks share no frame, if the first is still in use when the second is set up. -/
theorem StacksPrivate.disjoint {frames : S → Set ℕ} {s s' r r' : Machine S} {root root' va va' : ℕ}
    {t t' : Translation} (h : StacksPrivate frames s s' root) (h' : StacksPrivate frames r r' root')
    (hkept : frames s'.alloc ⊆ frames r.alloc) (ht : WritableUser s'.mem root va t)
    (ht' : WritableUser r'.mem root' va' t') : t.frame ≠ t'.frame := by
  intro heq
  exact h'.fresh va' t' ht' (heq ▸ hkept (h.held va t ht))

section Private

variable {A : KernelAlloc S} {Ok : S → Prop} {frames : S → Set ℕ} {root : ℕ} {s : Machine S}

/-- Taking frames gives none back. -/
theorem takeFrames_spec (hA : A.LawfulPages Ok frames) (n : ℕ) {a : S} (hok : Ok a) :
    Ok (takeFrames A n a) ∧ frames a ⊆ frames (takeFrames A n a) := by
  induction n generalizing a with
  | zero => exact ⟨hok, le_rfl⟩
  | succ n ih =>
    obtain ⟨hok', hkept⟩ := ih (hA.allocPage_ok a hok)
    refine ⟨hok', Set.Subset.trans ?_ hkept⟩
    by_cases hframe : (A.allocPage a).1 = 0
    · exact (hA.allocPage_fail a hok hframe).ge
    · rw [hA.allocPage_frames a hok hframe]
      exact Set.subset_insert _ _

/-- The page table of a new address space is well formed, with nothing in its lower half. -/
theorem vmMapCreate_ptState {objects : CacheName → S → Set ℕ} (hA : A.Lawful Ok frames objects)
    {kernel : Option PageTable} {s₁ : Machine S} {space : VmMap} (hok : Ok s.alloc)
    (hkernel : ∀ k ∈ kernel, PtState Ok frames k.pml4Phy s)
    (hcreate : vmMapCreate A kernel s = (some space, s₁)) :
    PtState Ok frames space.pageTable.pml4Phy s₁ ∧ Extends frames s s₁ ∧
      ∀ i : Fin 512, i.val < 256 → s₁.mem space.pageTable.pml4Phy i = 0 := by
  have hheld : ∀ k ∈ kernel, k.pml4Phy ∈ frames s.alloc := fun k hk =>
    (hkernel k hk).table.held [] _ (Nat.zero_le 3) rfl
  obtain ⟨hok', hext, hnew⟩ := vmMapCreate_spec hA hok hheld
  rw [hcreate] at hok' hext hnew
  obtain ⟨hfresh, hroot, hrow⟩ := hnew space rfl
  have hempty : ∀ i : Fin 512, i.val < 256 → s₁.mem space.pageTable.pml4Phy i = 0 := by
    intro i hi
    rw [hrow, sharedEntry, if_neg (Nat.not_le.mpr hi)]
  refine ⟨⟨hok', ?_⟩, hext, hempty⟩
  cases kernel with
  | none =>
    refine WellFormedTable.of_empty (fun i => ?_) hroot
    rw [hrow, sharedEntry]
    split <;> rfl
  | some k =>
    exact (hkernel k rfl).table.of_copy hfresh hroot hext.kept hext.mem fun i => congrFun hrow i

end Private

section Execve

variable {A : HeapAlloc S} {Ok : S → Prop} {frames : S → Set ℕ} {objects : CacheName → S → Set ℕ}
  {s s₁ : Machine S} {kernel : Option PageTable} {k : KernelAddr} {fn : ℕ} {space : VmMap}

/-- What `ktask_execve` leaves behind is the memory behind its four pages. -/
theorem ktaskExecve_mem (hcreate : vmMapCreate A.toKernelAlloc kernel s = (some space, s₁))
    {space' : VmMap} {s' : Machine S} (hexec : ktaskExecve A kernel k fn s = some (space', s')) :
    space'.pageTable = space.pageTable ∧ s'.mem =
      (mapUserPages A.toKernelAlloc space.pageTable.pml4Phy (kernelVirtToPhys k fn) s₁).mem := by
  rw [ktaskExecve, hcreate] at hexec
  dsimp only at hexec
  split at hexec
  · cases hexec
  · obtain ⟨rfl, rfl⟩ := Prod.mk.inj (Option.some.inj hexec)
    exact ⟨rfl, rfl⟩

/-- User stacks are private frames exactly when, with the new address space created, fewer than the
three frames of its tables are left, or the two frames of the stacks as well. -/
theorem ktaskExecve_stacksPrivate_iff (hA : A.toKernelAlloc.Lawful Ok frames objects)
    (hstays : A.toKernelAlloc.StaysExhausted Ok) (hok : Ok s.alloc)
    (hkernel : ∀ k ∈ kernel, PtState Ok frames k.pml4Phy s)
    (hphys : kernelVirtToPhys k fn + pageSize < 2 ^ 52) (hcode : codeFrames k fn ⊆ frames s.alloc)
    (hcreate : vmMapCreate A.toKernelAlloc kernel s = (some space, s₁)) :
    let s₂ := mapUserPages A.toKernelAlloc space.pageTable.pml4Phy (kernelVirtToPhys k fn) s₁
    (StacksPrivate frames s s₂ space.pageTable.pml4Phy ↔
        ¬ FramesAvailable A.toKernelAlloc 3 s₁.alloc ∨
          FramesAvailable A.toKernelAlloc 5 s₁.alloc) ∧
      ∀ space' s', ktaskExecve A kernel k fn s = some (space', s') →
        space'.pageTable = space.pageTable ∧ s'.mem = s₂.mem := by
  refine ⟨?_, fun space' s' hexec => ktaskExecve_mem hcreate hexec⟩
  obtain ⟨hs, hext, hempty⟩ := vmMapCreate_ptState hA hok hkernel hcreate
  have hlog₁ : s.log <+: s₁.log :=
    (callInvariant_log A.toKernelAlloc s.log).vmMapCreate hcreate List.prefix_rfl
  have hmod : (kernelVirtToPhys k fn + pageSize) % wordSize = kernelVirtToPhys k fn + pageSize :=
    Nat.mod_eq_of_lt (hphys.trans (by decide))
  have hsplit := framesAvailable_add (A := A.toKernelAlloc) 3 2 s₁.alloc
  obtain ⟨hoka, hkepta⟩ := takeFrames_spec hA.toLawfulPages 3 hs.ok
  rcases mapUserPages_cases hA.toLawfulPages hstays hs hempty hphys with
    ⟨hfew, hnone⟩ | ⟨htables, hs', halloc, ⟨log, hlog, hlog'⟩, himage⟩
  · refine iff_of_true ?_ (.inl hfew)
    have hno : ∀ va t, ¬ WritableUser (mapUserPages A.toKernelAlloc space.pageTable.pml4Phy
        (kernelVirtToPhys k fn) s₁).mem space.pageTable.pml4Phy va t := by
      intro va t h
      have htranslated := h.translated
      rw [hnone va h.lower] at htranslated
      cases htranslated
    exact ⟨fun va t h => absurd h (hno va t), fun va t h => absurd h (hno va t),
      fun va t h => absurd h (hno va t), fun va t _ _ h => absurd h (hno va t)⟩
  · set a := takeFrames A.toKernelAlloc 3 s₁.alloc with ha
    set stack₁ := (A.allocPage a).1 with hstack₁
    set stack₂ := (A.allocPage (A.allocPage a).2).1 with hstack₂
    have hokb := hA.allocPage_ok a hoka
    have halign₁ := (hA.allocPage_addr a hoka).1
    have halign₂ := (hA.allocPage_addr _ hokb).1
    generalize mapUserPages A.toKernelAlloc space.pageTable.pml4Phy (kernelVirtToPhys k fn) s₁ = s'
      at hs' halloc hlog' himage ⊢
    rw [hsplit, or_iff_right (not_not.mpr htables), and_iff_right htables]
    constructor
    · intro hprivate
      have hwritable : ∀ va stack, va < 2 ^ 47 → 4096 ∣ stack →
          translate s'.mem space.pageTable.pml4Phy va =
            some ⟨stack + 0, ⟨true, true, false, false⟩⟩ → stack ≠ 0 := by
        intro va stack hva hdvd htranslate
        have htaken := (hprivate.taken va _ ⟨hva, htranslate, rfl, rfl⟩).1
        simp only [Translation.frame] at htaken
        omega
      refine ⟨hwritable 0x3000 _ (by decide) halign₁ ?_, hwritable 0x4000 _ (by decide) halign₂ ?_,
        trivial⟩
      · exact himage _ (by decide)
      · exact himage _ (by decide)
    · rintro ⟨hne₁, hne₂, -⟩
      have hfresh₂ := hA.allocPage_fresh _ hokb hne₂
      have hframes₂ := hA.allocPage_frames _ hokb hne₂
      rw [hA.allocPage_frames a hoka hne₁] at hfresh₂ hframes₂
      have hheld : frames s'.alloc = insert stack₂ (insert stack₁ (frames a)) := by
        rw [halloc]
        exact hframes₂
      have hold : frames s.alloc ⊆ frames a := Set.Subset.trans hext.kept hkepta
      have hdrop : s'.log.drop s.log.length =
          log.drop s.log.length ++ [.allocFrame stack₁] ++ [.allocFrame stack₂] := by
        have hle := (hlog₁.trans hlog).length_le
        rw [hlog', List.drop_append_of_le_length (by rw [List.length_append]; omega),
          List.drop_append_of_le_length hle]
      have hround : ∀ pa, pa < 2 ^ 52 → 4096 ∣ alignDown pa pageSize := fun pa hpa => by
        rw [alignDown_page (hpa.trans (by decide))]
        exact Nat.dvd_mul_left _ _
      refine .of_image himage (hround _ ((Nat.le_add_right _ _).trans_lt hphys)) (hround _ hphys)
        halign₁ halign₂ hold (hold (hcode (.inl rfl)))
        (hold (hcode (.inr (by rw [hmod]; rfl)))) (hA.allocPage_fresh a hoka hne₁) hfresh₂
        ⟨⟨hne₁, ?_⟩, ?_⟩ ⟨⟨hne₂, ?_⟩, ?_⟩
      · rw [hdrop]
        simp
      · rw [hheld]
        exact Set.mem_insert_of_mem _ (Set.mem_insert _ _)
      · rw [hdrop]
        simp
      · rw [hheld]
        exact Set.mem_insert _ _

end Execve

/-! ## On the shared heap -/

/-- A frame manager without a free frame stays so. -/
theorem kernelHeaps_staysExhausted : kernelHeaps.toKernelAlloc.StaysExhausted
    (KernelHeap.Ok Pmm.Ok Pmm.inUse hhdmOffset (2 ^ 43)) := by
  intro s hok hfail
  have hfail' : (pmmAllocPage s.kmem.heap.pages).1 = 0 := hfail
  have hpages := hok.caches.pagesOk
  change (pmmAllocPage (pmmAllocPage s.kmem.heap.pages).2).1 = 0
  rcases hpages.allocPage with ⟨i, -, hpos, haddr, -⟩ | heq
  · omega
  · rw [heq, heq]

/-- Right after boot an image set up beside no kernel has stacks of its own. -/
theorem ktaskExecve_stacksPrivate_kernelImageMap :
    ∃ s₀ space s₁, initBitmapPmm kernelImageMap (fun _ => 0#8) = some s₀ ∧
      vmMapCreate kernelHeaps.toKernelAlloc none ⟨fun _ _ => 0, bootHeap s₀, []⟩ =
        (some space, s₁) ∧
      StacksPrivate (KernelHeap.frames hhdmOffset) ⟨fun _ _ => 0, bootHeap s₀, []⟩
        (mapUserPages kernelHeaps.toKernelAlloc space.pageTable.pml4Phy
          (kernelVirtToPhys ⟨0x8000, 0xffffffff80000000⟩ 0xffffffff80000010) s₁)
        space.pageTable.pml4Phy := by
  obtain ⟨s₀, hinit⟩ := initBitmapPmm_isSome kernelImageMap_bootable (fun _ => 0#8)
  have hconcrete : ((initBitmapPmm kernelImageMap (fun _ => 0#8)).bind fun pages =>
      let r := vmMapCreate kernelHeaps.toKernelAlloc none ⟨fun _ _ => 0, bootHeap pages, []⟩
      r.1.map fun _ => (decide (FramesAvailable kernelHeaps.toKernelAlloc 5 r.2.alloc),
        decide (9 < pages.totalPages), pages.isClear 8, pages.isClear 9)) =
      some (true, true, false, false) := by decide +kernel
  rw [hinit, Option.bind_some] at hconcrete
  obtain ⟨space, hspace, hconcrete⟩ := Option.map_eq_some_iff.mp hconcrete
  simp only [Prod.mk.injEq, decide_eq_true_eq] at hconcrete
  obtain ⟨havail, htotal, hfirst, hsecond⟩ := hconcrete
  have hok := Pmm.Ok.of_init kernelImageMap_bootable hinit
  have hcode : codeFrames ⟨0x8000, 0xffffffff80000000⟩ 0xffffffff80000010 ⊆
      (bootHeap s₀).frames hhdmOffset := by
    rw [codeFrames_bootImage]
    rintro f (rfl | rfl)
    · exact bootHeap_frames (by decide) (by omega) hfirst
    · exact bootHeap_frames (by decide) htotal hsecond
  refine ⟨s₀, space, _, hinit, Prod.ext hspace rfl, ?_⟩
  exact (ktaskExecve_stacksPrivate_iff (s := ⟨fun _ _ => 0, bootHeap s₀, []⟩)
    (kernelHeap_lawful pmmSource_lawful directMap_hhdmOffset (by decide)) kernelHeaps_staysExhausted
    (bootHeap_ok hok) (by simp) (by decide) hcode (Prod.ext hspace rfl)).1.mpr (.inr havail)

/-- With four frames left the image of a second task gets frame 0 for both pages of its stack. -/
theorem ktaskExecve_stacks_shareFrameZero :
    ∃ s₀ kernel s space s' space' s'', initBitmapPmm kernelImageMap (fun _ => 0#8) = some s₀ ∧
      bootKernel s₀ = some (kernel, s) ∧ bootImage kernel s = some (space, s') ∧
      bootImage kernel ((fun s => (s.allocPage kernelHeaps.toKernelAlloc).2)^[9] s') =
        some (space', s'') ∧
      translate s''.mem space'.pageTable.pml4Phy 0x3000 = some ⟨0, ⟨true, true, false, false⟩⟩ ∧
      translate s''.mem space'.pageTable.pml4Phy 0x4000 = some ⟨0, ⟨true, true, false, false⟩⟩ ∧
      ¬ StacksPrivate (KernelHeap.frames hhdmOffset)
        ((fun s => (s.allocPage kernelHeaps.toKernelAlloc).2)^[9] s') s''
        space'.pageTable.pml4Phy := by
  obtain ⟨s₀, hinit⟩ := initBitmapPmm_isSome kernelImageMap_bootable (fun _ => 0#8)
  have hconcrete : ((initBitmapPmm kernelImageMap (fun _ => 0#8)).bind fun pages =>
      (bootKernel pages).bind fun r => (bootImage r.1 r.2).bind fun image =>
        (bootImage r.1 ((fun s => (s.allocPage kernelHeaps.toKernelAlloc).2)^[9] image.2)).map
          fun image' => (translate image'.2.mem image'.1.pageTable.pml4Phy 0x3000,
            translate image'.2.mem image'.1.pageTable.pml4Phy 0x4000)) =
      some (some ⟨0, ⟨true, true, false, false⟩⟩, some ⟨0, ⟨true, true, false, false⟩⟩) := by
    decide +kernel
  rw [hinit, Option.bind_some] at hconcrete
  obtain ⟨⟨kernel, s⟩, hkernel, hconcrete⟩ := Option.bind_eq_some_iff.mp hconcrete
  obtain ⟨⟨space, s'⟩, himage, hconcrete⟩ := Option.bind_eq_some_iff.mp hconcrete
  obtain ⟨⟨space', s''⟩, himage', hconcrete⟩ := Option.map_eq_some_iff.mp hconcrete
  obtain ⟨hlow, hhigh⟩ := Prod.mk.inj hconcrete
  refine ⟨s₀, kernel, s, space, s', space', s'', hinit, hkernel, himage, himage', hlow, hhigh, ?_⟩
  intro hprivate
  exact (hprivate.taken 0x3000 _ ⟨by decide, hlow, rfl, rfl⟩).1 rfl

end Flos.Mm
