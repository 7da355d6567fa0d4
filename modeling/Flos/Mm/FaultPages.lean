import Flos.Mm.DemandPaging
import Flos.Mm.UnmapPage
import Flos.Mm.VmMapSearch
import Flos.Mm.WalkOutcome

/-!
# What a page fault installs

A fault on an address of an area takes a frame for the page and then walks to its table, taking a frame
for every table that is missing. The walk fails if a huge page is in the way or the frames run out. It
tells its caller so, but `vm_fault_handler` does not look: the frame of the page is then neither mapped
nor given back.
-/

namespace Flos.Mm

open Flos.Lib

/-! ## The frame of the page -/

section Fault

variable {S : Type*} {A : KernelAlloc S} {Ok : S → Prop} {frames : S → Set ℕ} {root addr : ℕ}
  {s : Machine S}

/-- The state in which a fault maps its page: a new frame has been taken and cleared. -/
def takePage (A : KernelAlloc S) (s : Machine S) : Machine S :=
  (s.allocPage A).2.zeroFrame (s.allocPage A).1

/-- The frame of the page is new, so the page table does not see it. -/
structure PageTaken (frames : S → Set ℕ) (Ok : S → Prop) (root f : ℕ) (s s' : Machine S) : Prop where
  state : PtState Ok frames root s'
  fresh : f ∉ frames s.alloc
  apart : Apart frames root {f} s'.mem s'
  cleared : ∀ i, s'.mem f i = 0
  agree : ∀ q, q.length ≤ 4 → AgreeAlong tableEntry s.mem s'.mem root q
  dvd : 4096 ∣ f
  lt : f < 2 ^ 52

/-- Taking and clearing a frame. -/
theorem pageTaken (hA : A.LawfulPages Ok frames) (hs : PtState Ok frames root s)
    (hsome : (s.allocPage A).1 ≠ 0) :
    PageTaken frames Ok root (s.allocPage A).1 s (takePage A s) := by
  have hfresh := hA.allocPage_fresh _ hs.ok hsome
  have hframes := hA.allocPage_frames _ hs.ok hsome
  obtain ⟨hdvd, hlt⟩ := hA.allocPage_addr _ hs.ok
  have hext : Extends frames s (takePage A s) := by
    refine ⟨(Set.subset_insert _ _).trans hframes.ge, fun t ht => Function.update_of_ne ?_ _ _⟩
    rintro rfl
    exact hfresh ht
  obtain ⟨-, hagree⟩ := hs.table.congr hext.mem hext.kept
  have hheld : {(s.allocPage A).1} ⊆ frames (takePage A s).alloc :=
    (Set.singleton_subset_iff.mpr (Set.mem_insert _ _)).trans hframes.ge
  refine ⟨hs.of_extends (hA.allocPage_ok _ hs.ok) hext, hfresh, ⟨hheld, ?_, fun _ _ => rfl⟩,
    fun i => by simp [takePage, Machine.zeroFrame], hagree, hdvd, hlt⟩
  rintro f rfl q hq hpath
  rw [(hagree q (Nat.le_succ_of_le hq)).tableAt_eq] at hpath
  exact hfresh (hs.table.held q _ hq hpath)

/-- The page of an address is mapped behind the tables of the address. -/
theorem pmapMapPage_page (haddr : addr < wordSize) {phys : ℕ} (hdvd : 4096 ∣ phys) (hlt : phys < 2 ^ 52)
    (flags : ℕ) (s : Machine S) :
    pmapMapPage A root (alignDown addr pageSize) phys flags s =
      mapLeaf A root (tablePath addr) (ptIdx addr) (phys ||| parseCommonFlags flags) pageSize s := by
  have hdown : alignDown addr pageSize < wordSize := by
    rw [alignDown_page haddr]
    exact (Nat.div_mul_le_self _ _).trans_lt haddr
  have hidx : ∀ k, 12 ≤ k → tableIdx k (addr / 4096 * 4096) = tableIdx k addr := by
    intro k hk
    obtain ⟨j, rfl⟩ := Nat.exists_eq_add_of_le hk
    rw [tableIdx_eq_iff, pow_add, ← Nat.div_div_eq_div_mul, ← Nat.div_div_eq_div_mul,
      show 2 ^ 12 = 4096 from rfl, Nat.mul_div_cancel _ (by decide)]
  rw [pmapMapPage, map, alignDown_page hdown, alignDown_page haddr,
    Nat.mul_div_cancel _ (by decide : 0 < 4096), alignDown_page (hlt.trans (by decide)),
    Nat.div_mul_cancel hdvd]
  simp only [tablePath, pml4Idx, pdptIdx, pdIdx, ptIdx, hidx _ (show 12 ≤ 39 by decide),
    hidx _ (show 12 ≤ 30 by decide), hidx _ (show 12 ≤ 21 by decide), hidx _ (le_refl 12)]

/-- A fault on an address of an area, when the page of the address lies in one too: the outcome
depends on the frame for the page only. -/
theorem vmFaultHandler_of_page {space : VmMap} {errorCode : ℕ} {u v : VmArea}
    (hlookup : vmMapLookup space.areas addr = some u) (hpresent : errorCode &&& 1 <<< 0 = 0)
    (hpage : vmMapLookup space.areas (alignDown addr pageSize) = some v) :
    vmFaultHandler A space addr errorCode s =
      if (s.allocPage A).1 = 0 then (.segfault, (s.allocPage A).2)
      else (.handled, (pmapMapPage A space.pageTable.pml4Phy (alignDown addr pageSize)
        (s.allocPage A).1 v.flags (takePage A s)).2) := by
  simp only [vmFaultHandler, hlookup, hpresent, hpage, ne_eq, not_true, if_false]
  rfl

/-- The page is mapped exactly when the walk to its table succeeds. A page that is not mapped has no
table of the last level, and without a huge page an allocation has failed. -/
theorem PageTaken.maps_iff {f : ℕ} {z : Machine S} (hA : A.LawfulPages Ok frames)
    (h : PageTaken frames Ok root f s z) (haddr : addr < wordSize) (flags : ℕ) :
    let r := pmapMapPage A root (alignDown addr pageSize) f flags z
    (r.1 ≠ 0 ↔ hugeOnPath s.mem root (tablePath addr) = false ∧
      FramesAvailable A (missingTables s.mem root (tablePath addr)) z.alloc) ∧
    (r.1 = 0 → tableAt tableEntry r.2.mem root (tablePath addr) = none ∧
      (hugeOnPath s.mem root (tablePath addr) = false → Failed z r.2)) := by
  have hlen : (tablePath addr).length ≤ 3 := le_rfl
  obtain ⟨hmissing, hhuge⟩ := missingTables_congr (h.agree (tablePath addr) (Nat.le_succ_of_le hlen))
  have hwalk := descend_isSome_iff hA (tablePath addr) [] root z hlen h.state rfl
  rw [hmissing, hhuge, List.nil_append] at hwalk
  dsimp only
  rw [pmapMapPage_page haddr h.dvd h.lt, mapLeaf]
  rcases hr : descend A true root (tablePath addr) z with ⟨_ | t, z'⟩
  all_goals rw [hr] at hwalk
  · refine ⟨?_, fun _ => hwalk.2 rfl⟩
    rw [← hwalk.1]
    simp
  · refine ⟨?_, fun hzero => absurd hzero (show pageSize ≠ 0 by decide)⟩
    rw [← hwalk.1]
    simp [pageSize]

/-- What mapping the page leaves of the frame: it stays taken, cleared and no table. -/
theorem PageTaken.kept {f : ℕ} {z : Machine S} (hA : A.LawfulPages Ok frames)
    (h : PageTaken frames Ok root f s z) (virt phys flags : ℕ) :
    PtState Ok frames root (pmapMapPage A root virt phys flags z).2 ∧
      Apart frames root {f} z.mem (pmapMapPage A root virt phys flags z).2 :=
  (mapInvariant_apart hA root {f} z.mem).pmapMapPage virt phys flags ⟨h.state, h.apart⟩

/-- A present entry that ends a walk below the first level is a page. -/
theorem translate_isSome_of_leaf {mem : ℕ → Fin 512 → ℕ} {va u : ℕ} {q r : List (Fin 512)}
    {i : Fin 512} (hva : Canonical va) (hpath : pathOf va = q ++ i :: r)
    (hu : tableAt tableEntry mem root q = some u) (hbit : (mem u i).testBit 0 = true)
    (hnone : tableEntry (mem u i) = none) (hq : 1 ≤ q.length) : (translate mem root va).isSome := by
  have hwalk : walkEntries tableEntry mem root (pathOf va) =
      walkEntries tableEntry mem root q ++ [mem u i] := by
    rw [hpath, walkEntries_append_of_some hu, walkEntries_cons_none hnone]
  have hlen := congrArg List.length hpath
  simp only [pathOf_length, List.length_append, List.length_cons] at hlen
  rw [translate, if_pos hva, hwalk, decodeWalk, List.getLast?_concat]
  simp only [hbit, if_true, List.length_append, List.length_singleton, walkEntries_length_of_some hu]
  obtain h | h | h : q.length = 1 ∨ q.length = 2 ∨ q.length = 3 := by omega
  all_goals
    rw [h]
    rfl

/-- No huge page is on the way to an address without a translation. -/
theorem hugeOnPath_of_untranslated {mem : ℕ → Fin 512 → ℕ} (haddr : Canonical addr)
    (hroot : ∀ i, (mem root i).testBit 0 = true → (mem root i).testBit 7 = false)
    (hnone : translate mem root addr = none) : hugeOnPath mem root (tablePath addr) = false := by
  by_contra hhuge
  obtain ⟨q, i, r, u, hpath, hu, hbit, hleaf⟩ := exists_of_hugeOnPath (Bool.not_eq_false _ ▸ hhuge)
  by_cases hq : q = []
  · subst hq
    obtain rfl := Option.some.inj hu
    rw [tableEntry_eq_some.mpr ⟨hbit, hroot i hbit, rfl⟩] at hleaf
    cases hleaf
  · have hfull : pathOf addr = q ++ i :: (r ++ [ptIdx addr]) := by
      rw [← List.cons_append, ← List.append_assoc, ← hpath]
      rfl
    have hsome := translate_isSome_of_leaf haddr hfull hu hbit hleaf (List.length_pos_iff.mpr hq)
    rw [hnone] at hsome
    cases hsome

/-! ## Faults that are resolved -/

/-- A not-present fault is resolved exactly. In an address space with sorted disjoint areas of whole
pages below `2 ^ 47` and a well-formed page table without pages in its first level, at an address
without a translation, when no allocation fails: if the address lies in an area, its page is
translated to one frame that was not in use and is now cleared, with the permissions of the area, and
no other translation changes; if it lies in no area, nothing changes at all, and the fault ends the
task for a user access and halts otherwise. The list of areas is no result of the handler. -/
theorem vmFaultHandler_exact (hA : A.LawfulPages Ok frames) {space : VmMap} {errorCode : ℕ}
    (hchain : AreasChain space.areas) (haligned : ∀ v ∈ space.areas, v.Aligned)
    (hs : PtState Ok frames space.pageTable.pml4Phy s)
    (hroot : ∀ i, (s.mem space.pageTable.pml4Phy i).testBit 0 = true →
      (s.mem space.pageTable.pml4Phy i).testBit 7 = false)
    (hnone : translate s.mem space.pageTable.pml4Phy addr = none)
    (hpresent : errorCode &&& 1 <<< 0 = 0)
    (hsucc : ¬ Failed s (vmFaultHandler A space addr errorCode s).2) :
    (∀ v ∈ space.areas, v.start ≤ addr → addr < v.endAddr →
      ∃ s' f, vmFaultHandler A space addr errorCode s = (.handled, s') ∧
        f ∉ frames s.alloc ∧ f ∈ frames s'.alloc ∧ (∀ i, s'.mem f i = 0) ∧
        ∀ x, translate s'.mem space.pageTable.pml4Phy x =
          if x / 4096 = addr / 4096 then some ⟨f + x % 4096, flagsAccess v.flags⟩
          else translate s.mem space.pageTable.pml4Phy x) ∧
    ((∀ v ∈ space.areas, ¬ (v.start ≤ addr ∧ addr < v.endAddr)) →
      vmFaultHandler A space addr errorCode s = (.segfault, s) ∧
      ∀ frame : Interrupts.InterruptFrame, frame.errorCode % 2 ^ 32 = errorCode →
        pfInterruptHandler A space addr frame s =
          (if errorCode &&& 1 <<< 2 = 0 then .halts else .taskExits, s)) := by
  refine ⟨fun v hv hlo hhi => ?_, fun hout => ?_⟩
  · obtain ⟨hstart, hend, hmax⟩ := haligned v hv
    have haddr : addr < 2 ^ 47 := hhi.trans_le hmax
    have hword : addr < wordSize := haddr.trans (by decide)
    have hdown := alignDown_page hword
    have hlookup : vmMapLookup space.areas addr = some v :=
      (find?_span hchain.disjoint addr v).mpr ⟨hv, hlo, hhi⟩
    have hpage : vmMapLookup space.areas (alignDown addr pageSize) = some v :=
      (find?_span hchain.disjoint _ v).mpr ⟨hv, by omega, by omega⟩
    rw [vmFaultHandler_of_page hlookup hpresent hpage] at hsucc ⊢
    by_cases hframe : (s.allocPage A).1 = 0
    · rw [if_pos hframe] at hsucc
      exact absurd (.of_log rfl (not_not.mpr hframe)) hsucc
    rw [if_neg hframe] at hsucc ⊢
    have htaken := pageTaken hA hs hframe
    obtain ⟨hs', happart⟩ := htaken.kept hA (alignDown addr pageSize) (s.allocPage A).1 v.flags
    obtain ⟨-, hfail⟩ := htaken.maps_iff hA hword v.flags
    have hmapped : (pmapMapPage A space.pageTable.pml4Phy (alignDown addr pageSize) (s.allocPage A).1
        v.flags (takePage A s)).1 ≠ 0 := by
      intro hzero
      have hfailed := (hfail hzero).2 (hugeOnPath_of_untranslated (.inl haddr) hroot hnone)
      exact hsucc (hfailed.extend (List.prefix_append _ _) List.prefix_rfl)
    refine ⟨_, (s.allocPage A).1, rfl, htaken.fresh, happart.held rfl, fun i => ?_, fun x => ?_⟩
    · rw [happart.same _ rfl, htaken.cleared]
    · obtain ⟨-, -, htrans⟩ := pmapMapPage_smallLeaf A hA htaken.state
        (.inl (by omega) : Canonical (alignDown addr pageSize)) v.flags htaken.dvd htaken.lt hmapped
      have hsame := translate_congr (htaken.agree (pathOf x) (pathOf_length x).le).walkEntries_eq
      rw [htrans x, hsame, hdown, Nat.mul_div_cancel _ (by decide)]
  · have hlookup : vmMapLookup space.areas addr = none := by
      refine List.find?_eq_none.mpr fun v hv => ?_
      simpa using fun hlo => hout v hv |>.imp fun hhi => ⟨hlo, hhi⟩
    have hfault : vmFaultHandler A space addr errorCode s = (.segfault, s) := by
      rw [vmFaultHandler, hlookup]
    refine ⟨hfault, fun frame hframe => ?_⟩
    rw [pfInterruptHandler, hframe, hfault]

/-! ## Faults that leak -/

/-- The page of the address has been mapped to a frame that was taken, or every frame that was taken is
a table of the page table or free again. -/
def LeaksNothing (frames : S → Set ℕ) (root addr : ℕ) (s s' : Machine S) : Prop :=
  (∃ f ∈ framesTaken s s', smallFrame s'.mem root addr = some f) ∨
    ∀ f ∈ framesTaken s s', (∃ q, InTables q ∧ tableAt tableEntry s'.mem root q = some f) ∨
      f ∉ frames s'.alloc

/-- A fault that takes no frame leaks none. -/
theorem leaksNothing_of_log {s' : Machine S} (h : ∀ f, .allocFrame f ∈ s'.log.drop s.log.length → f = 0) :
    LeaksNothing frames root addr s s' :=
  .inr fun f hf => absurd (h f hf.2) hf.1

/-- The frame of the page has been taken. -/
theorem mem_framesTaken (hsome : (s.allocPage A).1 ≠ 0) (virt phys flags : ℕ) :
    (s.allocPage A).1 ∈
      framesTaken s (pmapMapPage A root virt phys flags (takePage A s)).2 := by
  refine ⟨hsome, ?_⟩
  have hlog : (takePage A s).log <+: (pmapMapPage A root virt phys flags (takePage A s)).2.log :=
    (callInvariant_log A (takePage A s).log).pmapMapPage _ _ _ _ List.prefix_rfl
  refine (hlog.drop s.log.length).subset ?_
  change _ ∈ (s.log ++ [MemEvent.allocFrame (s.allocPage A).1]).drop s.log.length
  rw [List.drop_left]
  exact List.mem_cons_self

/-- The fault on an address with an area leaks nothing exactly when its page is mapped. -/
theorem leaksNothing_mapPage_iff (hA : A.LawfulPages Ok frames) (hs : PtState Ok frames root s)
    (haddr : addr < wordSize) (hsome : (s.allocPage A).1 ≠ 0) (flags : ℕ) :
    LeaksNothing frames root addr s
        (pmapMapPage A root (alignDown addr pageSize) (s.allocPage A).1 flags (takePage A s)).2 ↔
      hugeOnPath s.mem root (tablePath addr) = false ∧
        FramesAvailable A (missingTables s.mem root (tablePath addr) + 1) s.alloc := by
  have htaken := pageTaken hA hs hsome
  have hmem := @mem_framesTaken _ A root s hsome (alignDown addr pageSize) (s.allocPage A).1 flags
  obtain ⟨hmaps, hblocked⟩ := htaken.maps_iff hA haddr flags
  have havail : FramesAvailable A (missingTables s.mem root (tablePath addr) + 1) s.alloc ↔
      FramesAvailable A (missingTables s.mem root (tablePath addr)) (takePage A s).alloc :=
    and_iff_right hsome
  rw [havail, ← hmaps]
  constructor
  · intro hleaks hzero
    obtain ⟨hnone, -⟩ := hblocked hzero
    obtain ⟨-, happart⟩ := htaken.kept hA (alignDown addr pageSize) (s.allocPage A).1 flags
    -- the frame of the page is taken, and neither mapped nor a table nor free
    rcases hleaks with ⟨f, -, hframe⟩ | hall
    · rw [smallFrame, hnone] at hframe
      cases hframe
    · rcases hall _ hmem with ⟨q, hq, hpath⟩ | hfree
      · exact happart.unreached _ rfl q hq hpath
      · exact hfree (happart.held rfl)
  · intro hmapped
    refine .inl ⟨_, hmem, ?_⟩
    rw [pmapMapPage_page haddr htaken.dvd htaken.lt] at hmapped ⊢
    obtain ⟨t, ht, hentry⟩ := mapLeaf_reaches A hA htaken.state le_rfl hmapped
    have hleaf := leafEntry_small flags htaken.dvd htaken.lt
    rw [smallFrame, ht, Option.bind_some, hentry, hleaf.present, hleaf.addr, if_pos rfl]

/-- A page fault leaks no frame exactly when it takes none, because there is no area for the address or
its page, the page is present, or no frame is left; or when no huge page is in the way and there is a
frame for the page and one for each table that is missing. -/
theorem vmFaultHandler_leaksNothing_iff (hA : A.LawfulPages Ok frames) {space : VmMap}
    {errorCode : ℕ} (hs : PtState Ok frames space.pageTable.pml4Phy s) (haddr : addr < wordSize) :
    LeaksNothing frames space.pageTable.pml4Phy addr s (vmFaultHandler A space addr errorCode s).2 ↔
      vmMapLookup space.areas addr = none ∨ errorCode &&& 1 <<< 0 ≠ 0 ∨
        vmMapLookup space.areas (alignDown addr pageSize) = none ∨ (A.allocPage s.alloc).1 = 0 ∨
        hugeOnPath s.mem space.pageTable.pml4Phy (tablePath addr) = false ∧
          FramesAvailable A (missingTables s.mem space.pageTable.pml4Phy (tablePath addr) + 1) s.alloc := by
  have hnothing : LeaksNothing frames space.pageTable.pml4Phy addr s s :=
    leaksNothing_of_log fun f hf => by simp at hf
  cases hlookup : vmMapLookup space.areas addr with
  | none =>
    rw [vmFaultHandler, hlookup]
    exact iff_of_true hnothing (.inl rfl)
  | some u =>
    by_cases hpresent : errorCode &&& 1 <<< 0 = 0
    case neg =>
      simp only [vmFaultHandler, hlookup]
      rw [if_pos hpresent]
      exact iff_of_true hnothing (.inr (.inl hpresent))
    cases hpage : vmMapLookup space.areas (alignDown addr pageSize) with
    | none =>
      simp only [vmFaultHandler, hlookup, hpage]
      rw [if_neg (not_not.mpr hpresent)]
      exact iff_of_true hnothing (.inr (.inr (.inl trivial)))
    | some v =>
      rw [vmFaultHandler_of_page hlookup hpresent hpage]
      by_cases hframe : (s.allocPage A).1 = 0
      · rw [if_pos hframe]
        refine iff_of_true (leaksNothing_of_log fun f hf => ?_) (.inr (.inr (.inr (.inl hframe))))
        change _ ∈ (s.log ++ [MemEvent.allocFrame (s.allocPage A).1]).drop s.log.length at hf
        rw [List.drop_left, List.mem_singleton, hframe] at hf
        exact MemEvent.allocFrame.inj hf
      · rw [if_neg hframe, leaksNothing_mapPage_iff hA hs haddr hframe]
        rw [or_iff_right (by simp), or_iff_right (not_not.mpr hpresent), or_iff_right (by simp),
          or_iff_right (show ¬ (A.allocPage s.alloc).1 = 0 from hframe)]

end Fault

/-! ## On a small machine -/

/-- The frames in use in the frame manager, those of the slabs included. -/
def framesInUse (s : KernelMem Pmm) : Set ℕ := Pmm.inUse s.heap.pages

/-- Frame allocation takes frames that were free in the frame manager. -/
theorem kernelAllocators_lawfulPages :
    kernelAllocators.LawfulPages (KernelMem.Ok Pmm.Ok Pmm.inUse hhdmOffset) framesInUse where
  allocPage_ok := kernelAllocators_lawful.allocPage_ok
  allocPage_fail _ h hfail := pmmSource_lawful.allocPage_fail _ h.pagesOk hfail
  allocPage_fresh _ h hsome := pmmSource_lawful.allocPage_fresh _ h.pagesOk hsome
  allocPage_frames _ h hsome := pmmSource_lawful.allocPage_inUse _ h.pagesOk hsome
  allocPage_addr := kernelAllocators_lawful.allocPage_addr

/-- A new address space with one area of one page; `taken` frames have been allocated since. -/
def onePageArea (taken : ℕ) (pages : Pmm) : Option (VmMap × Machine (KernelMem Pmm)) :=
  let r := vmMapCreate kernelAllocators none (bootMachine pages)
  r.1.map fun space =>
    let r := vmMapAllocate kernelAllocators space 4096 (mmuFlagWrite ||| mmuFlagUser) r.2
    (r.2.1, (fun s => (s.allocPage kernelAllocators).2)^[taken] r.2.2)

/-- A well-formed page table without entries. -/
def EmptyTable (root : ℕ) (s : Machine (KernelMem Pmm)) : Prop :=
  PtState (KernelMem.Ok Pmm.Ok Pmm.inUse hhdmOffset) framesInUse root s ∧ ∀ i, s.mem root i = 0

/-- Its page table is well formed and empty. -/
theorem onePageArea_emptyTable {taken : ℕ} {pages : Pmm} (hpages : pages.Ok) {space : VmMap}
    {s : Machine (KernelMem Pmm)} (h : onePageArea taken pages = some (space, s)) :
    EmptyTable space.pageTable.pml4Phy s := by
  have hA := kernelAllocators_lawful
  obtain ⟨space₀, hcreate, heq⟩ := Option.map_eq_some_iff.mp h
  obtain ⟨hok, -, hnew⟩ := @vmMapCreate_spec _ kernelAllocators _ _ _ hA none (bootMachine pages)
    (show (bootMachine pages).alloc.Ok _ _ _ from bootMem_ok hpages) (by simp)
  obtain ⟨-, hheld, hrow⟩ := hnew space₀ hcreate
  obtain ⟨htable, hmachine⟩ := vmMapAllocate_machine kernelAllocators space₀
    (mmuFlagWrite ||| mmuFlagUser) (vmMapCreate kernelAllocators none (bootMachine pages)).2 4096
  obtain ⟨rfl, rfl⟩ := Prod.mk.inj heq
  rw [htable]
  have hempty : ∀ i, (vmMapCreate kernelAllocators none (bootMachine pages)).2.mem
      space₀.pageTable.pml4Phy i = 0 := by
    intro i
    rw [hrow, sharedEntry]
    split <;> rfl
  refine Function.Iterate.rec (EmptyTable space₀.pageTable.pml4Phy) ?_
    (fun s hs => ⟨hs.1.allocPage kernelAllocators_lawfulPages, hs.2⟩) taken
  rcases hmachine with hr | hr
  all_goals rw [hr]
  · exact ⟨⟨hok, .of_empty hempty hheld.1⟩, hempty⟩
  · refine ⟨⟨hA.cacheAlloc_ok _ _ hok, .of_empty hempty ?_⟩, hempty⟩
    exact ((hA.cacheAlloc_frames _ .vmAreaCache hok).ge hheld).1

/-- The address space on the small machine, with what has been computed of it. -/
theorem onePageArea_area (taken : ℕ) (check : VmMap → Machine (KernelMem Pmm) → Bool)
    (hrun : ((initBitmapPmm sixteenFrameMap (fun _ => 0#8)).bind fun pages =>
      (onePageArea taken pages).map fun (r : VmMap × Machine (KernelMem Pmm)) =>
        (r.1.areas.map fun v => (v.start, v.endAddr, v.flags), check r.1 r.2)) =
      some ([(0x1000, 0x2000, mmuFlagWrite ||| mmuFlagUser)], true)) :
    ∃ s₀ space s area, initBitmapPmm sixteenFrameMap (fun _ => 0#8) = some s₀ ∧
      onePageArea taken s₀ = some (space, s) ∧ space.areas = [area] ∧
      area.start = 0x1000 ∧ area.endAddr = 0x2000 ∧ area.flags = mmuFlagWrite ||| mmuFlagUser ∧
      EmptyTable space.pageTable.pml4Phy s ∧ check space s = true := by
  obtain ⟨s₀, hinit⟩ := initBitmapPmm_isSome sixteenFrameMap_bootable (fun _ => 0#8)
  rw [hinit, Option.bind_some] at hrun
  obtain ⟨⟨space, s⟩, hs, hrun⟩ := Option.map_eq_some_iff.mp hrun
  obtain ⟨hareas, hcheck⟩ := Prod.mk.inj hrun
  obtain ⟨area, harea, hrange⟩ := List.map_eq_singleton_iff.mp hareas
  obtain ⟨hstart, hrange⟩ := Prod.mk.inj hrange
  obtain ⟨hend, hflags⟩ := Prod.mk.inj hrange
  exact ⟨s₀, space, s, area, hinit, hs, harea, hstart, hend, hflags,
    onePageArea_emptyTable (Pmm.Ok.of_init sixteenFrameMap_bootable hinit) hs, hcheck⟩

/-- On a map with sixteen USABLE frames a fault in the area of a new address space is resolved. -/
theorem vmFaultHandler_exact_sixteenFrameMap :
    ∃ s₀ space s, initBitmapPmm sixteenFrameMap (fun _ => 0#8) = some s₀ ∧
      onePageArea 0 s₀ = some (space, s) ∧
      ∃ s' f, vmFaultHandler kernelAllocators space 0x1008 4 s = (.handled, s') ∧
        f ∉ framesInUse s.alloc ∧ (∀ i, s'.mem f i = 0) ∧
        translate s'.mem space.pageTable.pml4Phy 0x1008 =
          some ⟨f + 8, flagsAccess (mmuFlagWrite ||| mmuFlagUser)⟩ := by
  obtain ⟨s₀, space, s, area, hinit, hs, hareas, hstart, hend, hflags, ⟨hstate, hempty⟩, hcheck⟩ :=
    onePageArea_area 0 (fun space s => decide (∀ e ∈
      (vmFaultHandler kernelAllocators space 0x1008 4 s).2.log.drop s.log.length, e.Succeeds))
      (by decide +kernel)
  have hchain : AreasChain space.areas := by
    rw [hareas]
    exact ⟨by simp [hstart, hend], List.pairwise_singleton _ _⟩
  have haligned : ∀ v ∈ space.areas, v.Aligned := by
    intro v hv
    obtain rfl := List.mem_singleton.mp (hareas ▸ hv)
    exact ⟨by rw [hstart], by rw [hend]; decide, by rw [hend]; decide⟩
  have hnone : translate s.mem space.pageTable.pml4Phy 0x1008 = none := by
    rw [translate, if_pos (by decide), pathOf, walkEntries_cons_none (by rw [hempty, tableEntry_zero]),
      hempty]
    rfl
  have hsucc : ¬ Failed s (vmFaultHandler kernelAllocators space 0x1008 4 s).2 := by
    rintro ⟨e, he, hfail⟩
    exact hfail (of_decide_eq_true hcheck e he)
  obtain ⟨hin, -⟩ := vmFaultHandler_exact kernelAllocators_lawfulPages hchain haligned hstate
    (fun i h => by rw [hempty] at h; cases h) hnone (by decide) hsucc
  obtain ⟨s', f, hr, hfresh, -, hcleared, htrans⟩ := hin area (by rw [hareas]; exact List.mem_cons_self)
    (by rw [hstart]; decide) (by rw [hend]; decide)
  refine ⟨s₀, space, s, hinit, hs, s', f, hr, hfresh, hcleared, ?_⟩
  rw [htrans, if_pos rfl, hflags]

/-- A lookup in the area of the small machine. -/
theorem vmMapLookup_onePage {areas : List VmArea} {area : VmArea} (hareas : areas = [area])
    (hstart : area.start = 0x1000) (hend : area.endAddr = 0x2000) {addr : ℕ}
    (haddr : 0x1000 ≤ addr ∧ addr < 0x2000) : vmMapLookup areas addr = some area := by
  rw [hareas, vmMapLookup, List.find?_singleton, hstart, hend]
  simp [haddr]

/-- An empty page table misses all three tables on a path. -/
theorem missingTables_emptyTable {root : ℕ} {s : Machine (KernelMem Pmm)} (h : EmptyTable root s)
    (addr : ℕ) : missingTables s.mem root (tablePath addr) = 3 ∧
      hugeOnPath s.mem root (tablePath addr) = false :=
  missingTables_of_empty h.2 _

/-- With all frames left the fault leaks nothing. -/
theorem vmFaultHandler_leaksNothing_sixteenFrameMap :
    ∃ s₀ space s, initBitmapPmm sixteenFrameMap (fun _ => 0#8) = some s₀ ∧
      onePageArea 0 s₀ = some (space, s) ∧
      LeaksNothing framesInUse space.pageTable.pml4Phy 0x1008 s
        (vmFaultHandler kernelAllocators space 0x1008 4 s).2 := by
  obtain ⟨s₀, space, s, -, hinit, hs, -, -, -, -, hempty, hcheck⟩ :=
    onePageArea_area 0 (fun _ s => decide (FramesAvailable kernelAllocators 4 s.alloc))
      (by decide +kernel)
  obtain ⟨hmissing, hhuge⟩ := missingTables_emptyTable hempty 0x1008
  refine ⟨s₀, space, s, hinit, hs, (vmFaultHandler_leaksNothing_iff kernelAllocators_lawfulPages
    hempty.1 (by decide)).mpr (.inr (.inr (.inr (.inr ⟨hhuge, ?_⟩))))⟩
  rw [hmissing]
  exact of_decide_eq_true hcheck

/-- When a single frame is left, a fault in the area takes it for the page, and the walk finds none for
the first table: the frame is lost. -/
theorem vmFaultHandler_leaks :
    ∃ s₀ space s, initBitmapPmm sixteenFrameMap (fun _ => 0#8) = some s₀ ∧
      onePageArea 10 s₀ = some (space, s) ∧
      ¬ LeaksNothing framesInUse space.pageTable.pml4Phy 0x1008 s
        (vmFaultHandler kernelAllocators space 0x1008 4 s).2 := by
  obtain ⟨s₀, space, s, area, hinit, hs, hareas, hstart, hend, -, hempty, hcheck⟩ :=
    onePageArea_area 10 (fun _ s => decide (FramesAvailable kernelAllocators 1 s.alloc ∧
      ¬ FramesAvailable kernelAllocators 2 s.alloc)) (by decide +kernel)
  obtain ⟨hone, htwo⟩ := of_decide_eq_true hcheck
  have hone' : (s.allocPage kernelAllocators).1 ≠ 0 := hone.1
  obtain ⟨hmissing, -⟩ := missingTables_emptyTable hempty 0x1008
  refine ⟨s₀, space, s, hinit, hs, ?_⟩
  rw [vmFaultHandler_of_page (vmMapLookup_onePage hareas hstart hend (by decide)) (by decide)
    (vmMapLookup_onePage hareas hstart hend (by decide)), if_neg hone',
    leaksNothing_mapPage_iff kernelAllocators_lawfulPages hempty.1 (by decide) hone', hmissing]
  rintro ⟨-, hfirst, hsecond, -⟩
  exact htwo ⟨hfirst, hsecond, trivial⟩

end Flos.Mm
