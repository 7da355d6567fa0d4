import Flos.Mm.MapInvariants

/-!
# The kernel's page table

Creating an address space takes a frame for its PML4 that was not in use, copies the upper half of
the kernel's PML4 into it and changes no frame in use. The mapping routines keep a page table well
formed whatever they map, so the kernel's own page table is well formed from `init_pmap` on.
-/

namespace Flos.Mm

open Flos.Lib

variable {S : Type*} {A : KernelAlloc S} {Ok : S → Prop} {frames : S → Set ℕ}
  {objects : CacheName → S → Set ℕ}

/-! ## Creating an address space -/

/-- The slot of a new PML4: in the upper half that of the kernel's, if there is one. -/
def sharedEntry (kernel : Option PageTable) (mem : ℕ → Fin 512 → ℕ) (i : Fin 512) : ℕ :=
  if 256 ≤ i.val then kernel.elim 0 fun k => mem k.pml4Phy i else 0

/-- A new PML4 behind the copy of the kernel's upper half. -/
theorem pmapCopyKernelMappings_row {kernel : Option PageTable} {table : ℕ} {s : Machine S}
    {mem : ℕ → Fin 512 → ℕ} (hkernel : ∀ k ∈ kernel, s.mem k.pml4Phy = mem k.pml4Phy)
    (hrow : ∀ i, s.mem table i = 0 ∨ s.mem table i = sharedEntry kernel mem i) :
    ∃ mem', pmapCopyKernelMappings kernel table s = ⟨mem', s.alloc, s.log⟩ ∧
      (∀ g, g ≠ table → mem' g = s.mem g) ∧ mem' table = sharedEntry kernel mem := by
  have hlow : ∀ i : Fin 512, ¬ 256 ≤ i.val → s.mem table i = sharedEntry kernel mem i := by
    intro i hi
    rcases hrow i with h | h
    · rw [h, sharedEntry, if_neg hi]
    · exact h
  cases kernel with
  | none =>
    refine ⟨s.mem, rfl, fun _ _ => rfl, funext fun i => ?_⟩
    rcases hrow i with h | h
    · rw [h]
      simp [sharedEntry]
    · exact h
  | some k =>
    refine ⟨_, rfl, fun g hg => Function.update_of_ne hg _ _, funext fun i => ?_⟩
    rw [Function.update_self]
    split
    next hi =>
      rw [hkernel k rfl, sharedEntry, if_pos hi]
      rfl
    next hi => exact hlow i hi

/-- Frames stay in use and their contents stay. -/
structure Extends (frames : S → Set ℕ) (s s' : Machine S) : Prop where
  kept : frames s.alloc ⊆ frames s'.alloc
  mem : ∀ t ∈ frames s.alloc, s'.mem t = s.mem t

/-- A new PML4: a frame that was not in use, with the kernel's upper half and nothing below. -/
structure NewTable (frames : S → Set ℕ) (kernel : Option PageTable) (s s' : Machine S) (root : ℕ) :
    Prop where
  fresh : root ∉ frames s.alloc
  held : root ∈ frames s'.alloc
  row : s'.mem root = sharedEntry kernel s.mem

section Create

variable (hA : A.Lawful Ok frames objects) {kernel : Option PageTable} {s : Machine S}

include hA

/-- Creating a page table takes a new frame, or nothing, and changes no frame in use. -/
theorem pmapCreateTable_spec (hok : Ok s.alloc) (hkernel : ∀ k ∈ kernel, k.pml4Phy ∈ frames s.alloc) :
    Ok (pmapCreateTable A kernel s).2.alloc ∧ Extends frames s (pmapCreateTable A kernel s).2 ∧
      objects .vmMapCache (pmapCreateTable A kernel s).2.alloc = objects .vmMapCache s.alloc ∧
      ∀ table, (pmapCreateTable A kernel s).1 = some table →
        NewTable frames kernel s (pmapCreateTable A kernel s).2 table.pml4Phy := by
  have hpage := hA.allocPage_ok _ hok
  by_cases hframe : (s.allocPage A).1 = 0
  · have hsame := hA.allocPage_fail _ hok hframe
    have hr : pmapCreateTable A kernel s = (none, (s.allocPage A).2) := by
      rw [pmapCreateTable, if_pos hframe]
    rw [hr]
    exact ⟨hpage, ⟨hsame.ge, fun _ _ => rfl⟩, hA.allocPage_objects _ _ hok, by simp⟩
  have hfresh : (s.allocPage A).1 ∉ frames s.alloc := hA.allocPage_fresh _ hok hframe
  have hframes : frames (s.allocPage A).2.alloc = insert (s.allocPage A).1 (frames s.alloc) :=
    hA.allocPage_frames _ hok hframe
  have hne : ∀ t ∈ frames s.alloc, t ≠ (s.allocPage A).1 := by
    rintro t ht rfl
    exact hfresh ht
  obtain ⟨mem, hcopy, hother, hrow⟩ := @pmapCopyKernelMappings_row _ kernel (s.allocPage A).1
    ((s.allocPage A).2.zeroFrame (s.allocPage A).1) s.mem
    (fun k hk => Function.update_of_ne (hne _ (hkernel k hk)) _ _)
    (fun i => .inl (by simp [Machine.zeroFrame]))
  have hmem : ∀ t ∈ frames s.alloc, mem t = s.mem t := by
    intro t ht
    rw [hother t (hne t ht)]
    exact Function.update_of_ne (hne t ht) _ _
  set s₁ : Machine S := ⟨mem, (s.allocPage A).2.alloc, (s.allocPage A).2.log⟩ with hs₁
  have hobject : Ok (s₁.cacheAlloc A .pageTableCache).2.alloc := hA.cacheAlloc_ok _ _ hpage
  have hheld : frames (s₁.cacheAlloc A .pageTableCache).2.alloc =
      insert (s.allocPage A).1 (frames s.alloc) :=
    (hA.cacheAlloc_frames _ _ hpage).trans hframes
  have hobjects : objects .vmMapCache (s₁.cacheAlloc A .pageTableCache).2.alloc =
      objects .vmMapCache s.alloc :=
    (hA.cacheAlloc_other _ .pageTableCache .vmMapCache hpage (by decide)).trans
      (hA.allocPage_objects _ _ hok)
  have hr : pmapCreateTable A kernel s =
      if (s₁.cacheAlloc A .pageTableCache).1 = 0 then
        (none, (s₁.cacheAlloc A .pageTableCache).2.freePage A (s.allocPage A).1)
      else (some ⟨(s₁.cacheAlloc A .pageTableCache).1, (s.allocPage A).1⟩,
        (s₁.cacheAlloc A .pageTableCache).2) := by
    simp only [pmapCreateTable, hcopy, if_neg hframe]
    rfl
  have hnew : (s.allocPage A).1 ∈ frames (s₁.cacheAlloc A .pageTableCache).2.alloc :=
    hheld ▸ Set.mem_insert _ _
  rw [hr]
  split
  next hfail =>
    refine ⟨hA.freePage_ok _ _ hobject hnew, ⟨fun t ht => ?_, hmem⟩,
      (hA.freePage_objects _ _ _ hobject hnew).trans hobjects, by simp⟩
    have hfreed := hA.freePage_frames _ _ hobject hnew
    rw [hheld] at hfreed
    exact hfreed.ge ⟨Set.mem_insert_of_mem _ ht, hne t ht⟩
  next hsome =>
    refine ⟨hobject, ⟨hheld ▸ Set.subset_insert _ _, hmem⟩, hobjects, ?_⟩
    rintro _ ⟨⟩
    exact ⟨hfresh, hnew, hrow⟩

/-- Creating an address space takes a new frame for its PML4, or nothing, and changes no frame in
use. -/
theorem vmMapCreate_spec (hok : Ok s.alloc) (hkernel : ∀ k ∈ kernel, k.pml4Phy ∈ frames s.alloc) :
    Ok (vmMapCreate A kernel s).2.alloc ∧ Extends frames s (vmMapCreate A kernel s).2 ∧
      ∀ space, (vmMapCreate A kernel s).1 = some space →
        NewTable frames kernel s (vmMapCreate A kernel s).2 space.pageTable.pml4Phy := by
  have hrecord := hA.cacheAlloc_ok _ .vmMapCache hok
  have hframes : frames (s.cacheAlloc A .vmMapCache).2.alloc = frames s.alloc :=
    hA.cacheAlloc_frames _ .vmMapCache hok
  rw [vmMapCreate]
  split
  next => exact ⟨hrecord, ⟨hframes.ge, fun _ _ => rfl⟩, by simp⟩
  next hne =>
    have hkernel' : ∀ k ∈ kernel, k.pml4Phy ∈ frames (s.cacheAlloc A .vmMapCache).2.alloc := by
      rwa [hframes]
    obtain ⟨htableOk, hext, hobjects, hnew⟩ := pmapCreateTable_spec hA hrecord hkernel'
    have hlive : (s.cacheAlloc A .vmMapCache).1 ∈
        objects .vmMapCache (pmapCreateTable A kernel (s.cacheAlloc A .vmMapCache).2).2.alloc := by
      rw [hobjects]
      exact (hA.cacheAlloc_objects _ _ hok hne).symm ▸ Set.mem_insert _ _
    rcases hr : pmapCreateTable A kernel (s.cacheAlloc A .vmMapCache).2 with ⟨_ | table, s₁⟩
    all_goals
      rw [hr] at htableOk hext hlive hnew
      dsimp only
    · refine ⟨hA.cacheFree_ok _ _ _ htableOk hlive, ⟨?_, fun t ht => ?_⟩, by simp⟩
      · change frames s.alloc ⊆ frames (A.cacheFree _ _ _)
        rw [hA.cacheFree_frames _ _ _ htableOk hlive, ← hframes]
        exact hext.kept
      · exact hext.mem t (hframes.symm ▸ ht)
    · obtain ⟨hfresh, hheld, hrow⟩ := hnew table rfl
      rw [hframes] at hfresh
      have hkept : ∀ t ∈ frames s.alloc, s₁.mem t = s.mem t := fun t ht =>
        hext.mem t (hframes.symm ▸ ht)
      obtain ⟨mem, hcopy, hother, hrow'⟩ := @pmapCopyKernelMappings_row _ kernel table.pml4Phy s₁
        s.mem (fun k hk => hkept _ (hkernel k hk)) (fun i => .inr (by rw [hrow]; rfl))
      rw [hcopy]
      refine ⟨htableOk, ⟨hframes.symm ▸ hext.kept, fun t ht => ?_⟩, ?_⟩
      · exact (hother t (by rintro rfl; exact hfresh ht)).trans (hkept t ht)
      · rintro _ ⟨⟩
        exact ⟨hfresh, hheld, hrow'⟩

/-- An address space that was created before the kernel's has an empty page table. -/
theorem vmMapCreate_none_empty {s s' : Machine S} {space : VmMap} (hok : Ok s.alloc)
    (hcreate : vmMapCreate A none s = (some space, s')) : PtState Ok frames space.pageTable.pml4Phy s' ∧
    ∀ i, s'.mem space.pageTable.pml4Phy i = 0 := by
  obtain ⟨hok', -, hnew⟩ := @vmMapCreate_spec _ A _ _ _ hA none s hok (by simp)
  rw [hcreate] at hok' hnew
  obtain ⟨-, hheld, hrow⟩ := hnew space rfl
  have hempty : ∀ i, s'.mem space.pageTable.pml4Phy i = 0 := by
    intro i
    rw [hrow, sharedEntry]
    split <;> rfl
  exact ⟨⟨hok', .of_empty hempty hheld⟩, hempty⟩

end Create

/-! ## Well-formed page tables -/

/-- The mapping routines keep a page table well formed. -/
theorem mapInvariant_ptState (hA : A.LawfulPages Ok frames) (root : ℕ) :
    MapInvariant A root (PtState Ok frames root) where
  level p i t s hp hs ht := by
    obtain ⟨⟨hs', -⟩, hnext⟩ := getNextLevel_spec hA i hs hp ht
    exact ⟨hs', hnext⟩
  leaf p i t e s _ hlen hend hs ht := ⟨hs.ok, hs.table.writeLeaf hlen ht hend⟩

/-- Frames in use that a page table does not reach, with their contents. -/
structure Apart (frames : S → Set ℕ) (root : ℕ) (F : Set ℕ) (mem : ℕ → Fin 512 → ℕ)
    (s : Machine S) : Prop where
  held : F ⊆ frames s.alloc
  unreached : ∀ f ∈ F, ∀ q, InTables q → tableAt tableEntry s.mem root q ≠ some f
  same : ∀ f ∈ F, s.mem f = mem f

/-- The mapping routines write to no frame in use that the page table does not reach. -/
theorem mapInvariant_apart (hA : A.LawfulPages Ok frames) (root : ℕ) (F : Set ℕ)
    (mem : ℕ → Fin 512 → ℕ) :
    MapInvariant A root fun s => PtState Ok frames root s ∧ Apart frames root F mem s where
  level p i t s hp hs ht := by
    obtain ⟨hstate, hheld, hunreached, hsame⟩ := hs
    obtain ⟨hstate', hnext⟩ := (mapInvariant_ptState hA root).level p i t s hp hstate ht
    refine ⟨⟨hstate', ?_⟩, hnext⟩
    rcases getNextLevel_cases A t i s with ⟨f, -, hr⟩ | ⟨-, hr⟩ | ⟨-, hfail, hr⟩ | ⟨hclear, hnew, hr⟩
    all_goals rw [hr]
    · exact ⟨hheld, hunreached, hsame⟩
    · exact ⟨hheld, hunreached, hsame⟩
    · exact ⟨hheld.trans (hA.allocPage_fail _ hstate.ok hfail).ge, hunreached, hsame⟩
    · have hfresh : (s.allocPage A).1 ∉ frames s.alloc := hA.allocPage_fresh _ hstate.ok hnew
      obtain ⟨hdvd, hlt⟩ := hA.allocPage_addr _ hstate.ok
      refine ⟨fun f hf => ?_, fun f hf q hq hpath => ?_, fun f hf => ?_⟩
      · exact (hA.allocPage_frames _ hstate.ok hnew).ge (Set.mem_insert_of_mem _ (hheld hf))
      · have htable := hstate.table.tableAt_linkTable hp ht hclear hfresh hdvd hlt
          (q := q) (Nat.le_succ_of_le hq)
        rw [htable] at hpath
        split at hpath
        · exact hfresh (Option.some.inj hpath ▸ hheld hf)
        · exact hunreached f hf q hq hpath
      · have hft : f ≠ t := by
          rintro rfl
          exact hunreached f hf p (Nat.le_succ_of_le hp) ht
        have hfg : f ≠ (s.allocPage A).1 := by
          rintro rfl
          exact hfresh (hheld hf)
        refine (Function.update_of_ne hft _ _).trans ?_
        exact (Function.update_of_ne hfg _ _).trans (hsame f hf)
  leaf p i t e s _ hlen hend hs ht := by
    obtain ⟨hstate, hheld, hunreached, hsame⟩ := hs
    refine ⟨⟨hstate.ok, hstate.table.writeLeaf hlen ht hend⟩, hheld, fun f hf q hq hpath => ?_,
      fun f hf => ?_⟩
    · exact hunreached f hf q hq (hstate.table.tableAt_of_writeLeaf hlen ht hend hq hpath)
    · refine (Function.update_of_ne ?_ _ _).trans (hsame f hf)
      rintro rfl
      exact hunreached f hf p hlen ht

/-- Linking a table into the first level, or writing behind it, keeps the slots that are present. -/
theorem mapInvariant_slots (hA : A.LawfulPages Ok frames) (root : ℕ) (row : Fin 512 → ℕ) :
    MapInvariant A root fun s => PtState Ok frames root s ∧
      ∀ j, (row j).testBit 0 = true → s.mem root j = row j where
  level p i t s hp hs ht := by
    obtain ⟨hstate, hrow⟩ := hs
    obtain ⟨hstate', hnext⟩ := (mapInvariant_ptState hA root).level p i t s hp hstate ht
    refine ⟨⟨hstate', fun j hj => ?_⟩, hnext⟩
    have hroot : root ∈ frames s.alloc := hstate.table.held [] root (Nat.zero_le 3) rfl
    rcases getNextLevel_cases A t i s with ⟨f, -, hr⟩ | ⟨-, hr⟩ | ⟨-, -, hr⟩ | ⟨hclear, hnew, hr⟩
    all_goals rw [hr]
    · exact hrow j hj
    · exact hrow j hj
    · exact hrow j hj
    · have hfresh : root ≠ (s.allocPage A).1 := by
        rintro heq
        exact hA.allocPage_fresh _ hstate.ok hnew (heq ▸ hroot)
      refine (writeSlot_of_ne ?_).trans (by rw [Function.update_of_ne hfresh, hrow j hj])
      rintro ⟨rfl, rfl⟩
      rw [hrow j hj, hj] at hclear
      cases hclear
  leaf p i t e s hpos hlen hend hs ht := by
    obtain ⟨hstate, hrow⟩ := hs
    refine ⟨⟨hstate.ok, hstate.table.writeLeaf hlen ht hend⟩, fun j hj => ?_⟩
    refine (writeSlot_of_ne ?_).trans (hrow j hj)
    rintro ⟨rfl, -⟩
    rw [hstate.table.distinct p [] root hlen (Nat.zero_le 3) ht rfl] at hpos
    cases hpos

/-- Nothing that leaves the frames in use alone hurts a page table. -/
theorem PtState.of_extends {root : ℕ} {s s' : Machine S} (h : PtState Ok frames root s)
    (hok : Ok s'.alloc) (hext : Extends frames s s') : PtState Ok frames root s' :=
  ⟨hok, (h.table.congr hext.mem hext.kept).1⟩

/-- A frame taken from elsewhere keeps a page table well formed. -/
theorem PtState.allocPage {root : ℕ} {s : Machine S} (hA : A.LawfulPages Ok frames) (hs : PtState Ok frames root s) :
    PtState Ok frames root (s.allocPage A).2 := by
  refine hs.of_extends (hA.allocPage_ok _ hs.ok) ⟨?_, fun _ _ => rfl⟩
  by_cases hfail : (A.allocPage s.alloc).1 = 0
  · exact (hA.allocPage_fail _ hs.ok hfail).ge
  · exact (Set.subset_insert _ _).trans (hA.allocPage_frames _ hs.ok hfail).ge

/-- The kernel's page table is well formed behind `init_pmap`. -/
theorem ptState_initPmap (hA : A.Lawful Ok frames objects) {hhdm : ℕ} {map : MemoryMap}
    {s s' : Machine S} {kernel : VmMap} (hok : Ok s.alloc)
    (hinit : initPmap A hhdm map s = (some kernel, s')) :
    PtState Ok frames kernel.pageTable.pml4Phy s' := by
  have hnone : ∀ k ∈ (none : Option PageTable), k.pml4Phy ∈ frames s.alloc := by simp
  obtain ⟨hok', -, hnew⟩ := vmMapCreate_spec hA hok hnone
  rw [initPmap] at hinit
  split at hinit
  · cases hinit
  next space s₁ hcreate =>
    cases hinit
    rw [hcreate] at hok' hnew
    obtain ⟨-, hheld, hrow⟩ := hnew kernel rfl
    refine (mapInvariant_ptState hA.toLawfulPages _).mapMemory _ _ ⟨hok', .of_empty (fun i => ?_) hheld⟩
    rw [hrow]
    simp [sharedEntry]

end Flos.Mm
