import Flos.Lib.Runs
import Flos.Mm.Custody
import Flos.Mm.KernelTable
import Flos.Mm.SpaceOps

/-!
# Isolation between address spaces

Any number of address spaces share the allocators and the kernel half. Each works on what it owns
and leaves what the others own alone, whatever allocations fail: its operations change no area and
no user translation of another, and no frame is a user page of one and anything of another.
-/

namespace Flos.Mm

open Flos.Lib

variable {ι S : Type*}

/-- The address spaces that exist, over one machine. -/
structure SpacesState (ι S : Type*) where
  spaces : ι → Option VmMap
  machine : Machine S

/-- Creating an address space, an operation on one or a page fault in it, and destroying one. -/
inductive SpacesOp (ι : Type*)
  | create (i : ι)
  | inside (i : ι) (op : SpaceOp)
  | destroy (i : ι)
  deriving DecidableEq, Repr

/-- A name is used for one address space at a time, and ranges are page-aligned and below
`2 ^ 47`. -/
def SpacesOp.Legal (st : SpacesState ι S) : SpacesOp ι → Prop
  | .create i => st.spaces i = none
  | .inside i (.call op) => ∀ space, st.spaces i = some space → op.InLowerHalf space
  | _ => True

variable [DecidableEq ι]

/-- The state behind an operation; `kernel` is the kernel's own page table. -/
def SpacesOp.exec (A : KernelAlloc S) (kernel : Option PageTable) (st : SpacesState ι S) :
    SpacesOp ι → SpacesState ι S
  | .create i =>
    let r := vmMapCreate A kernel st.machine
    ⟨Function.update st.spaces i r.1, r.2⟩
  | .inside i op =>
    match st.spaces i with
    | none => st
    | some space =>
      let r := op.exec A ⟨space, st.machine⟩
      ⟨Function.update st.spaces i (some r.space), r.machine⟩
  | .destroy i =>
    match st.spaces i with
    | none => st
    | some space => ⟨Function.update st.spaces i none, vmMapDestroy A space st.machine⟩

/-- One legal operation. -/
def SpacesStep (A : KernelAlloc S) (kernel : Option PageTable) (st : SpacesState ι S)
    (op : SpacesOp ι) (st' : SpacesState ι S) : Prop :=
  op.Legal st ∧ st' = op.exec A kernel st

/-- The address space that an operation is about. -/
def SpacesOp.target : SpacesOp ι → ι
  | .create i => i
  | .inside i _ => i
  | .destroy i => i

/-- The frame of a page that a user address translates to. -/
def DataPage (mem : ℕ → Fin 512 → ℕ) (root frame : ℕ) : Prop :=
  ∃ va t, va < 2 ^ 47 ∧ translate mem root va = some t ∧ t.phys / 4096 * 4096 = frame

/-- The frame of a page table, of either half. -/
def TableFrame (mem : ℕ → Fin 512 → ℕ) (root frame : ℕ) : Prop :=
  ∃ p, InTables p ∧ tableAt tableEntry mem root p = some frame

/-! ## What an address space owns -/

/-- What an address space owns, as a set. -/
def ownedBy (mem : ℕ → Fin 512 → ℕ) (space : VmMap) : Set Resource :=
  {r | (∃ f ∈ userFrames ∅ mem space.pageTable.pml4Phy, r = .frame f) ∨ r ∈ spaceObjects ∅ space}

/-- What it owns is what is held for it. -/
theorem mem_ownedBy {mem : ℕ → Fin 512 → ℕ} {space : VmMap} {fs : List ℕ}
    (hfs : ∀ f, f ∈ fs ↔ f ∈ userFrames ∅ mem space.pageTable.pml4Phy) {r : Resource} :
    r ∈ ownedBy mem space ↔ r ∈ fs.map .frame ++ spaceObjects ∅ space := by
  simp only [ownedBy, Set.mem_ofPred_eq, List.mem_append, List.mem_map, hfs]
  simp only [eq_comm]

/-- It owns its PML4. -/
theorem pml4_mem_ownedBy (mem : ℕ → Fin 512 → ℕ) (space : VmMap) :
    .frame space.pageTable.pml4Phy ∈ ownedBy mem space :=
  .inl ⟨_, ⟨[], ⟨by simp, by simp⟩, rfl⟩, rfl⟩

/-- Memory outside the owned frames does not matter: what is owned stays, and so does the
translation of every user address. -/
theorem UserTree.same {mem mem' : ℕ → Fin 512 → ℕ} {space : VmMap}
    (h : UserTree ∅ mem space.pageTable.pml4Phy)
    (hsame : ∀ f, .frame f ∈ ownedBy mem space → mem' f = mem f) :
    UserTree ∅ mem' space.pageTable.pml4Phy ∧ ownedBy mem' space = ownedBy mem space ∧
      userFrames ∅ mem' space.pageTable.pml4Phy = userFrames ∅ mem space.pageTable.pml4Phy ∧
      ∀ va, va < 2 ^ 47 → translate mem' space.pageTable.pml4Phy va =
        translate mem space.pageTable.pml4Phy va := by
  obtain ⟨htree, hagree⟩ := h.congr fun f hf => hsame f (.inl ⟨f, hf, rfl⟩)
  have hframes : userFrames ∅ mem' space.pageTable.pml4Phy =
      userFrames ∅ mem space.pageTable.pml4Phy :=
    reachedTables_congr fun q hq => (hagree q hq).tableAt_eq
  refine ⟨htree, ?_, hframes, fun va hva => translate_congr ?_⟩
  · rw [ownedBy, ownedBy, hframes]
  · have hpath := hagree (pathOf va) (userPath_pathOf hva)
    rw [ownEntry_empty] at hpath
    exact hpath.walkEntries_eq

/-- A user address is translated by a page that its path leads to. -/
theorem UserTree.tableAt_of_translate {mem : ℕ → Fin 512 → ℕ} {root va : ℕ} {t : Translation}
    (h : UserTree ∅ mem root) (hva : va < 2 ^ 47) (ht : translate mem root va = some t) :
    tableAt tableEntry mem root (pathOf va) = some (t.phys / 4096 * 4096) := by
  -- a walk ends in a zero entry, or in a page at the end of its path
  have hwalk : ∀ (r p : List (Fin 512)) (f : ℕ), UserPath (p ++ r) → r ≠ [] →
      tableAt tableEntry mem root p = some f →
      (∃ es, walkEntries tableEntry mem f r = es ++ [0]) ∨
      ∃ es e g, walkEntries tableEntry mem f r = es ++ [e] ∧ es.length + 1 = r.length ∧
        tableEntry e = some g ∧ tableAt tableEntry mem root (p ++ r) = some g := by
    intro r
    induction r with
    | nil => exact fun _ _ _ hne => absurd rfl hne
    | cons i r ih =>
      intro p f hp _ hf
      have hslot : UserPath (p ++ [i]) := by
        rw [List.append_cons] at hp
        exact hp.of_append
      have hentries := h.entries p i f hslot
      rw [ownEntry_empty] at hentries
      rcases hentries hf with hzero | ⟨g, hg, -⟩
      · refine .inl ⟨[], ?_⟩
        rw [walkEntries_cons_none (by rw [hzero, tableEntry_zero]), hzero]
        rfl
      · have hnext : tableAt tableEntry mem root (p ++ [i]) = some g := by
          rw [tableAt_concat hf, hg]
        cases r with
        | nil =>
          refine .inr ⟨[], mem f i, g, ?_, rfl, hg, hnext⟩
          rw [walkEntries_cons_some hg]
          rfl
        | cons j r =>
          rw [List.append_cons] at hp ⊢
          rw [walkEntries_cons_some hg]
          rcases ih (p ++ [i]) g hp (by simp) hnext with ⟨es, hes⟩ | ⟨es, e, g', hes, hlen, he⟩
          · exact .inl ⟨mem f i :: es, by rw [hes]; rfl⟩
          · refine .inr ⟨mem f i :: es, e, g', by rw [hes]; rfl, ?_, he⟩
            rw [List.length_cons, hlen]
            rfl
  rw [translate, if_pos (.inl hva)] at ht
  rcases hwalk (pathOf va) [] root (userPath_pathOf hva) (by simp [pathOf]) rfl with
    ⟨es, hes⟩ | ⟨es, e, g, hes, hlen, he, hpath⟩
  · rw [hes, decodeWalk_of_clear es (Nat.zero_testBit 0)] at ht
    cases ht
  · obtain ⟨hpresent, -, haddr⟩ := tableEntry_eq_some.mp he
    have hdvd := dvd_and_pagePhysMask e
    rw [haddr] at hdvd
    rw [pathOf_length] at hlen
    simp only [hes, decodeWalk, List.getLast?_append, List.getLast?_singleton, Option.some_or,
      hpresent, if_true, List.length_append, List.length_singleton, hlen, haddr,
      Option.some.injEq] at ht
    rw [← ht]
    refine hpath.trans ?_
    rw [show (g + va % 2 ^ 12) / 4096 * 4096 = g by omega]

/-! ## The invariant -/

/-- What belongs to others than address space `i`. -/
def othersOwn (base : Set Resource) (st : SpacesState ι S) (i : ι) : Set Resource :=
  base ∪ {r | ∃ j space, j ≠ i ∧ st.spaces j = some space ∧ r ∈ ownedBy st.machine.mem space}

/-- What holds of the address spaces, with `base` in use before and `mem` the memory then: what
belongs to the base and to each address space is in use and apart, and every PML4 has the upper half
of the kernel's. -/
structure Isolated (Ok : S → Prop) (frames : S → Set ℕ) (objects : CacheName → S → Set ℕ)
    (kernel : Option PageTable) (base : Set Resource) (mem : ℕ → Fin 512 → ℕ)
    (st : SpacesState ι S) : Prop where
  vacant : Custody Ok frames objects base ∅ mem st.machine []
  owns : ∀ i space, st.spaces i = some space → SpaceInv
    (Custody Ok frames objects (othersOwn base st i) ∅ st.machine.mem) ∅ ∅ [] space st.machine
  shared : ∀ i space, st.spaces i = some space → ∀ j : Fin 512, 256 ≤ j.val →
    st.machine.mem space.pageTable.pml4Phy j = sharedEntry kernel mem j

variable {A : KernelAlloc S} {Ok : S → Prop} {frames : S → Set ℕ}
  {objects : CacheName → S → Set ℕ} {kernel : Option PageTable} {base : Set Resource}
  {mem : ℕ → Fin 512 → ℕ} {st : SpacesState ι S}

omit [DecidableEq ι] in
/-- What an address space owns is in use, apart from everybody else's. -/
theorem Isolated.owned (h : Isolated Ok frames objects kernel base mem st) {i : ι} {space : VmMap}
    (hi : st.spaces i = some space) {r : Resource} (hr : r ∈ ownedBy st.machine.mem space) :
    Live frames objects st.machine.alloc r ∧ r ∉ othersOwn base st i := by
  obtain ⟨fs, hfs, hheld⟩ := (h.owns i space hi).tables.holds
  rw [List.append_nil] at hheld
  have hmem := (mem_ownedBy hfs).mp hr
  exact ⟨hheld.live r hmem, fun hrest => hheld.apart r hrest hmem⟩

omit [DecidableEq ι] in
/-- An address space can work with everything that belongs to others in safe custody. -/
theorem Isolated.others (h : Isolated Ok frames objects kernel base mem st) (i : ι) :
    Custody Ok frames objects (othersOwn base st i) ∅ st.machine.mem st.machine [] := by
  refine ⟨h.vacant.ok, List.nodup_nil, by simp, by simp, ?_, by simp, fun _ _ => rfl,
    fun _ _ _ _ => rfl⟩
  rintro r (hr | ⟨j, space, -, hj, hr⟩)
  · exact h.vacant.restLive r hr
  · exact (h.owned hj hr).1

/-- The PML4 of an address space may be fixed. -/
theorem SpaceInv.restart {rest : Set Resource} {fixed : Set ℕ} {mem : ℕ → Fin 512 → ℕ}
    {space : VmMap} {others : List Resource} {s : Machine S} (fixed' : Set ℕ)
    (h : SpaceInv (Custody Ok frames objects rest fixed mem) ∅ ∅ others space s) :
    SpaceInv (Custody Ok frames objects rest fixed' s.mem) ∅ ∅ [] space s := by
  obtain ⟨⟨htree, fs, hfs, hheld⟩, haligned⟩ := h
  refine ⟨⟨htree, fs, hfs, ?_⟩, haligned⟩
  rw [← List.append_assoc] at hheld
  rw [List.append_nil]
  exact hheld.restart fixed' subset_rfl

/-- What belongs to other address spaces than `i` is left alone. -/
def LeavesOthers (st st' : SpacesState ι S) (i : ι) : Prop :=
  ∀ j, j ≠ i → st'.spaces j = st.spaces j ∧ ∀ space, st.spaces j = some space →
    ∀ f, .frame f ∈ ownedBy st.machine.mem space → st'.machine.mem f = st.machine.mem f

/-- A change at one address space keeps the others, as long as what belongs to them was in safe
custody. -/
theorem Isolated.update (h : Isolated Ok frames objects kernel base mem st) {i : ι}
    {fixed : Set ℕ} {s' : Machine S} {held : List Resource} {new : Option VmMap}
    (hheld : Custody Ok frames objects (othersOwn base st i) fixed st.machine.mem s' held)
    (hnew : ∀ space, new = some space →
      SpaceInv (Custody Ok frames objects (othersOwn base st i) ∅ s'.mem) ∅ ∅ [] space s' ∧
        ∀ j : Fin 512, 256 ≤ j.val → s'.mem space.pageTable.pml4Phy j = sharedEntry kernel mem j) :
    Isolated Ok frames objects kernel base mem ⟨Function.update st.spaces i new, s'⟩ ∧
      LeavesOthers st ⟨Function.update st.spaces i new, s'⟩ i := by
  have hsame : ∀ j space, j ≠ i → st.spaces j = some space → ∀ f,
      .frame f ∈ ownedBy st.machine.mem space → s'.mem f = st.machine.mem f :=
    fun j space hji hj f hf => hheld.restMem f (.inr ⟨j, space, hji, hj, hf⟩)
  have howned : ∀ j space, j ≠ i → st.spaces j = some space →
      ownedBy s'.mem space = ownedBy st.machine.mem space := fun j space hji hj =>
    ((h.owns j space hj).tables.tree.same (hsame j space hji hj)).2.1
  refine ⟨⟨⟨hheld.ok, List.nodup_nil, by simp, by simp, fun r hr => hheld.restLive r (.inl hr),
    by simp, fun f hf => ?_, by simp⟩, fun j space hj => ?_, fun j space hj => ?_⟩,
    fun j hji => ⟨Function.update_of_ne hji _ _, fun space => hsame j space hji⟩⟩
  · exact (hheld.restMem f (.inl hf)).trans (h.vacant.restMem f hf)
  · by_cases hji : j = i
    · subst hji
      simp only [Function.update_self] at hj
      have hrest : othersOwn base ⟨Function.update st.spaces j new, s'⟩ j = othersOwn base st j := by
        ext r
        refine or_congr_right (exists_congr fun k => exists_congr fun space' =>
          and_congr_right fun hkj => ?_)
        simp only [Function.update_of_ne hkj]
        exact and_congr_right fun hk => by rw [howned k space' hkj hk]
      rw [hrest]
      exact (hnew space hj).1
    · simp only [Function.update_of_ne hji] at hj
      obtain ⟨⟨htree, fs, hfs, hold⟩, haligned⟩ := h.owns j space hj
      obtain ⟨htree', -, hframes, -⟩ := htree.same (hsame j space hji hj)
      refine ⟨⟨htree', fs, fun f => (hfs f).trans (by rw [hframes]), ?_⟩, haligned⟩
      rw [List.append_nil] at hold ⊢
      -- what this one owns belongs to others for the one that changes
      have hmine : ∀ r ∈ fs.map .frame ++ spaceObjects ∅ space, r ∈ othersOwn base st i :=
        fun r hr => .inr ⟨j, space, hji, hj, (mem_ownedBy hfs).mpr hr⟩
      refine ⟨hheld.ok, hold.nodup, fun r hr => hheld.restLive r (hmine r hr), hold.addr, ?_, ?_,
        fun _ _ => rfl, fun _ _ _ _ => rfl⟩
      · rintro r (hr | ⟨k, space', hkj, hk, hr⟩)
        · exact hheld.restLive r (.inl hr)
        · by_cases hki : k = i
          · subst hki
            simp only [Function.update_self] at hk
            obtain ⟨⟨-, fs', hfs', hheld'⟩, -⟩ := (hnew space' hk).1
            rw [List.append_nil] at hheld'
            exact hheld'.live r ((mem_ownedBy hfs').mp hr)
          · simp only [Function.update_of_ne hki] at hk
            exact hheld.restLive r (.inr ⟨k, space', hki, hk, howned k space' hki hk ▸ hr⟩)
      · rintro r (hr | ⟨k, space', hkj, hk, hr⟩) hmem
        · exact hold.apart r (.inl hr) hmem
        · by_cases hki : k = i
          · subst hki
            simp only [Function.update_self] at hk
            obtain ⟨⟨-, fs', hfs', hheld'⟩, -⟩ := (hnew space' hk).1
            rw [List.append_nil] at hheld'
            exact hheld'.apart r (hmine r hmem) ((mem_ownedBy hfs').mp hr)
          · simp only [Function.update_of_ne hki] at hk
            exact hold.apart r (.inr ⟨k, space', hkj, hk, howned k space' hki hk ▸ hr⟩) hmem
  · by_cases hji : j = i
    · subst hji
      simp only [Function.update_self] at hj
      exact (hnew space hj).2
    · simp only [Function.update_of_ne hji] at hj
      rw [hsame j space hji hj _ (pml4_mem_ownedBy _ _)]
      exact h.shared j space hj

/-! ## Steps -/

/-- The kernel's upper half is the same in every memory that has its PML4. -/
theorem sharedEntry_congr {mem mem' : ℕ → Fin 512 → ℕ}
    (h : ∀ k ∈ kernel, mem' k.pml4Phy = mem k.pml4Phy) :
    sharedEntry kernel mem' = sharedEntry kernel mem := by
  funext i
  cases kernel with
  | none => rfl
  | some k => simp only [sharedEntry, Option.elim_some, h k rfl]

section Steps

variable (hA : A.Lawful Ok frames objects) (hkernel : ∀ k ∈ kernel, .frame k.pml4Phy ∈ base)

include hA

/-- Work inside one address space keeps the isolation. -/
theorem Isolated.inside (h : Isolated Ok frames objects kernel base mem st) {i : ι} {op : SpaceOp}
    (hlegal : (SpacesOp.inside i op).Legal st) :
    Isolated Ok frames objects kernel base mem ((SpacesOp.inside i op).exec A kernel st) ∧
      LeavesOthers st ((SpacesOp.inside i op).exec A kernel st) i := by
  simp only [SpacesOp.exec]
  cases hi : st.spaces i with
  | none => exact ⟨h, fun _ _ => ⟨rfl, fun _ _ _ _ => rfl⟩⟩
  | some space =>
    have hstart := (h.owns i space hi).restart {space.pageTable.pml4Phy}
    obtain ⟨htable, others, hspace⟩ := @SpaceInv.exec _ _ _ _ _ _ _ (custody_holding hA _ _ _)
      ⟨space, st.machine⟩ op hstart subset_rfl
      (by rintro call rfl; exact hlegal space hi)
      (fun _ _ _ _ _ _ hmem => absurd hmem (Set.notMem_empty _))
      (fun _ _ _ _ _ _ _ hmem => absurd hmem (Set.notMem_empty _))
    obtain ⟨fs, -, hheld⟩ := hspace.tables.holds
    refine h.update hheld fun space' hspace' => ?_
    cases hspace'
    refine ⟨hspace.restart ∅, fun j hj => ?_⟩
    rw [htable]
    exact (hheld.fixedMem _ rfl j hj).trans (h.shared i space hi j hj)

/-- Destroying an address space keeps the isolation of the others. -/
theorem Isolated.destroy (h : Isolated Ok frames objects kernel base mem st) (i : ι) :
    Isolated Ok frames objects kernel base mem ((SpacesOp.destroy i).exec A kernel st) ∧
      LeavesOthers st ((SpacesOp.destroy i).exec A kernel st) i := by
  simp only [SpacesOp.exec]
  cases hi : st.spaces i with
  | none => exact ⟨h, fun _ _ => ⟨rfl, fun _ _ _ _ => rfl⟩⟩
  | some space =>
    obtain ⟨pages, -, hheld⟩ := (h.owns i space hi).destroy (custody_holding hA _ _ _)
      (Set.empty_subset _) (fun _ _ => Set.notMem_empty _)
      (fun _ _ _ _ _ _ hmem => absurd hmem (Set.notMem_empty _))
    exact h.update hheld (by simp)

include hkernel

/-- A new address space is isolated from the others. -/
theorem Isolated.create (h : Isolated Ok frames objects kernel base mem st) (i : ι) :
    Isolated Ok frames objects kernel base mem ((SpacesOp.create i).exec A kernel st) ∧
      LeavesOthers st ((SpacesOp.create i).exec A kernel st) i := by
  have hrow : ∀ k ∈ kernel, st.machine.mem k.pml4Phy = mem k.pml4Phy :=
    fun k hk => h.vacant.restMem _ (hkernel k hk)
  obtain ⟨-, -, hnew⟩ := vmMapCreate_spec hA h.vacant.ok
    fun k hk => h.vacant.restLive _ (hkernel k hk)
  have hgood : (fun _ => True) (vmMapCreate A kernel st.machine).2 := trivial
  obtain ⟨hnone, hsome⟩ := Holding.create (custody_holding hA (othersOwn base st i) ∅ st.machine.mem)
    rfl (h.others i) hgood
  simp only [SpacesOp.exec]
  rcases hr : vmMapCreate A kernel st.machine with ⟨_ | space, s'⟩
  all_goals rw [hr] at hnone hsome hnew
  · exact h.update (hnone rfl) (by simp)
  · obtain ⟨hspace, -, -⟩ := hsome space rfl
    obtain ⟨fs, -, hheld⟩ := hspace.tables.holds
    refine h.update hheld fun space' hspace' => ?_
    cases hspace'
    refine ⟨hspace.restart ∅, fun j _ => ?_⟩
    rw [(hnew space rfl).row, sharedEntry_congr hrow]

/-- Every operation keeps the isolation. -/
theorem Isolated.step {st' : SpacesState ι S} {op : SpacesOp ι}
    (h : Isolated Ok frames objects kernel base mem st) (hstep : SpacesStep A kernel st op st') :
    Isolated Ok frames objects kernel base mem st' ∧ LeavesOthers st st' op.target := by
  obtain ⟨hlegal, rfl⟩ := hstep
  cases op with
  | create i => exact h.create hA hkernel i
  | inside i op => exact h.inside hA hlegal
  | destroy i => exact h.destroy hA i

end Steps

/-! ## Isolation -/

omit [DecidableEq ι] in
/-- The frame of a user page is owned. -/
theorem Isolated.owned_dataPage (h : Isolated Ok frames objects kernel base mem st) {i : ι}
    {space : VmMap} (hi : st.spaces i = some space) {f : ℕ}
    (hf : DataPage st.machine.mem space.pageTable.pml4Phy f) :
    ∃ q, UserPath q ∧ q.length = 4 ∧
      tableAt tableEntry st.machine.mem space.pageTable.pml4Phy q = some f ∧
      .frame f ∈ ownedBy st.machine.mem space := by
  obtain ⟨va, t, hva, ht, rfl⟩ := hf
  have hpath := (h.owns i space hi).tables.tree.tableAt_of_translate hva ht
  refine ⟨pathOf va, userPath_pathOf hva, pathOf_length va, hpath, .inl ⟨_, ⟨pathOf va, userPath_pathOf hva, ?_⟩, rfl⟩⟩
  rwa [ownEntry_empty]

omit [DecidableEq ι] in
/-- The frame of a page table is owned, or it was in use from the start. -/
theorem Isolated.owned_tableFrame (h : Isolated Ok frames objects kernel base mem st)
    {inUse : Set ℕ} (hbase : ∀ f ∈ inUse, .frame f ∈ base)
    (hkernel : ∀ k ∈ kernel, WellFormedTable inUse mem k.pml4Phy) {i : ι} {space : VmMap}
    (hi : st.spaces i = some space) {p : List (Fin 512)} {f : ℕ} (hp : InTables p)
    (hf : tableAt tableEntry st.machine.mem space.pageTable.pml4Phy p = some f) :
    UserPath p ∧ .frame f ∈ ownedBy st.machine.mem space ∨ .frame f ∈ base := by
  by_cases huser : UserPath p
  · refine .inl ⟨huser, .inl ⟨f, ⟨p, huser, ?_⟩, rfl⟩⟩
    rwa [ownEntry_empty]
  -- the first slot is one of the kernel's, and so are the tables behind it
  obtain ⟨j, p, rfl⟩ : ∃ j q, p = j :: q := by
    cases p with
    | nil => exact absurd ⟨by simp, by simp⟩ huser
    | cons j q => exact ⟨j, q, rfl⟩
  have hj : 256 ≤ j.val := by
    by_contra hlow
    refine huser ⟨Nat.le_succ_of_le hp, ?_⟩
    rintro _ ⟨⟩
    omega
  have hslot := h.shared i space hi j hj
  cases hk : kernel with
  | none =>
    rw [hk] at hslot
    rw [tableAt_cons_none (by rw [hslot]; simp [sharedEntry])] at hf
    cases hf
  | some k =>
    have hwf := hkernel k hk
    have hmem : ∀ t ∈ inUse, st.machine.mem t = mem t := fun t ht => h.vacant.restMem t (hbase t ht)
    have hroot := hmem _ (hwf.held [] _ (Nat.zero_le 3) rfl)
    rw [hk, sharedEntry, if_pos hj, Option.elim_some, ← hroot] at hslot
    have hsame : tableAt tableEntry st.machine.mem space.pageTable.pml4Phy (j :: p) =
        tableAt tableEntry st.machine.mem k.pml4Phy (j :: p) := by
      simp only [tableAt, hslot]
    have hagree := (hwf.congr hmem subset_rfl).2 (j :: p) (Nat.le_succ_of_le hp)
    rw [hsame, hagree.tableAt_eq] at hf
    exact .inr (hbase f (hwf.held _ f hp hf))

/-- Address spaces are isolated from each other.

Let the kernel's page table, if there is one, be well formed, and let the address spaces be created,
used and destroyed in any order, with every allocation free to fail. In every state reached, an
operation on one address space, or a fault in it, leaves the areas and all user translations of the
others as they are; no frame is a user page of two of them; and no frame is a page table of one, of
either half, and a user page of the same or of another. -/
theorem addressSpaces_run_isolated (hA : A.Lawful Ok frames objects) {s₀ : Machine S}
    (hok : Ok s₀.alloc)
    (hkernel : ∀ k ∈ kernel, WellFormedTable (frames s₀.alloc) s₀.mem k.pml4Phy)
    {ops : List (SpacesOp ι)}
    (hrun : Run (SpacesStep A kernel) ⟨fun _ => none, s₀⟩ ops st) :
    (∀ op st', SpacesStep A kernel st op st' → ∀ j, j ≠ op.target →
      st'.spaces j = st.spaces j ∧ ∀ space, st.spaces j = some space → ∀ va, va < 2 ^ 47 →
        translate st'.machine.mem space.pageTable.pml4Phy va =
          translate st.machine.mem space.pageTable.pml4Phy va) ∧
    (∀ i j space space', i ≠ j → st.spaces i = some space → st.spaces j = some space' →
      ∀ f, DataPage st.machine.mem space.pageTable.pml4Phy f →
        ¬ DataPage st.machine.mem space'.pageTable.pml4Phy f) ∧
    ∀ i j space space', st.spaces i = some space → st.spaces j = some space' →
      ∀ f, TableFrame st.machine.mem space.pageTable.pml4Phy f →
        ¬ DataPage st.machine.mem space'.pageTable.pml4Phy f := by
  have hroot : ∀ k ∈ kernel, .frame k.pml4Phy ∈ {r | Live frames objects s₀.alloc r} :=
    fun k hk => (hkernel k hk).held [] _ (Nat.zero_le 3) rfl
  have hinv := hrun.invariant
    (Isolated Ok frames objects kernel {r | Live frames objects s₀.alloc r} s₀.mem)
    (fun st op st' h hstep => (h.step hA hroot hstep).1)
    ⟨⟨hok, List.nodup_nil, by simp, by simp, fun r hr => hr, by simp, fun _ _ => rfl, by simp⟩,
      by simp, by simp⟩
  refine ⟨fun op st' hstep j hj => ?_, fun i j space space' hij hi hj f hf hf' => ?_,
    fun i j space space' hi hj f hf hf' => ?_⟩
  · obtain ⟨hspaces, hsame⟩ := (hinv.step hA hroot hstep).2 j hj
    exact ⟨hspaces, fun space hspace =>
      ((hinv.owns j space hspace).tables.tree.same (hsame space hspace)).2.2.2⟩
  · obtain ⟨-, -, -, -, hmine⟩ := hinv.owned_dataPage hi hf
    obtain ⟨-, -, -, -, htheirs⟩ := hinv.owned_dataPage hj hf'
    exact (hinv.owned hi hmine).2 (.inr ⟨j, space', hij.symm, hj, htheirs⟩)
  · obtain ⟨p, hp, hpath⟩ := hf
    obtain ⟨q, hq, hq4, hpath', htheirs⟩ := hinv.owned_dataPage hj hf'
    rcases hinv.owned_tableFrame (fun f hf => hf) hkernel hi hp hpath with ⟨huser, hmine⟩ | hbase
    · by_cases hij : i = j
      · subst hij
        obtain rfl := Option.some.inj (hi.symm.trans hj)
        have hdistinct := (hinv.owns i space hi).tables.tree.distinct
        rw [ownEntry_empty] at hdistinct
        obtain rfl := hdistinct p q f huser hq hpath hpath'
        simp only [InTables] at hp
        omega
      · exact (hinv.owned hi hmine).2 (.inr ⟨j, space', Ne.symm hij, hj, htheirs⟩)
    · exact (hinv.owned hj htheirs).2 (.inl hbase)

/-- Two address spaces with an area each at the same address, and a page in each area. -/
def twoSpacesOps : List (SpacesOp Bool) :=
  [.create false, .create true, .inside false (.call (.allocateRegion 0x2000 0x1000 6)),
    .inside true (.call (.allocateRegion 0x2000 0x1000 6)), .inside false (.fault 0x2008 4),
    .inside true (.fault 0x2008 4)]

/-- The kernel's address space with nothing mapped, and the state behind those operations. -/
def bootSpaces (pages : Pmm) :
    Option (VmMap × Machine (KernelMem Pmm) × SpacesState Bool (KernelMem Pmm)) :=
  let r := initPmap kernelAllocators hhdmOffset (memmapInit []) (bootMachine pages)
  r.1.map fun kernel => (kernel, r.2,
    twoSpacesOps.foldl (SpacesOp.exec kernelAllocators (some kernel.pageTable))
      ⟨fun _ => none, r.2⟩)

/-- Those operations are a run from what `init_pmap` leaves. -/
theorem run_of_bootSpaces {pages : Pmm} {kernel : VmMap} {s : Machine (KernelMem Pmm)}
    {st : SpacesState Bool (KernelMem Pmm)} (h : bootSpaces pages = some (kernel, s, st)) :
    initPmap kernelAllocators hhdmOffset (memmapInit []) (bootMachine pages) = (some kernel, s) ∧
      Run (SpacesStep kernelAllocators (some kernel.pageTable)) ⟨fun _ => none, s⟩ twoSpacesOps
        st := by
  obtain ⟨k, hk, heq⟩ := Option.map_eq_some_iff.mp h
  cases heq
  refine ⟨by rw [← hk], ?_⟩
  generalize (initPmap kernelAllocators hhdmOffset (memmapInit []) (bootMachine pages)).2 = s
  exact .cons ⟨rfl, rfl⟩ <| .cons ⟨rfl, rfl⟩ <| .cons ⟨fun _ _ => ⟨by decide, by decide⟩, rfl⟩ <|
    .cons ⟨fun _ _ => ⟨by decide, by decide⟩, rfl⟩ <| .cons ⟨trivial, rfl⟩ <|
      .single ⟨trivial, rfl⟩

/-- On a map with sixteen USABLE frames, destroying one of two address spaces that have a page at the
same address leaves the page of the other. -/
theorem addressSpaces_run_isolated_sixteenFrameMap :
    ∃ s₀ kernel s st st' space, initBitmapPmm sixteenFrameMap (fun _ => 0#8) = some s₀ ∧
      bootSpaces s₀ = some (kernel, s, st) ∧
      Run (SpacesStep kernelAllocators (some kernel.pageTable)) ⟨fun _ => none, s⟩ twoSpacesOps st ∧
      SpacesStep kernelAllocators (some kernel.pageTable) st (.destroy false) st' ∧
      st'.spaces true = some space ∧
      translate st'.machine.mem space.pageTable.pml4Phy 0x2008 =
        some ⟨0xc008, ⟨true, true, false, false⟩⟩ := by
  obtain ⟨s₀, hinit⟩ := initBitmapPmm_isSome sixteenFrameMap_bootable (fun _ => 0#8)
  have hconcrete : ((initBitmapPmm sixteenFrameMap (fun _ => 0#8)).bind fun pages =>
      (bootSpaces pages).bind fun r => (r.2.2.spaces true).map fun space =>
        translate r.2.2.machine.mem space.pageTable.pml4Phy 0x2008) =
      some (some ⟨0xc008, ⟨true, true, false, false⟩⟩) := by decide +kernel
  rw [hinit, Option.bind_some] at hconcrete
  obtain ⟨⟨kernel, s, st⟩, hboot, hconcrete⟩ := Option.bind_eq_some_iff.mp hconcrete
  obtain ⟨space, hspace, hpage⟩ := Option.map_eq_some_iff.mp hconcrete
  obtain ⟨hstart, hrun⟩ := run_of_bootSpaces hboot
  have hok : (bootMachine s₀).alloc.Ok Pmm.Ok Pmm.inUse hhdmOffset :=
    bootMem_ok (Pmm.Ok.of_init sixteenFrameMap_bootable hinit)
  have hkernel := ptState_initPmap kernelAllocators_lawful hok hstart
  have hstep : SpacesStep kernelAllocators (some kernel.pageTable) st (.destroy false) _ :=
    ⟨trivial, rfl⟩
  obtain ⟨hsame, -⟩ := addressSpaces_run_isolated kernelAllocators_lawful hkernel.ok
    (by rintro _ ⟨⟩; exact hkernel.table) hrun
  obtain ⟨hspaces, htranslate⟩ := hsame _ _ hstep true (by decide)
  exact ⟨s₀, kernel, _, _, _, space, hinit, hboot, hrun, hstep, hspaces.trans hspace,
    (htranslate space hspace 0x2008 (by decide)).trans hpage⟩

end Flos.Mm
