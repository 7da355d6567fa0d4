import Flos.Lib.Runs
import Flos.Lib.Spans
import Flos.Mm.KernelMem
import Flos.Mm.VmMap

/-!
# The area list of an address space

What each operation does to the list of areas, for any allocator: an insertion adds one area
that was disjoint from all others, and freeing a region replaces each area by the parts of it
that lie outside. From a fresh address space the list therefore stays a chain over every run,
also when node allocations fail, and a lookup finds the one area of an address.
-/

namespace Flos.Mm

open Flos.Lib

/-- A size rounded up to whole pages. -/
def pageCeil (size : ℕ) : ℕ := (size + 4095) / 4096 * 4096

/-- Rounding in the code agrees when the rounded size is a word. -/
theorem alignUp_eq_pageCeil {size : ℕ} (h : pageCeil size < wordSize) :
    alignUp size pageSize = pageCeil size := by
  simp only [pageCeil, wordSize] at h
  exact alignUp_page_of_lt (by simp only [wordSize]; omega)

/-- Every area is non-empty. -/
def AreasNonempty (areas : List VmArea) : Prop := ∀ v ∈ areas, v.start < v.endAddr

/-- Every two areas are disjoint. -/
def AreasDisjoint (areas : List VmArea) : Prop :=
  areas.Pairwise (SpanDisjoint VmArea.start VmArea.endAddr)

/-- Sorted, non-empty and disjoint areas. -/
def AreasChain (areas : List VmArea) : Prop := SpanChain VmArea.start VmArea.endAddr areas

/-- The addresses that lie in an area. -/
def areasCover (areas : List VmArea) : Set ℕ := spanCover VmArea.start VmArea.endAddr areas

/-! ## Insertion -/

/-- The overlap scan misses no overlap with a range that does not wrap. -/
theorem disjoint_of_not_vmaOverlaps {areas : List VmArea} {start size : ℕ}
    (hfit : start + size < wordSize) (h : vmaOverlaps areas start size = false) {v : VmArea}
    (hv : v ∈ areas) : v.endAddr ≤ start ∨ start + size ≤ v.start := by
  have hnone := List.any_eq_false.mp h v hv
  rw [Nat.mod_eq_of_lt hfit] at hnone
  simp only [Bool.and_eq_true, decide_eq_true_eq] at hnone
  omega

/-- `insert_vma` is insertion by start address. -/
theorem insertVma_eq (areas : List VmArea) (new : VmArea) :
    insertVma areas new = areas.orderedInsert (fun a b => a.start ≤ b.start) new := by
  induction areas with
  | nil => rfl
  | cons v rest ih =>
    rw [insertVma, List.orderedInsert_cons, ih]
    by_cases h : v.start < new.start
    · rw [if_pos h, if_neg (by omega)]
    · rw [if_neg h, if_pos (by omega)]

/-- An insertion adds the new area and keeps the others. -/
theorem insertVma_perm (areas : List VmArea) (new : VmArea) :
    (insertVma areas new).Perm (new :: areas) := by
  rw [insertVma_eq]
  exact List.perm_orderedInsert _ new areas

/-- Membership after an insertion. -/
theorem mem_insertVma {areas : List VmArea} {new v : VmArea} :
    v ∈ insertVma areas new ↔ v = new ∨ v ∈ areas := by
  rw [(insertVma_perm areas new).mem_iff, List.mem_cons]

/-- Inserting an area that is disjoint from the others keeps the areas disjoint. -/
theorem AreasDisjoint.insertVma {areas : List VmArea} (h : AreasDisjoint areas) {new : VmArea}
    (hnew : ∀ v ∈ areas, v.endAddr ≤ new.start ∨ new.endAddr ≤ v.start) :
    AreasDisjoint (insertVma areas new) := by
  have hsymm : ∀ {a b : VmArea}, SpanDisjoint VmArea.start VmArea.endAddr a b →
      SpanDisjoint VmArea.start VmArea.endAddr b a := Or.symm
  refine ((insertVma_perm areas new).pairwise_iff hsymm).mpr (List.pairwise_cons.mpr ⟨?_, h⟩)
  exact fun v hv => (hnew v hv).symm

/-- Inserting a disjoint area into a chain gives a chain. -/
theorem AreasChain.insertVma {areas : List VmArea} (h : AreasChain areas) {new : VmArea}
    (hpos : new.start < new.endAddr)
    (hnew : ∀ v ∈ areas, v.endAddr ≤ new.start ∨ new.endAddr ≤ v.start) :
    AreasChain (insertVma areas new) := by
  refine SpanChain.of_sorted ?_ ?_ (AreasDisjoint.insertVma h.disjoint hnew)
  · intro v hv
    rcases mem_insertVma.mp hv with rfl | hv
    · exact hpos
    · exact h.1 v hv
  · have htotal : Std.Total fun a b : VmArea => a.start ≤ b.start := ⟨fun _ _ => Nat.le_total _ _⟩
    have htrans : IsTrans VmArea fun a b => a.start ≤ b.start := ⟨fun _ _ _ => Nat.le_trans⟩
    rw [insertVma_eq]
    exact (h.sorted.imp Nat.le_of_lt).orderedInsert new

/-! ## Freeing a region -/

section Free

variable {S : Type*} (A : KernelAlloc S) (start endAddr : ℕ)

/-- One iteration of the area loop of `vm_map_free_region`: the pieces that are left of an area,
and the machine behind the node operations. -/
inductive CutStep (vma : VmArea) (s : Machine S) : List VmArea → Machine S → Prop
  | skip : vma.endAddr ≤ start ∨ endAddr ≤ vma.start → CutStep vma s [vma] s
  | drop : start ≤ vma.start → vma.endAddr ≤ endAddr →
      CutStep vma s [] (s.cacheFree A .vmAreaCache vma.node)
  | split : vma.start < start → start < vma.endAddr → vma.start < endAddr →
      endAddr < vma.endAddr → (s.cacheAlloc A .vmAreaCache).1 ≠ 0 →
      CutStep vma s
        [{ vma with endAddr := start },
          ⟨(s.cacheAlloc A .vmAreaCache).1, endAddr, vma.endAddr, vma.flags⟩]
        (s.cacheAlloc A .vmAreaCache).2
  | truncate : vma.start < start → start < vma.endAddr → endAddr < vma.endAddr →
      (s.cacheAlloc A .vmAreaCache).1 = 0 →
      CutStep vma s [{ vma with endAddr := start }] (s.cacheAlloc A .vmAreaCache).2
  | trimEnd : vma.start < start → start < vma.endAddr → vma.endAddr ≤ endAddr →
      CutStep vma s [{ vma with endAddr := start }] s
  | trimStart : start ≤ vma.start → vma.start < endAddr → endAddr < vma.endAddr →
      CutStep vma s [{ vma with start := endAddr }] s

/-- The area loop takes one cut step for its first area and continues with the rest. -/
theorem freeAreas_cons (vma : VmArea) (rest : List VmArea) (s : Machine S) :
    ∃ pieces s', CutStep A start endAddr vma s pieces s' ∧
      freeAreas A start endAddr (vma :: rest) s =
        (pieces ++ (freeAreas A start endAddr rest s').1, (freeAreas A start endAddr rest s').2) := by
  rw [freeAreas]
  split_ifs with hskip hdrop hsplit htrim
  · exact ⟨_, _, .skip hskip, rfl⟩
  · exact ⟨_, _, .drop hdrop.1 hdrop.2, rfl⟩
  · by_cases hfail : (s.cacheAlloc A .vmAreaCache).1 = 0
    · refine ⟨_, _, .truncate hsplit.1 (by omega) hsplit.2 hfail, ?_⟩
      simp only [vmaAlloc, hfail, if_true, List.cons_append, List.nil_append]
    · refine ⟨_, _, .split hsplit.1 (by omega) (by omega) hsplit.2 hfail, ?_⟩
      simp only [vmaAlloc, hfail, if_false, List.cons_append, List.nil_append]
  · exact ⟨_, _, .trimEnd htrim (by omega) (by omega), rfl⟩
  · exact ⟨_, _, .trimStart (by omega) (by omega) (by omega), rfl⟩

variable {A start endAddr}

/-- Every piece is a part of the area outside the region. -/
theorem CutStep.piece {vma : VmArea} {s s' : Machine S} {pieces : List VmArea}
    (h : CutStep A start endAddr vma s pieces s') {b : VmArea} (hb : b ∈ pieces) :
    vma.start ≤ b.start ∧ b.endAddr ≤ vma.endAddr ∧ b.flags = vma.flags ∧
      (b.endAddr ≤ start ∨ endAddr ≤ b.start) := by
  cases h <;> simp only [List.mem_cons, List.not_mem_nil, or_false] at hb
  case skip => subst hb; simp only [true_and]; omega
  case split => rcases hb with rfl | rfl <;> simp only [true_and] <;> omega
  case truncate => subst hb; simp only [true_and]; omega
  case trimEnd => subst hb; simp only [true_and]; omega
  case trimStart => subst hb; simp only [true_and]; omega

/-- No piece of a non-empty area is empty. -/
theorem CutStep.nonempty {vma : VmArea} {s s' : Machine S} {pieces : List VmArea}
    (h : CutStep A start endAddr vma s pieces s') (hpos : vma.start < vma.endAddr) {b : VmArea}
    (hb : b ∈ pieces) : b.start < b.endAddr := by
  cases h <;> simp only [List.mem_cons, List.not_mem_nil, or_false] at hb
  case skip => subst hb; exact hpos
  case split => rcases hb with rfl | rfl <;> simp only <;> omega
  case truncate => subst hb; simp only; omega
  case trimEnd => subst hb; simp only; omega
  case trimStart => subst hb; simp only; omega

/-- The pieces of an area are in order. -/
theorem CutStep.chain {vma : VmArea} {s s' : Machine S} {pieces : List VmArea}
    (h : CutStep A start endAddr vma s pieces s') (hrange : start ≤ endAddr) :
    pieces.Pairwise fun a b => a.endAddr ≤ b.start := by
  cases h <;> simp
  exact hrange

/-- Unless a node allocation failed, the pieces cover the area outside the region. -/
theorem CutStep.covers {vma : VmArea} {s s' : Machine S} {pieces : List VmArea}
    (h : CutStep A start endAddr vma s pieces s')
    (hlog : s'.log ≠ s.log ++ [.allocObject .vmAreaCache 0]) {x : ℕ}
    (hx : vma.start ≤ x ∧ x < vma.endAddr) (hout : x < start ∨ endAddr ≤ x) :
    ∃ b ∈ pieces, b.flags = vma.flags ∧ b.start ≤ x ∧ x < b.endAddr := by
  cases h
  case skip => exact ⟨vma, by simp, rfl, hx⟩
  case drop => omega
  case split =>
    rcases hout with hout | hout
    · exact ⟨_, List.mem_cons_self, rfl, hx.1, hout⟩
    · exact ⟨_, List.mem_cons_of_mem _ List.mem_cons_self, rfl, hout, hx.2⟩
  case truncate hnode =>
    refine absurd ?_ hlog
    simp only [Machine.cacheAlloc] at hnode ⊢
    rw [hnode]
  case trimEnd => exact ⟨_, List.mem_cons_self, rfl, hx.1, by simp only; omega⟩
  case trimStart => exact ⟨_, List.mem_cons_self, rfl, by simp only; omega, hx.2⟩

/-- Every area left by the loop is a part of an old one outside the region. -/
theorem mem_freeAreas {areas : List VmArea} {s : Machine S} {b : VmArea}
    (hb : b ∈ (freeAreas A start endAddr areas s).1) :
    (b.endAddr ≤ start ∨ endAddr ≤ b.start) ∧
      ∃ v ∈ areas, v.start ≤ b.start ∧ b.endAddr ≤ v.endAddr ∧ b.flags = v.flags := by
  induction areas generalizing s with
  | nil => simp [freeAreas] at hb
  | cons vma rest ih =>
    obtain ⟨pieces, s', hstep, heq⟩ := freeAreas_cons A start endAddr vma rest s
    rw [heq] at hb
    rcases List.mem_append.mp hb with hb | hb
    · obtain ⟨h1, h2, h3, h4⟩ := hstep.piece hb
      exact ⟨h4, vma, List.mem_cons_self, h1, h2, h3⟩
    · obtain ⟨h1, v, hv, h2⟩ := ih hb
      exact ⟨h1, v, List.mem_cons_of_mem _ hv, h2⟩

/-- The loop leaves no empty area behind. -/
theorem AreasNonempty.freeAreas {areas : List VmArea} (h : AreasNonempty areas) (s : Machine S) :
    AreasNonempty (freeAreas A start endAddr areas s).1 := by
  induction areas generalizing s with
  | nil => simp [AreasNonempty, Mm.freeAreas]
  | cons vma rest ih =>
    obtain ⟨pieces, s', hstep, heq⟩ := freeAreas_cons A start endAddr vma rest s
    intro b hb
    rw [heq] at hb
    rcases List.mem_append.mp hb with hb | hb
    · exact hstep.nonempty (h vma List.mem_cons_self) hb
    · exact ih (fun v hv => h v (List.mem_cons_of_mem _ hv)) s' b hb

/-- A relation between areas that passes to parts of them, and holds between pieces in order, is
kept by the loop for all pairs of areas in list order. -/
theorem freeAreas_pairwise {R : VmArea → VmArea → Prop} {areas : List VmArea} {s : Machine S}
    (hrange : start ≤ endAddr)
    (hsub : ∀ a b a' b', R a b → a.start ≤ a'.start → a'.endAddr ≤ a.endAddr →
      b.start ≤ b'.start → b'.endAddr ≤ b.endAddr → R a' b')
    (hchain : ∀ a b, a.endAddr ≤ b.start → R a b) (h : areas.Pairwise R) :
    (freeAreas A start endAddr areas s).1.Pairwise R := by
  induction areas generalizing s with
  | nil => exact List.Pairwise.nil
  | cons vma rest ih =>
    obtain ⟨hhead, hrest⟩ := List.pairwise_cons.mp h
    obtain ⟨pieces, s', hstep, heq⟩ := freeAreas_cons A start endAddr vma rest s
    rw [heq]
    refine List.pairwise_append.mpr ⟨(hstep.chain hrange).imp (hchain _ _), ih hrest, ?_⟩
    intro a ha b hb
    obtain ⟨h1, h2, -, -⟩ := hstep.piece ha
    obtain ⟨-, v, hv, h3, h4, -⟩ := mem_freeAreas hb
    exact hsub vma v a b (hhead v hv) h1 h2 h3 h4

/-- Freeing a region keeps the areas disjoint. -/
theorem AreasDisjoint.freeAreas {areas : List VmArea} (h : AreasDisjoint areas) (s : Machine S)
    (hrange : start ≤ endAddr) :
    AreasDisjoint (freeAreas A start endAddr areas s).1 := by
  refine freeAreas_pairwise hrange ?_ (fun a b => .inl) h
  rintro a b a' b' hab h1 h2 h3 h4
  exact hab.imp (fun h => by omega) fun h => by omega

/-- Freeing a region keeps a chain of areas a chain. -/
theorem AreasChain.freeAreas {areas : List VmArea} (h : AreasChain areas) (s : Machine S)
    (hrange : start ≤ endAddr) : AreasChain (freeAreas A start endAddr areas s).1 := by
  refine ⟨AreasNonempty.freeAreas h.1 s, ?_⟩
  refine freeAreas_pairwise hrange ?_ (fun a b => id) h.2
  intros
  omega

end Free

/-! ## Runs -/

/-- An address space together with the machine. -/
structure VmState (S : Type*) where
  space : VmMap
  machine : Machine S

/-- An operation on the areas of an address space. -/
inductive VmOp
  | allocate (size flags : ℕ)
  | allocateRegion (start size flags : ℕ)
  | freeRegion (start size : ℕ)
  deriving DecidableEq, Repr

section Runs

variable {S : Type*} (A : KernelAlloc S)

/-- The result of an operation, `0` where it returns none, and the state behind it. -/
def VmOp.exec : VmOp → VmState S → ℕ × VmState S
  | .allocate size flags, st =>
    let r := vmMapAllocate A st.space size flags st.machine
    (r.1, ⟨r.2.1, r.2.2⟩)
  | .allocateRegion start size flags, st =>
    let r := vmMapAllocateRegion A st.space start size flags st.machine
    (r.1, ⟨r.2.1, r.2.2⟩)
  | .freeRegion start size, st =>
    let r := vmMapFreeRegion A st.space start size st.machine
    (0, ⟨r.1, r.2⟩)

/-- The operation names a non-empty range whose page-rounded end is a word; for `vm_map_allocate`
this is the range that it picks. -/
def VmOp.Fits (space : VmMap) : VmOp → Prop
  | .allocate size _ =>
    0 < size ∧ findCandidate (pageCeil size) space.areas vmAllocBase + pageCeil size < wordSize
  | .allocateRegion start size _ => 0 < size ∧ start + pageCeil size < wordSize
  | .freeRegion start size => 0 < size ∧ start + pageCeil size < wordSize

/-- One operation on a range that fits. -/
def VmStep (st : VmState S) (op : VmOp) (st' : VmState S) : Prop :=
  op.Fits st.space ∧ st' = (op.exec A st).2

variable {A}

/-- The outcomes of `vm_map_allocate_region`: an overlap, no node, or a new area that is disjoint
from all others. -/
theorem vmMapAllocateRegion_cases (A : KernelAlloc S) (space : VmMap) {start size : ℕ}
    (flags : ℕ) (s : Machine S) (hfit : start + pageCeil size < wordSize) :
    (vmaOverlaps space.areas start (pageCeil size) = true ∧
      vmMapAllocateRegion A space start size flags s = (0, space, s)) ∨
    ((s.cacheAlloc A .vmAreaCache).1 = 0 ∧ vmMapAllocateRegion A space start size flags s =
      (0, space, (s.cacheAlloc A .vmAreaCache).2)) ∨
    ((s.cacheAlloc A .vmAreaCache).1 ≠ 0 ∧
      (∀ v ∈ space.areas, v.endAddr ≤ start ∨ start + pageCeil size ≤ v.start) ∧
      vmMapAllocateRegion A space start size flags s =
        (start,
          ⟨space.addr, space.pageTable, insertVma space.areas
            ⟨(s.cacheAlloc A .vmAreaCache).1, start, start + pageCeil size, flags⟩⟩,
          (s.cacheAlloc A .vmAreaCache).2)) := by
  rw [vmMapAllocateRegion, alignUp_eq_pageCeil (by omega)]
  cases hover : vmaOverlaps space.areas start (pageCeil size) with
  | true => exact .inl ⟨rfl, rfl⟩
  | false =>
    by_cases hnode : (s.cacheAlloc A .vmAreaCache).1 = 0
    · exact .inr (.inl ⟨hnode, by simp [vmaAlloc, hnode]⟩)
    · refine .inr (.inr ⟨hnode, fun v hv => disjoint_of_not_vmaOverlaps hfit hover hv, ?_⟩)
      simp [vmaAlloc, hnode, Nat.mod_eq_of_lt hfit]

/-- `vm_map_allocate` allocates the region at its candidate. -/
theorem vmMapAllocate_eq {space : VmMap} {size : ℕ} (flags : ℕ) (s : Machine S) (hsize : 0 < size)
    (hfit : pageCeil size < wordSize) :
    vmMapAllocate A space size flags s =
      let candidate := findCandidate (pageCeil size) space.areas vmAllocBase
      let r := vmMapAllocateRegion A space candidate (pageCeil size) flags s
      if r.1 = 0 then (0, r.2) else (candidate, r.2) := by
  rw [vmMapAllocate, if_neg (by omega), alignUp_eq_pageCeil hfit]

/-- `vm_map_free_region` unmaps the pages of the region and then cuts it out of the areas. -/
theorem vmMapFreeRegion_eq {space : VmMap} {start size : ℕ} (s : Machine S) (hsize : 0 < size)
    (hfit : start + pageCeil size < wordSize) :
    vmMapFreeRegion A space start size s =
      let endAddr := start + pageCeil size
      let r := freeAreas A start endAddr space.areas
        (unmapPages A space.pageTable.pml4Phy endAddr (pagesBetween start endAddr) start s)
      (⟨space.addr, space.pageTable, r.1⟩, r.2) := by
  rw [vmMapFreeRegion, if_neg (by omega), alignUp_eq_pageCeil (by omega)]
  simp only [Nat.mod_eq_of_lt hfit]

/-- Rounding twice is rounding once. -/
@[simp] theorem pageCeil_pageCeil (size : ℕ) : pageCeil (pageCeil size) = pageCeil size := by
  simp only [pageCeil]
  omega

/-- A non-empty size rounds to at least a page. -/
theorem pageCeil_pos {size : ℕ} (h : 0 < size) : 0 < pageCeil size := by
  simp only [pageCeil]
  omega

/-- The area list behind an operation on a range that fits: unchanged, with one disjoint area
inserted, or with a region cut out. -/
theorem VmOp.exec_areas {op : VmOp} {st : VmState S} (hfit : op.Fits st.space) :
    (op.exec A st).2.space.areas = st.space.areas ∨
    (∃ new : VmArea, new.start < new.endAddr ∧
      (∀ v ∈ st.space.areas, v.endAddr ≤ new.start ∨ new.endAddr ≤ v.start) ∧
      (op.exec A st).2.space.areas = insertVma st.space.areas new) ∨
    ∃ start endAddr s, start ≤ endAddr ∧
      (op.exec A st).2.space.areas = (freeAreas A start endAddr st.space.areas s).1 := by
  cases op with
  | allocate size flags =>
    obtain ⟨hpos, hfit⟩ := hfit
    have hsize := pageCeil_pos hpos
    simp only [VmOp.exec]
    rw [vmMapAllocate_eq flags st.machine hpos (by omega)]
    have hfit' : findCandidate (pageCeil size) st.space.areas vmAllocBase +
        pageCeil (pageCeil size) < wordSize := by rwa [pageCeil_pageCeil]
    have hcases := vmMapAllocateRegion_cases A st.space flags st.machine hfit'
    rw [pageCeil_pageCeil] at hcases
    rcases hcases with ⟨-, h⟩ | ⟨-, h⟩ | ⟨-, hdisjoint, h⟩
    · exact .inl (by simp [h])
    · exact .inl (by simp [h])
    · refine .inr (.inl ⟨⟨(st.machine.cacheAlloc A .vmAreaCache).1, _, _, flags⟩,
        Nat.lt_add_of_pos_right hsize, hdisjoint, ?_⟩)
      simp only [h]
      split <;> rfl
  | allocateRegion start size flags =>
    obtain ⟨hpos, hfit⟩ := hfit
    have hsize := pageCeil_pos hpos
    simp only [VmOp.exec]
    rcases vmMapAllocateRegion_cases A st.space flags st.machine hfit with
      ⟨-, h⟩ | ⟨-, h⟩ | ⟨-, hdisjoint, h⟩
    · exact .inl (by simp [h])
    · exact .inl (by simp [h])
    · exact .inr (.inl ⟨⟨(st.machine.cacheAlloc A .vmAreaCache).1, _, _, flags⟩,
        Nat.lt_add_of_pos_right hsize, hdisjoint, by simp only [h]⟩)
  | freeRegion start size =>
    obtain ⟨hpos, hfit⟩ := hfit
    simp only [VmOp.exec, vmMapFreeRegion_eq st.machine hpos hfit]
    exact .inr (.inr ⟨_, _, _, Nat.le_add_right _ _, rfl⟩)

/-- One operation keeps a chain of areas a chain. -/
theorem VmStep.chain {st st' : VmState S} {op : VmOp} (h : VmStep A st op st')
    (hinv : AreasChain st.space.areas) : AreasChain st'.space.areas := by
  obtain ⟨hfit, rfl⟩ := h
  rcases VmOp.exec_areas (A := A) hfit with heq | ⟨new, hpos, hnew, heq⟩ | ⟨_, _, s, hrange, heq⟩
  · rwa [heq]
  · rw [heq]
    exact hinv.insertVma hpos hnew
  · rw [heq]
    exact hinv.freeAreas s hrange

/-- A new address space has no areas. -/
theorem vmMapCreate_areas {kernel : Option PageTable} {s s' : Machine S} {space : VmMap}
    (h : vmMapCreate A kernel s = (some space, s')) : space.areas = [] := by
  rw [vmMapCreate] at h
  split_ifs at h
  · cases h
  · split at h
    · cases h
    · cases h
      rfl

/-- The area list of an address space over its runs. From a new address space on, after every
sequence of operations on non-empty ranges that do not wrap, whichever node allocations fail,
the areas are strictly sorted by start, non-empty and pairwise disjoint, and a lookup returns
the one area that contains an address, or nothing when no area does. -/
theorem vmMap_areas_sorted {kernel : Option PageTable} {s₀ : Machine S} {st st' : VmState S}
    {ops : List VmOp} (hcreate : vmMapCreate A kernel s₀ = (some st.space, st.machine))
    (hrun : Run (VmStep A) st ops st') :
    st'.space.areas.Pairwise (fun a b => a.start < b.start) ∧
    (∀ v ∈ st'.space.areas, v.start < v.endAddr) ∧
    st'.space.areas.Pairwise (fun a b =>
      Disjoint (Set.Ico a.start a.endAddr) (Set.Ico b.start b.endAddr)) ∧
    ∀ addr, (∃! v, v ∈ st'.space.areas ∧ v.start ≤ addr ∧ addr < v.endAddr) ∧
        (∃ v ∈ st'.space.areas, vmMapLookup st'.space.areas addr = some v ∧
          v.start ≤ addr ∧ addr < v.endAddr) ∨
      vmMapLookup st'.space.areas addr = none ∧
        ∀ v ∈ st'.space.areas, ¬ (v.start ≤ addr ∧ addr < v.endAddr) := by
  have hchain : AreasChain st'.space.areas := by
    refine hrun.invariant (fun st => AreasChain st.space.areas)
      (fun _ _ _ hinv hstep => hstep.chain hinv) ?_
    rw [vmMapCreate_areas hcreate]
    exact ⟨by simp, List.Pairwise.nil⟩
  refine ⟨hchain.sorted, hchain.1, ?_, ?_⟩
  · refine hchain.disjoint.imp_of_mem ?_
    exact fun ha hb h => (spanDisjoint_iff (hchain.1 _ ha) (hchain.1 _ hb)).mp h
  · intro addr
    have hfind := find?_span hchain.disjoint addr
    cases hlookup : vmMapLookup st'.space.areas addr with
    | some v =>
      obtain ⟨hv, hin⟩ := (hfind v).mp hlookup
      refine .inl ⟨⟨v, ⟨hv, hin⟩, ?_⟩, v, hv, rfl, hin⟩
      exact fun w hw => mem_span_unique hchain.disjoint hw.1 hv hw.2 hin
    | none =>
      refine .inr ⟨rfl, fun v hv hin => ?_⟩
      have hsome : vmMapLookup st'.space.areas addr = some v := (hfind v).mpr ⟨hv, hin⟩
      rw [hlookup] at hsome
      cases hsome

end Runs

/-- On the small map: two pages are allocated and the first is freed again. -/
theorem vmMap_areas_sorted_sixFrameMap :
    ∃ s₀ space s st', initBitmapPmm sixFrameMap (fun _ => 0#8) = some s₀ ∧
      vmMapCreate kernelAllocators none (bootMachine s₀) = (some space, s) ∧
      Run (VmStep kernelAllocators) ⟨space, s⟩ [.allocate 5000 7, .freeRegion 0x1000 1] st' ∧
      st'.space.areas = [⟨hhdmOffset + 0x4020, 0x2000, 0x3000, 7⟩] ∧
      st'.space.areas.Pairwise (fun a b => a.start < b.start) := by
  obtain ⟨s₀, hinit⟩ := initBitmapPmm_isSome sixFrameMap_bootable (fun _ => 0#8)
  have hareas : ((initBitmapPmm sixFrameMap (fun _ => 0#8)).bind fun pages =>
      let r := vmMapCreate kernelAllocators none (bootMachine pages)
      r.1.map fun space =>
        let st := (VmOp.exec kernelAllocators (.allocate 5000 7) ⟨space, r.2⟩).2
        (space.areas, (VmOp.exec kernelAllocators (.freeRegion 0x1000 1) st).2.space.areas)) =
      some ([], [⟨hhdmOffset + 0x4020, 0x2000, 0x3000, 7⟩]) := by decide +kernel
  rw [hinit, Option.bind_some] at hareas
  obtain ⟨space, hspace, hareas⟩ := Option.map_eq_some_iff.mp hareas
  obtain ⟨hnil, hlast⟩ := Prod.mk.inj hareas
  have hcreate : vmMapCreate kernelAllocators none (bootMachine s₀) =
      (some space, (vmMapCreate kernelAllocators none (bootMachine s₀)).2) := by rw [← hspace]
  have hrun : Run (VmStep kernelAllocators)
      ⟨space, (vmMapCreate kernelAllocators none (bootMachine s₀)).2⟩
      [.allocate 5000 7, .freeRegion 0x1000 1] _ :=
    .cons ⟨⟨by decide, by rw [hnil]; decide⟩, rfl⟩ (.single ⟨⟨by decide, by decide⟩, rfl⟩)
  exact ⟨s₀, space, _, _, hinit, hcreate, hrun, hlast, (vmMap_areas_sorted hcreate hrun).1⟩

end Flos.Mm
