import Flos.Lib.ByteMem
import Flos.Mm.PageSource

/-!
# The slab allocator

A slab is one page: a header, then slots of equal size. Free slots are linked through their
first word, slabs with free slots through their headers. The cache record lives in the static
cache pool and is a value here; everything else is bytes of the direct map, at `hhdm` plus the
physical address. A failed `kassert` halts the kernel, so the routines return `none` there.
-/

namespace Flos.Mm

open Flos.Lib

/-- `struct kmem_cache` with the per-CPU part spelled out; `addr` is its own address. -/
structure KmemCache where
  addr : ℕ
  size : ℕ
  objSize : ℕ
  objPerSlab : ℕ
  partialSlab : ℕ
  cpuFreelist : ℕ
  cpuSlab : ℕ
  deriving DecidableEq, Repr

/-- The bytes of the direct map and the frame manager. -/
structure Heap (P : Type*) where
  mem : ByteMem
  pages : P

/-- `ALIGN_UP(sizeof(struct slab_t), sizeof(void *))`: the header holds `freelist`, `next`,
`cache`, `inuse` and `objects` at the offsets below. -/
abbrev slabHdr : ℕ := 32

/-- The offset of `next` in `struct slab_t`; `freelist` is at offset 0. -/
abbrev slabNext : ℕ := 8

/-- The offset of `cache` in `struct slab_t`. -/
abbrev slabCache : ℕ := 16

/-- The offset of the 16-bit field `inuse` in `struct slab_t`. -/
abbrev slabInuse : ℕ := 24

/-- The offset of the 16-bit field `objects` in `struct slab_t`. -/
abbrev slabObjects : ℕ := 26

/-- `get_fp`. -/
def getFp (mem : ByteMem) (obj : ℕ) : ℕ := readLE mem obj 8

/-- `set_fp`. -/
def setFp (mem : ByteMem) (obj fp : ℕ) : ByteMem := writeLE mem obj 8 fp

/-- The loop of `alloc_new_slab`: link `n` slots from slot `i` on to their successors. -/
def linkSlots (start size : ℕ) : (n i : ℕ) → ByteMem → ByteMem
  | 0, _, mem => mem
  | n + 1, i, mem =>
    linkSlots start size n (i + 1) (setFp mem (start + i * size) (start + (i + 1) * size))

/-- The number of slots of `size` bytes in a slab. -/
def slotsPerSlab (size : ℕ) : ℕ := (pageSize - slabHdr) / size

/-- The bytes written to the page of a new slab. -/
def formatSlab (s : KmemCache) (slab : ℕ) (mem : ByteMem) : ByteMem :=
  let n := slotsPerSlab s.size
  let start := slab + slabHdr
  let mem := linkSlots start s.size (n - 1) 0 mem
  let mem := setFp mem (start + (n - 1) * s.size) 0
  let mem := writeLE mem slab 8 start
  let mem := writeLE mem (slab + slabNext) 8 0
  let mem := writeLE mem (slab + slabInuse) 2 0
  let mem := writeLE mem (slab + slabCache) 8 s.addr
  writeLE mem (slab + slabObjects) 2 n

/-- `kmem_cache_create`; `addr` is the place of the cache in the pool. -/
def kmemCacheCreate (addr objSize : ℕ) : KmemCache :=
  let objSize := if objSize < 8 then 8 else objSize
  let size := alignUp objSize 8
  { addr := addr, size := size, objSize := objSize, objPerSlab := slotsPerSlab size,
    partialSlab := 0, cpuFreelist := 0, cpuSlab := 0 }

section Operations

variable {P : Type*} (F : PageSource P) (hhdm : ℕ)

/-- `alloc_new_slab`: the slab, or `0` without a frame. -/
def allocNewSlab (s : KmemCache) (h : Heap P) : Option (ℕ × KmemCache × Heap P) :=
  let r := F.allocPage h.pages
  if r.1 = 0 then some (0, s, { h with pages := r.2 })
  else
    let slab := (hhdm + r.1) % wordSize
    let n := slotsPerSlab s.size
    -- kassert(n > 0)
    if n = 0 then none
    else some (slab, { s with objPerSlab := n }, ⟨formatSlab s slab h.mem, r.2⟩)

/-- The second half of `_refill`: hand the freelist of a slab to the CPU and take its head. -/
def adoptSlab (slab : ℕ) (s : KmemCache) (h : Heap P) : Option (ℕ × KmemCache × Heap P) :=
  let obj := readLE h.mem slab 8
  -- kassert(slab->freelist != NULL)
  if obj = 0 then none
  else
    let s := { s with cpuFreelist := getFp h.mem obj, cpuSlab := slab }
    let mem := writeLE h.mem slab 8 0
    let mem := writeLE mem (slab + slabInuse) 2 (readLE mem (slab + slabInuse) 2 + 1)
    some (obj, s, { h with mem := mem })

/-- `_refill`. -/
def refill (s : KmemCache) (h : Heap P) : Option (ℕ × KmemCache × Heap P) :=
  if s.partialSlab = 0 then
    match allocNewSlab F hhdm s h with
    | none => none
    | some (slab, s, h) => if slab = 0 then some (0, s, h) else adoptSlab slab s h
  else
    let slab := s.partialSlab
    let s := { s with partialSlab := readLE h.mem (slab + slabNext) 8 }
    adoptSlab slab s { h with mem := writeLE h.mem (slab + slabNext) 8 0 }

/-- `kmem_cache_alloc`: the object, or `0`. -/
def kmemCacheAlloc (s : KmemCache) (h : Heap P) : Option (ℕ × KmemCache × Heap P) :=
  let obj := s.cpuFreelist
  if obj ≠ 0 then
    let count := s.cpuSlab + slabInuse
    some (obj, { s with cpuFreelist := getFp h.mem obj },
      { h with mem := writeLE h.mem count 2 (readLE h.mem count 2 + 1) })
  else refill F hhdm s h

/-- `kmem_cache_free`; the decrement of `inuse` is modulo `2 ^ 16`. -/
def kmemCacheFree (s : KmemCache) (obj : ℕ) (h : Heap P) : KmemCache × Heap P :=
  let slab := alignDown obj pageSize
  let mem := writeLE h.mem (slab + slabInuse) 2 (readLE h.mem (slab + slabInuse) 2 + (2 ^ 16 - 1))
  if slab = s.cpuSlab then
    ({ s with cpuFreelist := obj }, { h with mem := setFp mem obj s.cpuFreelist })
  else
    let freelist := readLE mem slab 8
    let mem := setFp mem obj freelist
    let mem := writeLE mem slab 8 obj
    if freelist = 0 then
      ({ s with partialSlab := slab },
        { h with mem := writeLE mem (slab + slabNext) 8 s.partialSlab })
    else (s, { h with mem := mem })

end Operations

/-- A call of a slab cache takes at most one page. -/
theorem kmemCacheAlloc_pages {P : Type*} {F : PageSource P} {hhdm : ℕ} {Q : P → Prop}
    (halloc : ∀ p, Q p → Q (F.allocPage p).2) {s s' : KmemCache} {h h' : Heap P} {obj : ℕ}
    (hs : Q h.pages) (heq : kmemCacheAlloc F hhdm s h = some (obj, s', h')) : Q h'.pages := by
  have hadopt : ∀ {slab s h obj s' h'}, Q h.pages →
      adoptSlab (P := P) slab s h = some (obj, s', h') → Q h'.pages := by
    intro slab s h obj s' h' hs heq
    simp only [adoptSlab, Option.ite_none_left_eq_some, Option.some.injEq, Prod.mk.injEq] at heq
    obtain ⟨-, -, -, rfl⟩ := heq
    exact hs
  have hnew : ∀ {s h slab s' h'}, Q h.pages →
      allocNewSlab F hhdm s h = some (slab, s', h') → Q h'.pages := by
    intro s h slab s' h' hs heq
    simp only [allocNewSlab] at heq
    split at heq
    · simp only [Option.some.injEq, Prod.mk.injEq] at heq
      obtain ⟨-, -, rfl⟩ := heq
      exact halloc _ hs
    · simp only [Option.ite_none_left_eq_some, Option.some.injEq, Prod.mk.injEq] at heq
      obtain ⟨-, -, -, rfl⟩ := heq
      exact halloc _ hs
  simp only [kmemCacheAlloc, refill] at heq
  split at heq
  · simp only [Option.some.injEq, Prod.mk.injEq] at heq
    obtain ⟨-, -, rfl⟩ := heq
    exact hs
  · split at heq
    · split at heq
      · cases heq
      next hslab =>
        split at heq
        · simp only [Option.some.injEq, Prod.mk.injEq] at heq
          obtain ⟨-, -, rfl⟩ := heq
          exact hnew hs hslab
        · exact hadopt (hnew hs hslab) heq
    · refine hadopt ?_ heq
      exact hs

end Flos.Mm
