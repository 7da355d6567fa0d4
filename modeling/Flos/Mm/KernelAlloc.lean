import Mathlib.Data.Set.Insert
import Flos.Mm.Types

/-!
# The allocators below the address-space code

The page-table and address-space code calls the frame manager and three slab caches. Its
functions are stated over any state type with these four operations; the laws describe what
the callers rely on, namely that a successful allocation returns something not in use. The
machine state adds the physical memory, seen as 512 words per frame, and a log of the calls.
-/

namespace Flos.Mm

/-- The slab caches of the address-space code. -/
inductive CacheName
  | vmAreaCache
  | vmMapCache
  | pageTableCache
  deriving DecidableEq, Repr

/-- `pmm_alloc_page`, `pmm_free_page`, `kmem_cache_alloc` and `kmem_cache_free` on a state. -/
structure KernelAlloc (S : Type*) where
  allocPage : S → ℕ × S
  freePage : S → ℕ → S
  cacheAlloc : CacheName → S → ℕ × S
  cacheFree : CacheName → S → ℕ → S

/-- The laws of frame allocation.

`frames` are the frames handed out and not yet freed. A failed allocation returns `0` and takes
nothing; a successful one returns an aligned frame below the physical address limit that was
not in use. -/
structure KernelAlloc.LawfulPages {S : Type*} (A : KernelAlloc S) (Ok : S → Prop)
    (frames : S → Set ℕ) : Prop where
  allocPage_ok : ∀ s, Ok s → Ok (A.allocPage s).2
  allocPage_fail : ∀ s, Ok s → (A.allocPage s).1 = 0 → frames (A.allocPage s).2 = frames s
  allocPage_fresh : ∀ s, Ok s → (A.allocPage s).1 ≠ 0 → (A.allocPage s).1 ∉ frames s
  allocPage_frames : ∀ s, Ok s → (A.allocPage s).1 ≠ 0 →
    frames (A.allocPage s).2 = insert (A.allocPage s).1 (frames s)
  allocPage_addr : ∀ s, Ok s → 4096 ∣ (A.allocPage s).1 ∧ (A.allocPage s).1 < 2 ^ 52

/-- The laws of all four operations; `objects` are the live objects of each cache. -/
structure KernelAlloc.Lawful {S : Type*} (A : KernelAlloc S) (Ok : S → Prop)
    (frames : S → Set ℕ) (objects : CacheName → S → Set ℕ) : Prop
    extends A.LawfulPages Ok frames where
  allocPage_objects : ∀ s c, Ok s → objects c (A.allocPage s).2 = objects c s
  freePage_ok : ∀ s f, Ok s → f ∈ frames s → Ok (A.freePage s f)
  freePage_frames : ∀ s f, Ok s → f ∈ frames s → frames (A.freePage s f) = frames s \ {f}
  freePage_objects : ∀ s f c, Ok s → f ∈ frames s → objects c (A.freePage s f) = objects c s
  cacheAlloc_ok : ∀ s c, Ok s → Ok (A.cacheAlloc c s).2
  cacheAlloc_fail : ∀ s c, Ok s → (A.cacheAlloc c s).1 = 0 →
    objects c (A.cacheAlloc c s).2 = objects c s
  cacheAlloc_fresh : ∀ s c, Ok s → (A.cacheAlloc c s).1 ≠ 0 →
    (A.cacheAlloc c s).1 ∉ objects c s
  cacheAlloc_objects : ∀ s c, Ok s → (A.cacheAlloc c s).1 ≠ 0 →
    objects c (A.cacheAlloc c s).2 = insert (A.cacheAlloc c s).1 (objects c s)
  cacheAlloc_other : ∀ s c d, Ok s → d ≠ c → objects d (A.cacheAlloc c s).2 = objects d s
  cacheAlloc_frames : ∀ s c, Ok s → frames (A.cacheAlloc c s).2 = frames s
  cacheFree_ok : ∀ s c a, Ok s → a ∈ objects c s → Ok (A.cacheFree c s a)
  cacheFree_objects : ∀ s c a, Ok s → a ∈ objects c s →
    objects c (A.cacheFree c s a) = objects c s \ {a}
  cacheFree_other : ∀ s c d a, Ok s → a ∈ objects c s → d ≠ c →
    objects d (A.cacheFree c s a) = objects d s
  cacheFree_frames : ∀ s c a, Ok s → a ∈ objects c s → frames (A.cacheFree c s a) = frames s

/-- A call of an allocator; `0` is the result of a failed allocation. -/
inductive MemEvent
  | allocFrame (phys : ℕ)
  | freeFrame (phys : ℕ)
  | allocObject (cache : CacheName) (obj : ℕ)
  | freeObject (cache : CacheName) (obj : ℕ)
  deriving DecidableEq, Repr

/-- Physical memory by frame and word, the allocators' state, and the calls made so far. -/
structure Machine (S : Type*) where
  mem : ℕ → Fin 512 → ℕ
  alloc : S
  log : List MemEvent

section Operations

variable {S : Type*} (A : KernelAlloc S) (s : Machine S)

/-- `pmm_alloc_page`. -/
def Machine.allocPage : ℕ × Machine S :=
  let r := A.allocPage s.alloc
  (r.1, { s with alloc := r.2, log := s.log ++ [.allocFrame r.1] })

/-- `pmm_free_page`. -/
def Machine.freePage (phys : ℕ) : Machine S :=
  { s with alloc := A.freePage s.alloc phys, log := s.log ++ [.freeFrame phys] }

/-- `kmem_cache_alloc`. -/
def Machine.cacheAlloc (cache : CacheName) : ℕ × Machine S :=
  let r := A.cacheAlloc cache s.alloc
  (r.1, { s with alloc := r.2, log := s.log ++ [.allocObject cache r.1] })

/-- `kmem_cache_free`. -/
def Machine.cacheFree (cache : CacheName) (obj : ℕ) : Machine S :=
  { s with alloc := A.cacheFree cache s.alloc obj, log := s.log ++ [.freeObject cache obj] }

/-- `memset(phys_to_higher_half_data(frame), 0, PAGE_SIZE)`. -/
def Machine.zeroFrame (frame : ℕ) : Machine S :=
  { s with mem := Function.update s.mem frame fun _ => 0 }

end Operations

end Flos.Mm
