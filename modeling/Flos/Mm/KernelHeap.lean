import Flos.Mm.Execve
import Flos.Mm.FrameAccounts
import Flos.Mm.KernelMem
import Flos.Mm.KmallocRuns

/-!
# The slab caches and the kernel heap together

The three caches of the address-space code and the caches of `kmalloc` share the direct map and the
frame manager. Whatever is freed to a cache, the frame manager sees frames taken and given back
only.
-/

namespace Flos.Mm

open Flos.Lib

variable {P : Type*}

/-- The caches of the address-space code and those of `kmalloc`, with ghost records of the live
blocks and of the frames in use that are not the kernel heap's. -/
structure KernelHeap (P : Type*) where
  kmem : KernelMem P
  kmallocCaches : ℕ → KmemCache
  blocks : List Block
  others : Set ℕ

/-- The state of `kmalloc`. -/
def KernelHeap.kmallocState (s : KernelHeap P) : Kmalloc P := ⟨s.kmallocCaches, s.kmem.heap⟩

/-- The allocators of the kernel on the shared heap; a failed assertion of the slab code is a failed
allocation, as in `kernelAlloc`. -/
def kernelHeap (F : PageSource P) (hhdm : ℕ) : HeapAlloc (KernelHeap P) where
  allocPage s :=
    let r := (kernelAlloc F hhdm).allocPage s.kmem
    (r.1, { s with kmem := r.2, others := if r.1 = 0 then s.others else insert r.1 s.others })
  freePage s f :=
    { s with kmem := (kernelAlloc F hhdm).freePage s.kmem f, others := s.others \ {f} }
  cacheAlloc c s :=
    let r := (kernelAlloc F hhdm).cacheAlloc c s.kmem
    (r.1, { s with kmem := r.2, others := s.others ∪ {f | hhdm + f ∈ r.2.slabs c} })
  cacheFree c s obj := { s with kmem := (kernelAlloc F hhdm).cacheFree c s.kmem obj }
  kmalloc size s :=
    match kmalloc F hhdm size s.kmallocState with
    | none => (0, s)
    | some (ptr, k) =>
      (ptr, ⟨{ s.kmem with heap := k.heap }, k.caches,
        if ptr = 0 then s.blocks else ⟨ptr - allocHeaderSize, size⟩ :: s.blocks, s.others⟩)

/-- The frames of the kernel's frame manager that are not free. -/
def KernelHeap.used (s : KernelHeap Pmm) : Set ℕ :=
  {f | 4096 ∣ f ∧ f / 4096 ∉ s.kmem.heap.pages.freeSet}

/-- The frame manager of the kernel is in order. -/
def KernelHeap.PagesOk (s : KernelHeap Pmm) : Prop := s.kmem.heap.pages.Ok

/-- The allocators of this kernel on the shared heap. -/
abbrev kernelHeaps : HeapAlloc (KernelHeap Pmm) := kernelHeap pmmSource hhdmOffset

/-- The frame manager is in order and has no free frames beyond some. -/
def Pmm.FreeWithin (free : Set ℕ) (s : Pmm) : Prop := s.Ok ∧ s.freeSet ⊆ free

/-- Taking a frame makes no frame free. -/
theorem Pmm.FreeWithin.allocPage {free : Set ℕ} (s : Pmm) (h : s.FreeWithin free) :
    (pmmAllocPage s).2.FreeWithin free := by
  refine ⟨pmmSource_lawful.allocPage_ok s h.1, Set.Subset.trans ?_ h.2⟩
  rcases h.1.allocPage with ⟨i, -, -, -, hset⟩ | heq
  · rw [hset]
    exact Set.sdiff_subset
  · rw [heq]

/-- A call of any cache makes no frame free, whatever the memory holds. -/
theorem kmemCacheAlloc_used {obj : ℕ} {c cache : KmemCache} {h heap : Heap Pmm}
    (halloc : kmemCacheAlloc pmmSource hhdmOffset c h = some (obj, cache, heap))
    (hok : h.pages.Ok) : heap.pages.Ok ∧ heap.pages.freeSet ⊆ h.pages.freeSet :=
  kmemCacheAlloc_pages (Q := Pmm.FreeWithin h.pages.freeSet) Pmm.FreeWithin.allocPage
    ⟨hok, le_rfl⟩ halloc

/-- The allocators of this kernel satisfy the laws of frames. -/
theorem kernelHeaps_lawfulFrames :
    kernelHeaps.toKernelAlloc.LawfulFrames KernelHeap.PagesOk KernelHeap.used where
  allocPage_ok s h := pmmSource_lawful.allocPage_ok _ h
  allocPage_used s h f hf :=
    ⟨hf.1, fun hmem => hf.2 ((Pmm.FreeWithin.allocPage _ ⟨h, le_rfl⟩).2 hmem)⟩
  allocPage_fresh s h hsome hused := by
    rcases Pmm.Ok.allocPage h with ⟨i, hfree, -, haddr, -⟩ | heq
    · change (pmmAllocPage s.kmem.heap.pages).1 ∈ s.used at hused
      rw [haddr] at hused
      refine hused.2 ?_
      rwa [Nat.mul_div_cancel i (show 0 < 4096 by decide)]
    · exact hsome (by simp [kernelHeap, kernelAlloc, pmmSource, heq])
  allocPage_taken s h hsome := by
    rcases Pmm.Ok.allocPage h with ⟨i, -, -, haddr, hset⟩ | heq
    · change (pmmAllocPage s.kmem.heap.pages).1 ∈
        {f | 4096 ∣ f ∧ f / 4096 ∉ (pmmAllocPage s.kmem.heap.pages).2.freeSet}
      rw [haddr, hset]
      refine ⟨Nat.dvd_mul_left _ _, ?_⟩
      rw [Nat.mul_div_cancel i (show 0 < 4096 by decide)]
      exact fun hmem => hmem.2 rfl
    · exact absurd (by simp [kernelHeap, kernelAlloc, pmmSource, heq]) hsome
  allocPage_addr s h := by
    have haddr := pmmSource_lawful.allocPage_addr _ h
    simp only [kernelHeap, kernelAlloc]
    omega
  freePage_ok s f h hf hne := by
    refine Pmm.Ok.exec h (.freePage f) ?_
    change (0 : ℕ) ∉ (pmmFreePage s.kmem.heap.pages f).freeSet
    rw [pmmFreePage_freeSet (Pmm.Ok.small h)]
    rintro (hz | ⟨hz, -⟩)
    · exact Pmm.Ok.zero h hz
    · have := hf.1
      omega
  freePage_used s f h hf g hg := by
    refine ⟨hg.1.1, ?_⟩
    change g / 4096 ∉ (pmmFreePage s.kmem.heap.pages f).freeSet
    rw [pmmFreePage_freeSet (Pmm.Ok.small h)]
    rintro (hmem | ⟨heq, -⟩)
    · exact hg.1.2 hmem
    · refine hg.2 ?_
      have := hg.1.1
      have := hf.1
      rw [Set.mem_singleton_iff]
      omega
  cacheAlloc_ok s c h := by
    simp only [KernelHeap.PagesOk, kernelHeap, kernelAlloc]
    split
    · exact h
    next heq => exact (kmemCacheAlloc_used heq h).1
  cacheAlloc_used s c h f hf := by
    simp only [KernelHeap.used, kernelHeap, kernelAlloc]
    split
    · exact hf
    next heq => exact ⟨hf.1, fun hmem => hf.2 ((kmemCacheAlloc_used heq h).2 hmem)⟩
  cacheFree_ok s c a h := by
    simp only [KernelHeap.PagesOk, kernelHeap, kernelAlloc, KernelMem.setCache, kmemCacheFree]
    split
    · exact h
    · split <;> exact h
  cacheFree_used s c a h f hf := by
    simp only [KernelHeap.used, kernelHeap, kernelAlloc, KernelMem.setCache, kmemCacheFree]
    split
    · exact hf
    · split <;> exact hf

/-- `kmalloc` of an area node makes no frame free. -/
theorem kernelHeaps_kmalloc_used {s : KernelHeap Pmm} (h : s.PagesOk) :
    (kernelHeaps.kmalloc vmAreaSize s).2.PagesOk ∧
      s.used ⊆ (kernelHeaps.kmalloc vmAreaSize s).2.used := by
  have hidx : kmallocIndex (kmallocTotal vmAreaSize) = 7 := by decide
  simp only [kernelHeap]
  split
  · exact ⟨h, le_rfl⟩
  next ptr k hk =>
    rw [kmalloc, if_neg (by decide)] at hk
    simp only [hidx, show (0 : ℤ) ≤ 7 by decide, if_true] at hk
    split at hk
    · cases hk
    next hdr cache heap halloc =>
      obtain ⟨hok, hused⟩ := kmemCacheAlloc_used halloc h
      have hpages : k.heap.pages = heap.pages := by
        split at hk
        · cases hk
          rfl
        · cases hk
          rfl
      refine ⟨?_, fun f hf => ⟨hf.1, fun hmem => hf.2 ?_⟩⟩
      · change k.heap.pages.Ok
        rwa [hpages]
      · change f / 4096 ∈ k.heap.pages.freeSet at hmem
        rw [hpages] at hmem
        exact hused hmem

/-- The shared heap right after boot over a frame manager. -/
def bootHeap (pages : Pmm) : KernelHeap Pmm :=
  ⟨bootMem pages, initKmalloc fun i => 0x400 + i * 0x100, [], pages.inUse⟩

end Flos.Mm
