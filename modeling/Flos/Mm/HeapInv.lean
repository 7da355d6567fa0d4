import Flos.Mm.KernelHeap

/-!
# The invariant of the shared heap

The slab caches of the address-space code and the kernel heap are each in order, and no slab of the
former lies in a frame of the latter. Calls of either side write to their own frames only, so each
keeps the other in order, and no live object overlaps another, whichever side it comes from.
-/

namespace Flos.Mm

open Flos.Lib

variable {P : Type*} {F : PageSource P} {PagesOk : P → Prop} {inUse : P → Set ℕ} {hhdm limit : ℕ}

/-- Both sides are in order, and the slabs of the caches are not the heap's. -/
structure KernelHeap.Ok (PagesOk : P → Prop) (inUse : P → Set ℕ) (hhdm limit : ℕ)
    (s : KernelHeap P) : Prop where
  caches : s.kmem.Ok PagesOk inUse hhdm
  heap : ∃ g, KmallocInv PagesOk inUse hhdm limit ⟨s.kmallocState, s.blocks, s.others⟩ g
  slabs : ∀ c f, hhdm + f ∈ s.kmem.slabs c → f ∈ s.others
  sizes : ∀ c, c.objSize ≤ (s.kmem.caches c).size

/-- The frames of the rest of the kernel that are no slab's. -/
def KernelHeap.frames (hhdm : ℕ) (s : KernelHeap P) : Set ℕ :=
  {f | f ∈ s.others ∧ ∀ c, hhdm + f ∉ s.kmem.slabs c}

/-- The live objects of a cache. -/
def KernelHeap.objects (c : CacheName) (s : KernelHeap P) : Set ℕ := s.kmem.objects c

/-- A call of a cache does not change its object size. -/
theorem size_update {caches : CacheName → KmemCache} {c : CacheName} {cache : KmemCache}
    (hsame : SameCache (caches c) cache) (d : CacheName) :
    (Function.update caches c cache d).size = (caches d).size := by
  by_cases hdc : d = c
  · subst hdc
    rw [Function.update_self, hsame.2.1]
  · rw [Function.update_of_ne hdc]

section Calls

variable (hF : F.LawfulPage PagesOk inUse limit) (hmap : DirectMap hhdm limit)

include hF hmap

/-- What a call of `kmem_cache_alloc` does to the heap: it writes to the slabs of its cache, which may
have grown by a frame that was not in use. -/
theorem kernelAlloc_cacheAlloc_heap {s : KernelMem P} (h : s.Ok PagesOk inUse hhdm)
    (c : CacheName) :
    let s' := ((kernelAlloc F hhdm).cacheAlloc c s).2
    (∀ x, (∀ b ∈ s'.slabs c, ¬ (b ≤ x ∧ x < b + 4096)) → s'.heap.mem x = s.heap.mem x) ∧
      (∀ d, (s'.caches d).size = (s.caches d).size) ∧ (∀ d ≠ c, s'.slabs d = s.slabs d) ∧
      (s'.slabs c = s.slabs c ∧ inUse s'.heap.pages = inUse s.heap.pages ∨
        ∃ f ∉ inUse s.heap.pages, s'.slabs c = (hhdm + f) :: s.slabs c ∧
          inUse s'.heap.pages = insert f (inUse s.heap.pages)) := by
  obtain ⟨g, hslabs, hinv⟩ := (h.good c).inv
  obtain ⟨obj, cache, heap, g', heq, halloc, hsame, -, hkeep⟩ :=
    kmemCacheAlloc_spec hF hmap (h.good c).ok hinv (by rw [hslabs]; exact (h.good c).held)
  obtain ⟨hgrown, -, hcases⟩ := SlabState.grownSlabs_cases hF (h.good c).ok hslabs halloc
  simp only [KernelMem.cacheState] at heq
  simp only [kernelAlloc, heq, KernelMem.setCache, Function.update_self]
  refine ⟨fun x hx => hkeep x ?_, size_update hsame, fun d hd => Function.update_of_ne hd _ _, hcases⟩
  rintro ⟨b, hb, hin, -⟩
  exact hx b (hgrown ▸ hb) hin

omit hF hmap in
/-- What a call of `kmem_cache_free` does to the heap: it writes to the slabs of its cache. -/
theorem kernelAlloc_cacheFree_heap {s : KernelMem P} (h : s.Ok PagesOk inUse hhdm) {c : CacheName}
    {obj : ℕ} (hobj : obj ∈ s.live c) :
    let s' := (kernelAlloc F hhdm).cacheFree c s obj
    (∀ x, (∀ b ∈ s.slabs c, ¬ (b ≤ x ∧ x < b + 4096)) → s'.heap.mem x = s.heap.mem x) ∧
      (∀ d, (s'.caches d).size = (s.caches d).size) ∧ s'.slabs = s.slabs ∧
      s'.heap.pages = s.heap.pages := by
  obtain ⟨g, hslabs, hinv⟩ := (h.good c).inv
  obtain ⟨g', -, -, hpages, hsame, hkeep⟩ := kmemCacheFree_spec hinv hobj
  refine ⟨fun x hx => hkeep x ?_, size_update hsame, Function.update_eq_self _ _, hpages⟩
  rintro ⟨b, hb, hin, -⟩
  rw [hslabs] at hb
  exact hx b hb hin

end Calls

namespace KernelHeap.Ok

variable {s : KernelHeap P} (h : s.Ok PagesOk inUse hhdm limit)

include h

/-- The frames of the others are in use. -/
theorem others_inUse {f : ℕ} (hf : f ∈ s.others) : f ∈ inUse s.kmem.heap.pages := by
  obtain ⟨g, hinv⟩ := h.heap
  exact hinv.others hf

/-- A slab is the direct map of a frame of the others. -/
theorem slab_frame {c : CacheName} {b : ℕ} (hb : b ∈ s.kmem.slabs c) :
    ∃ f ∈ s.others, b = hhdm + f := by
  obtain ⟨f, -, heq⟩ := (h.caches.good c).held b hb
  exact ⟨f, h.slabs c f (heq ▸ hb), heq⟩

/-- A byte of a slab lies in no frame of the kernel heap. -/
theorem slab_apart (hmap : DirectMap hhdm limit) {c : CacheName} {b f x : ℕ}
    (hb : b ∈ s.kmem.slabs c) (hf : f ∈ inUse s.kmem.heap.pages \ s.others)
    (hx : hhdm + f ≤ x ∧ x < hhdm + f + 4096) : ¬ (b ≤ x ∧ x < b + 4096) := by
  intro hin
  obtain ⟨g, hinv⟩ := h.heap
  obtain ⟨f', hf', rfl⟩ := h.slab_frame hb
  obtain ⟨gc, hslabs, hslab⟩ := (h.caches.good c).inv
  have hdvd := (hslab.shape.page (hhdm + f') (by rw [hslabs]; exact hb)).1
  have hdvd' := (hinv.frame f ((hinv.owned f).mp hf)).1
  have haligned := hmap.aligned
  obtain rfl : f = f' := by omega
  exact hf.2 hf'

/-- A call of the address-space code or the frame manager keeps the kernel heap in order: it writes to
no frame of the heap, and the heap's frames stay what they are. -/
theorem beside {kmem : KernelMem P} {others : Set ℕ} (hcaches : kmem.Ok PagesOk inUse hhdm)
    (hmem : ∀ f ∈ inUse s.kmem.heap.pages \ s.others, ∀ x, hhdm + f ≤ x → x < hhdm + f + 4096 →
      kmem.heap.mem x = s.kmem.heap.mem x)
    (hothers : others ⊆ inUse kmem.heap.pages)
    (hframes : inUse kmem.heap.pages \ others = inUse s.kmem.heap.pages \ s.others)
    (hslabs : ∀ c f, hhdm + f ∈ kmem.slabs c → f ∈ others)
    (hsizes : ∀ c, (kmem.caches c).size = (s.kmem.caches c).size) :
    KernelHeap.Ok PagesOk inUse hhdm limit ⟨kmem, s.kmallocCaches, s.blocks, others⟩ := by
  obtain ⟨g, hinv⟩ := h.heap
  refine ⟨hcaches, ⟨g, ?_⟩, hslabs, fun c => hsizes c ▸ h.sizes c⟩
  exact hinv.elsewhere (fun f hf x h1 h2 _ => hmem f hf x h1 h2) hcaches.pagesOk hothers hframes

end KernelHeap.Ok

/-- The allocators on the shared heap satisfy the laws of the address-space code. -/
theorem kernelHeap_lawful (hF : F.Lawful PagesOk inUse limit) (hmap : DirectMap hhdm limit)
    (hlimit : limit ≤ 2 ^ 52) :
    (kernelHeap F hhdm).toKernelAlloc.Lawful (KernelHeap.Ok PagesOk inUse hhdm limit)
      (KernelHeap.frames hhdm) KernelHeap.objects where
  allocPage_ok s h := by
    have hlaw := kernelAlloc_lawful hF hmap hlimit
    have hok := h.caches.pagesOk
    have hkmem := hlaw.allocPage_ok s.kmem h.caches
    by_cases hfail : (F.allocPage s.kmem.heap.pages).1 = 0
    · have hsame := hF.allocPage_fail _ hok hfail
      refine h.beside hkmem (fun _ _ _ _ _ => rfl) ?_ ?_ ?_ fun _ => rfl
      all_goals simp only [kernelAlloc, hfail, if_true, hsame]
      · exact fun f hf => h.others_inUse hf
      · exact h.slabs
    · have hfresh := hF.allocPage_fresh _ hok hfail
      have hgrown := hF.allocPage_inUse _ hok hfail
      refine h.beside hkmem (fun _ _ _ _ _ => rfl) ?_ ?_ ?_ fun _ => rfl
      all_goals simp only [kernelAlloc, hfail, if_false, hgrown]
      · exact Set.insert_subset_insert fun f hf => h.others_inUse hf
      · ext f
        simp only [Set.mem_sdiff, Set.mem_insert_iff]
        by_cases hf : f = (F.allocPage s.kmem.heap.pages).1
        · simp [hf, hfresh]
        · simp [hf]
      · exact fun c f hf => Set.mem_insert_of_mem _ (h.slabs c f hf)
  allocPage_fail s h hfail := by
    have hfail' : (F.allocPage s.kmem.heap.pages).1 = 0 := hfail
    simp only [KernelHeap.frames, kernelHeap, kernelAlloc, hfail', if_true]
  allocPage_fresh s h hsome hmem :=
    hF.allocPage_fresh _ h.caches.pagesOk hsome (h.others_inUse hmem.1)
  allocPage_frames s h hsome := by
    have hsome' : (F.allocPage s.kmem.heap.pages).1 ≠ 0 := hsome
    have hfresh := hF.allocPage_fresh _ h.caches.pagesOk hsome'
    ext f
    simp only [KernelHeap.frames, kernelHeap, kernelAlloc, hsome', if_false, Set.mem_ofPred_eq,
      Set.mem_insert_iff]
    rw [or_and_right, and_iff_left_of_imp]
    rintro rfl c hslab
    exact hfresh (h.others_inUse (h.slabs c _ hslab))
  allocPage_addr s h := (kernelAlloc_lawful hF hmap hlimit).allocPage_addr s.kmem h.caches
  allocPage_objects _ _ _ := rfl
  freePage_ok s f h hf := by
    have hused : f ∈ s.kmem.frames inUse hhdm := ⟨h.others_inUse hf.1, hf.2⟩
    have hkmem := (kernelAlloc_lawful hF hmap hlimit).freePage_ok s.kmem f h.caches hused
    have hleft := hF.freePage_inUse _ f h.caches.pagesOk (h.others_inUse hf.1)
    refine h.beside hkmem (fun _ _ _ _ _ => rfl) ?_ ?_ (fun c f' hf' => ⟨h.slabs c f' hf', ?_⟩)
      fun _ => rfl
    · simp only [kernelAlloc, hleft]
      exact Set.sdiff_subset_sdiff_left fun f hf => h.others_inUse hf
    · simp only [kernelAlloc, hleft]
      ext f'
      simp only [Set.mem_sdiff, Set.mem_singleton_iff]
      have := hf.1
      by_cases hff : f' = f
      · subst hff
        simp [this]
      · simp [hff]
    · rintro rfl
      exact hf.2 c hf'
  freePage_frames s f h hf := by
    ext f'
    simp only [KernelHeap.frames, kernelHeap, kernelAlloc, Set.mem_ofPred_eq, Set.mem_sdiff]
    tauto
  freePage_objects _ _ _ _ _ := rfl
  cacheAlloc_ok s c h := by
    have hkmem := (kernelAlloc_lawful hF hmap hlimit).cacheAlloc_ok s.kmem c h.caches
    obtain ⟨hmem, hsizes, hslabs, hcases⟩ :=
      kernelAlloc_cacheAlloc_heap hF.toLawfulPage hmap h.caches c
    -- the slabs behind the call are those before it, and at most one new frame
    have hslab : ∀ f, hhdm + f ∈ ((kernelAlloc F hhdm).cacheAlloc c s.kmem).2.slabs c →
        f ∈ s.others ∨ f ∉ inUse s.kmem.heap.pages := by
      intro f hf
      rcases hcases with ⟨hsame, -⟩ | ⟨f', hf', hsame, -⟩
      · rw [hsame] at hf
        exact .inl (h.slabs c f hf)
      · rw [hsame] at hf
        rcases List.mem_cons.mp hf with heq | hf
        · obtain rfl : f = f' := by omega
          exact .inr hf'
        · exact .inl (h.slabs c f hf)
    refine h.beside hkmem (fun f hf x h1 h2 => hmem x fun b hb hin => ?_) ?_ ?_ (fun d f hf => ?_)
      hsizes
    · obtain ⟨f', -, rfl⟩ := (hkmem.good c).held b hb
      obtain ⟨gc, hgc, hinv⟩ := (hkmem.good c).inv
      obtain ⟨g, hheap⟩ := h.heap
      have hdvd := (hinv.shape.page (hhdm + f') (by rw [hgc]; exact hb)).1
      have hdvd' := (hheap.frame f ((hheap.owned f).mp hf)).1
      have haligned := hmap.aligned
      obtain rfl : f = f' := by omega
      exact (hslab f hb).elim hf.2 fun hfree => hfree hf.1
    · rintro f (hf | hf)
      · rcases hcases with ⟨-, hinUse⟩ | ⟨f', -, -, hinUse⟩
        · exact hinUse ▸ h.others_inUse hf
        · exact hinUse ▸ Set.mem_insert_of_mem _ (h.others_inUse hf)
      · obtain ⟨f', hf', heq⟩ := (hkmem.good c).held _ hf
        obtain rfl : f = f' := by omega
        exact hf'
    · rcases hcases with ⟨hsame, hinUse⟩ | ⟨f', hf', hsame, hinUse⟩
      · rw [hinUse]
        ext f
        simp only [Set.mem_sdiff, Set.mem_union, Set.mem_ofPred_eq, hsame]
        have := h.slabs c f
        tauto
      · rw [hinUse]
        ext f
        simp only [Set.mem_sdiff, Set.mem_union, Set.mem_ofPred_eq, hsame, Set.mem_insert_iff,
          List.mem_cons, Nat.add_left_cancel_iff]
        have := h.slabs c f
        by_cases hff : f = f'
        · subst hff
          simp [hf']
        · tauto
    · by_cases hdc : d = c
      · subst hdc
        exact .inr hf
      · rw [hslabs d hdc] at hf
        exact .inl (h.slabs d f hf)
  cacheAlloc_fail s c h hfail :=
    (kernelAlloc_lawful hF hmap hlimit).cacheAlloc_fail s.kmem c h.caches hfail
  cacheAlloc_fresh s c h hsome :=
    (kernelAlloc_lawful hF hmap hlimit).cacheAlloc_fresh s.kmem c h.caches hsome
  cacheAlloc_objects s c h hsome :=
    (kernelAlloc_lawful hF hmap hlimit).cacheAlloc_objects s.kmem c h.caches hsome
  cacheAlloc_other s c d h hdc :=
    (kernelAlloc_lawful hF hmap hlimit).cacheAlloc_other s.kmem c d h.caches hdc
  cacheAlloc_frames s c h := by
    obtain ⟨-, -, hslabs, hcases⟩ := kernelAlloc_cacheAlloc_heap hF.toLawfulPage hmap h.caches c
    ext f
    simp only [KernelHeap.frames, kernelHeap, Set.mem_ofPred_eq, Set.mem_union]
    constructor
    · rintro ⟨hf, hnot⟩
      refine ⟨hf.resolve_right (hnot c), fun d hd => hnot d ?_⟩
      by_cases hdc : d = c
      · subst hdc
        rcases hcases with ⟨hsame, -⟩ | ⟨f', -, hsame, -⟩
        · rwa [hsame]
        · rw [hsame]
          exact List.mem_cons_of_mem _ hd
      · rwa [hslabs d hdc]
    · rintro ⟨hf, hnot⟩
      refine ⟨.inl hf, fun d hd => ?_⟩
      by_cases hdc : d = c
      · subst hdc
        rcases hcases with ⟨hsame, -⟩ | ⟨f', hf', hsame, -⟩
        · exact hnot d (hsame ▸ hd)
        · rw [hsame] at hd
          rcases List.mem_cons.mp hd with heq | hd
          · obtain rfl : f = f' := by omega
            exact hf' (h.others_inUse hf)
          · exact hnot d hd
      · exact hnot d (hslabs d hdc ▸ hd)
  cacheFree_ok s c a h ha := by
    have hkmem := (kernelAlloc_lawful hF hmap hlimit).cacheFree_ok s.kmem c a h.caches ha
    obtain ⟨hmem, hsizes, hslabs, hpages⟩ := kernelAlloc_cacheFree_heap (F := F) h.caches ha
    refine h.beside hkmem (fun f hf x h1 h2 => hmem x fun b hb => ?_) ?_ ?_ (fun d f hf => ?_) hsizes
    · exact h.slab_apart hmap hb hf ⟨h1, h2⟩
    · rw [hpages]
      exact fun f hf => h.others_inUse hf
    · rw [hpages]
    · rw [hslabs] at hf
      exact h.slabs d f hf
  cacheFree_objects s c a h ha :=
    (kernelAlloc_lawful hF hmap hlimit).cacheFree_objects s.kmem c a h.caches ha
  cacheFree_other s c d a h ha hdc :=
    (kernelAlloc_lawful hF hmap hlimit).cacheFree_other s.kmem c d a h.caches ha hdc
  cacheFree_frames s c a h ha := by
    obtain ⟨-, -, hslabs, -⟩ := kernelAlloc_cacheFree_heap (F := F) h.caches ha
    simp only [KernelHeap.frames, kernelHeap, hslabs]

/-! ## Blocks -/

/-- `kmalloc` of a size that a cache serves takes no frame out of use and writes to no frame of the
others. -/
theorem KmallocInv.kmalloc_slab_heap (hF : F.LawfulPage PagesOk inUse limit)
    (hmap : DirectMap hhdm limit) {st : KmallocState P} {g : KmallocGhost}
    (hinv : KmallocInv PagesOk inUse hhdm limit st g) {size i ptr : ℕ} {k : Kmalloc P}
    (hsize : KmallocSize size) (hbacking : kmallocBacking size = .slab i)
    (heq : kmalloc F hhdm size st.k = some (ptr, k)) :
    inUse st.k.heap.pages ⊆ inUse k.heap.pages ∧
      ∀ f ∈ st.others, 4096 ∣ f → ∀ x, hhdm + f ≤ x → x < hhdm + f + 4096 →
        k.heap.mem x = st.k.heap.mem x := by
  obtain ⟨hi, -, hfit, -⟩ := kmallocBacking_slab hsize hbacking
  obtain ⟨obj, cache, heap, g', hcall, halloc, hsame, hlive, hkeep⟩ :=
    kmemCacheAlloc_spec hF hmap hinv.ok (hinv.slab i hi) (hinv.slabsHeld hi)
  -- the slabs behind the call are frames of the heap, or a frame that was not in use
  have hslab : ∀ b ∈ g'.slabs, ∃ f, b = hhdm + f ∧ f ∉ st.others ∧ 4096 ∣ f := by
    have hold : ∀ b ∈ (g.slabs i).slabs, ∃ f, b = hhdm + f ∧ f ∉ st.others ∧ 4096 ∣ f := by
      intro b hb
      obtain ⟨f, rfl, howner⟩ := (hinv.slab_owner i hi b).mp hb
      have hne : g.owner f ≠ .nobody := by simp [howner]
      exact ⟨f, rfl, ((hinv.owned f).mpr hne).2, (hinv.frame f hne).1⟩
    intro b hb
    cases halloc with
    | reuse _ _ hslabs => exact hold b (hslabs ▸ hb)
    | grow _ _ hframe hslabs =>
      rw [hslabs] at hb
      rcases List.mem_cons.mp hb with rfl | hb
      · exact ⟨_, rfl, fun hmem => hF.allocPage_fresh _ hinv.ok hframe (hinv.others hmem),
          (hF.allocPage_addr _ hinv.ok).1⟩
      · exact hold b hb
    | fail => exact hold b hb
  have hpages : inUse st.k.heap.pages ⊆ inUse heap.pages := by
    cases halloc with
    | reuse => exact le_rfl
    | grow _ _ hframe =>
      rw [hF.allocPage_inUse _ hinv.ok hframe]
      exact Set.subset_insert _ _
    | fail _ hframe => rw [hF.allocPage_fail _ hinv.ok hframe]
  have houtside : ∀ f ∈ st.others, 4096 ∣ f → ∀ x, hhdm + f ≤ x → x < hhdm + f + 4096 →
      ∀ b ∈ g'.slabs, ¬ (b ≤ x ∧ x < b + 4096) := by
    intro f hf hdvd x h1 h2 b hb hin
    obtain ⟨f', rfl, hnot, hdvd'⟩ := hslab b hb
    obtain rfl : f = f' := by omega
    exact hnot hf
  rw [kmalloc_slab hsize hbacking hcall] at heq
  split at heq
  · cases heq
    refine ⟨hpages, fun f hf hdvd x h1 h2 => hkeep x ?_⟩
    rintro ⟨b, hb, hin, -⟩
    exact houtside f hf hdvd x h1 h2 b hb hin
  next hobj =>
    cases heq
    refine ⟨hpages, fun f hf hdvd x h1 h2 => ?_⟩
    have hnew := (hlive hobj).2.shape
    have hbounds := slot_bounds (hnew.live_slot List.mem_cons_self)
    have hpage := houtside f hf hdvd x h1 h2 _ (hnew.live_slab _ List.mem_cons_self)
    rw [hsame.2.1, hinv.size i hi] at hbounds
    simp only [allocHeaderSize, slabHdr] at hbounds hfit
    refine (header_write_of_outside (by simp only; omega)).trans (hkeep x ?_)
    rintro ⟨b, hb, hin, -⟩
    exact houtside f hf hdvd x h1 h2 b hb hin

/-- `kmalloc` of a size that a cache serves keeps both sides in order. The new block is live, and the
old ones stay so. -/
theorem KernelHeap.Ok.kmalloc (hF : F.Lawful PagesOk inUse limit) (hmap : DirectMap hhdm limit)
    {s : KernelHeap P} (h : s.Ok PagesOk inUse hhdm limit) {size i : ℕ} (hsize : KmallocSize size)
    (hbacking : kmallocBacking size = .slab i) :
    let r := (kernelHeap F hhdm).kmalloc size s
    r.2.Ok PagesOk inUse hhdm limit ∧ r.2.others = s.others ∧ r.2.kmem.slabs = s.kmem.slabs ∧
      r.2.kmem.live = s.kmem.live ∧ s.blocks ⊆ r.2.blocks ∧
      (r.1 ≠ 0 → ∃ b ∈ r.2.blocks, b.ptr = r.1 ∧ b.size = size) := by
  obtain ⟨g, hinv⟩ := h.heap
  obtain ⟨ptr, k, heq, htaken, g', hinv'⟩ := hinv.kmalloc_spec hF hmap hsize
  obtain ⟨hpages, hmem⟩ := hinv.kmalloc_slab_heap hF.toLawfulPage hmap hsize hbacking heq
  have heq' : Mm.kmalloc F hhdm size s.kmallocState = some (ptr, k) := heq
  simp only [kernelHeap, heq']
  refine ⟨⟨⟨fun c => ⟨hinv'.ok, fun b hb => ?_, ?_⟩, h.caches.apart⟩, ⟨g', hinv'⟩, h.slabs, h.sizes⟩,
    trivial, trivial, trivial, ?_, fun hptr => ?_⟩
  · obtain ⟨f, hf, heq⟩ := (h.caches.good c).held b hb
    exact ⟨f, hpages hf, heq⟩
  · obtain ⟨gc, hgc, hslab⟩ := (h.caches.good c).inv
    refine ⟨gc, hgc, hslab.congr ?_⟩
    rintro x ⟨b, hb, hin, -⟩
    have hdvd := (hslab.shape.page b hb).1
    rw [hgc] at hb
    obtain ⟨f, hf, rfl⟩ := h.slab_frame hb
    have haligned := hmap.aligned
    exact hmem f hf (by omega) x hin.1 hin.2
  · split
    · exact List.Subset.refl _
    · exact List.subset_cons_self _ _
  · rw [if_neg hptr]
    refine ⟨_, List.mem_cons_self, ?_, rfl⟩
    exact Nat.sub_add_cancel (htaken hptr).1

/-! ## Live objects -/

/-- A live object of a cache, or a live block of the kernel heap. -/
inductive HeapItem
  | object (cache : CacheName) (obj : ℕ)
  | block (b : Block)
  deriving DecidableEq

/-- The first byte of an item; that of a block is its header's. -/
def HeapItem.start : HeapItem → ℕ
  | .object _ obj => obj
  | .block b => b.hdr

/-- The end of an item. -/
def HeapItem.endAddr : HeapItem → ℕ
  | .object cache obj => obj + cache.objSize
  | .block b => b.endAddr

/-- The live items. -/
def KernelHeap.items (s : KernelHeap P) : Set HeapItem :=
  {i | match i with
    | .object cache obj => obj ∈ s.kmem.live cache
    | .block b => b ∈ s.blocks}

namespace KernelHeap.Ok

variable {s : KernelHeap P} (h : s.Ok PagesOk inUse hhdm limit)

include h

/-- A live object lies in a slab of its cache, behind the header. -/
theorem object_page {c : CacheName} {a : ℕ} (ha : a ∈ s.kmem.live c) :
    pageOf a ∈ s.kmem.slabs c ∧ a + c.objSize ≤ pageOf a + 4096 := by
  obtain ⟨g, hslabs, hinv⟩ := (h.caches.good c).inv
  have hslab := hinv.shape.live_slab a ha
  have hbounds := slot_bounds (hinv.shape.live_slot ha)
  have hsize := h.sizes c
  rw [hslabs] at hslab
  simp only [KernelMem.cacheState] at hbounds
  exact ⟨hslab, by omega⟩

/-- A live object and a live block do not overlap. -/
theorem object_block_apart (hmap : DirectMap hhdm limit) {c : CacheName} {a : ℕ} {b : Block}
    (ha : a ∈ s.kmem.live c) (hb : b ∈ s.blocks) :
    a + c.objSize ≤ b.hdr ∨ b.endAddr ≤ a := by
  obtain ⟨hslab, hfit⟩ := h.object_page ha
  have hpage : pageOf a ≤ a := Nat.div_mul_le_self a 4096
  obtain ⟨g, hinv⟩ := h.heap
  by_contra hover
  have hlast : a < b.endAddr ∧ b.hdr < a + c.objSize := by omega
  -- a common byte would lie in a slab and in a frame of the heap
  have hbytes : b.hdr ≤ max a b.hdr ∧ max a b.hdr < b.endAddr := by
    simp only [Block.endAddr, allocHeaderSize] at hlast ⊢
    omega
  obtain ⟨f, howner, h1, h2⟩ := hinv.block_bytes hb hbytes
  have hf := (hinv.owned f).mpr (by rw [howner]; exact b.owner_ne)
  have hobj : 0 < c.objSize := by cases c <;> decide
  have hmax : max a b.hdr < a + c.objSize := by omega
  have hle : a ≤ max a b.hdr := le_max_left a b.hdr
  refine h.slab_apart hmap hslab hf ⟨h1, h2⟩ ?_
  omega

/-- Two live objects do not overlap. -/
theorem objects_apart {c d : CacheName} {a b : ℕ} (ha : a ∈ s.kmem.live c)
    (hb : b ∈ s.kmem.live d) (hne : HeapItem.object c a ≠ .object d b) :
    a + c.objSize ≤ b ∨ b + d.objSize ≤ a := by
  obtain ⟨hslab, hfit⟩ := h.object_page ha
  obtain ⟨hslab', hfit'⟩ := h.object_page hb
  have hpage : pageOf a ≤ a := Nat.div_mul_le_self a 4096
  have hpage' : pageOf b ≤ b := Nat.div_mul_le_self b 4096
  by_cases hsame : pageOf a = pageOf b
  · by_cases hcd : c = d
    · subst hcd
      obtain ⟨g, hslabs, hinv⟩ := (h.caches.good c).inv
      have hslot := hinv.shape.live_slot ha
      rw [hsame] at hslot
      have happart := slot_apart hslot (hinv.shape.live_slot hb) (by
        rintro rfl
        exact hne rfl)
      have hsize := h.sizes c
      simp only [KernelMem.cacheState] at happart
      omega
    · rw [hsame] at hslab
      exact absurd hslab' (h.caches.apart c d hcd _ hslab)
  · obtain ⟨i, hi⟩ : ∃ i, pageOf a = i * 4096 := ⟨_, rfl⟩
    obtain ⟨j, hj⟩ : ∃ j, pageOf b = j * 4096 := ⟨_, rfl⟩
    rw [hi, hj] at hsame
    omega

/-- No two live items overlap. -/
theorem items_apart (hmap : DirectMap hhdm limit) {i j : HeapItem} (hi : i ∈ s.items)
    (hj : j ∈ s.items) (hne : i ≠ j) : i.endAddr ≤ j.start ∨ j.endAddr ≤ i.start := by
  cases i with
  | object c a =>
    cases j with
    | object d b => exact h.objects_apart hi hj hne
    | block b => exact h.object_block_apart hmap hi hj
  | block a =>
    cases j with
    | object d b => exact (h.object_block_apart hmap hj hi).symm
    | block b =>
      obtain ⟨g, hinv⟩ := h.heap
      exact hinv.apart hi hj fun heq => hne (heq ▸ rfl)

end KernelHeap.Ok

/-! ## At boot -/

/-- The shared heap is in order right after boot. -/
theorem bootHeap_ok {pages : Pmm} (hok : pages.Ok) :
    (bootHeap pages).Ok Pmm.Ok Pmm.inUse hhdmOffset (2 ^ 43) where
  caches := bootMem_ok hok
  heap := ⟨_, kmallocInv_init (fun i => 0x400 + i * 0x100) (h := ⟨fun _ => 0, pages⟩) hok⟩
  slabs _ _ h := absurd h List.not_mem_nil
  sizes c := by
    change c.objSize ≤ (kmemCacheCreate (bootPool c) c.objSize).size
    cases c <;> decide

/-- Right after boot, a frame whose bit is set is in use and no slab. -/
theorem bootHeap_frames {pages : Pmm} {i : ℕ} (hne : i ≠ 0) (hlt : i < pages.totalPages)
    (hset : pages.isClear i = false) : i * 4096 ∈ (bootHeap pages).frames hhdmOffset := by
  have hdiv : i * 4096 / 4096 = i := Nat.mul_div_cancel i (by decide)
  refine ⟨⟨Nat.dvd_mul_left _ _, by omega, by rwa [hdiv], fun hfree => ?_⟩, fun _ => List.not_mem_nil⟩
  rw [hdiv] at hfree
  rw [hfree.2] at hset
  cases hset

end Flos.Mm
