import Flos.Mm.KernelAlloc
import Flos.Mm.SlabRuns

/-!
# The allocators of the kernel below the address-space code

The frame manager and the three slab caches satisfy the laws that the address-space code relies
on. Ghost lists name the live objects and the slabs of each cache; the frames that count as handed
out are those in use that are no slab's.
-/

namespace Flos.Mm

open Flos.Lib

variable {P : Type*}

/-- The slab caches over one heap, with ghost lists of their live objects and their slabs. -/
structure KernelMem (P : Type*) where
  caches : CacheName → KmemCache
  heap : Heap P
  live : CacheName → List ℕ
  slabs : CacheName → List ℕ

namespace KernelMem

/-- The part of the state that belongs to one cache. -/
def cacheState (s : KernelMem P) (c : CacheName) : SlabState P :=
  ⟨s.caches c, s.heap, s.live c, s.slabs c⟩

/-- The state after a call of one cache. -/
def setCache (s : KernelMem P) (c : CacheName) (t : SlabState P) : KernelMem P :=
  ⟨Function.update s.caches c t.cache, t.heap, Function.update s.live c t.live,
    Function.update s.slabs c t.slabs⟩

/-- A call changes its own cache. -/
theorem cacheState_setCache (s : KernelMem P) (c : CacheName) (t : SlabState P) :
    (s.setCache c t).cacheState c = t := by
  simp [cacheState, setCache]

/-- A call changes nothing but the heap for the other caches. -/
theorem cacheState_setCache_of_ne (s : KernelMem P) {c d : CacheName} (h : d ≠ c)
    (t : SlabState P) :
    (s.setCache c t).cacheState d = ⟨s.caches d, t.heap, s.live d, s.slabs d⟩ := by
  simp [cacheState, setCache, h]

/-- The frames handed out: in use, and no slab's. -/
def frames (inUse : P → Set ℕ) (hhdm : ℕ) (s : KernelMem P) : Set ℕ :=
  {f | f ∈ inUse s.heap.pages ∧ ∀ c, hhdm + f ∉ s.slabs c}

/-- The live objects of a cache. -/
def objects (c : CacheName) (s : KernelMem P) : Set ℕ := {a | a ∈ s.live c}

/-- Every cache is well represented, and no two caches share a slab. -/
structure Ok (PagesOk : P → Prop) (inUse : P → Set ℕ) (hhdm : ℕ) (s : KernelMem P) : Prop where
  good : ∀ c, (s.cacheState c).Good PagesOk inUse hhdm
  apart : ∀ c d, c ≠ d → ∀ b ∈ s.slabs c, b ∉ s.slabs d

end KernelMem

/-- The frame manager and the slab caches as the address-space code sees them. -/
def kernelAlloc (F : PageSource P) (hhdm : ℕ) : KernelAlloc (KernelMem P) where
  allocPage s :=
    let r := F.allocPage s.heap.pages
    (r.1, ⟨s.caches, ⟨s.heap.mem, r.2⟩, s.live, s.slabs⟩)
  freePage s f := ⟨s.caches, ⟨s.heap.mem, F.freePage s.heap.pages f⟩, s.live, s.slabs⟩
  cacheAlloc c s :=
    match kmemCacheAlloc F hhdm (s.caches c) s.heap with
    | none => (0, s)
    | some (obj, cache, heap) =>
      (obj, s.setCache c ⟨cache, heap, if obj = 0 then s.live c else obj :: s.live c,
        (s.cacheState c).grownSlabs F hhdm⟩)
  cacheFree c s obj :=
    let r := kmemCacheFree (s.caches c) obj s.heap
    s.setCache c ⟨r.1, r.2, (s.live c).erase obj, s.slabs c⟩

/-- The sizes of `vm_area_t`, `vm_map_t` and `struct page_table_t`. -/
def CacheName.objSize : CacheName → ℕ
  | .vmAreaCache => 48
  | .vmMapCache => 16
  | .pageTableCache => 16

/-- The caches as created, with nothing allocated; `pool` gives their addresses. -/
def KernelMem.init (pool : CacheName → ℕ) (heap : Heap P) : KernelMem P :=
  ⟨fun c => kmemCacheCreate (pool c) c.objSize, heap, fun _ => [], fun _ => []⟩

section Laws

variable {F : PageSource P} {PagesOk : P → Prop} {inUse : P → Set ℕ} {hhdm limit : ℕ}

/-- The new caches are in order. -/
theorem KernelMem.init_ok (pool : CacheName → ℕ) {heap : Heap P} (hok : PagesOk heap.pages) :
    (KernelMem.init pool heap).Ok PagesOk inUse hhdm := by
  refine ⟨fun c => ⟨hok, by simp [SlabsHeld, cacheState, init],
    ⟨[], [], fun _ => [], []⟩, rfl, ?_⟩, by simp [init]⟩
  exact slabInv_create (by cases c <;> decide) _

/-- The frame manager is in order. -/
theorem KernelMem.Ok.pagesOk {s : KernelMem P} (h : s.Ok PagesOk inUse hhdm) :
    PagesOk s.heap.pages :=
  (h.good .vmMapCache).ok

/-- The rest of the kernel gets or gives back frames that no slab has. -/
theorem KernelMem.Ok.setPages {s : KernelMem P} (h : s.Ok PagesOk inUse hhdm) {pages : P}
    (hok : PagesOk pages)
    (hheld : ∀ f ∈ inUse s.heap.pages, (∃ c, hhdm + f ∈ s.slabs c) → f ∈ inUse pages) :
    (KernelMem.mk s.caches ⟨s.heap.mem, pages⟩ s.live s.slabs).Ok PagesOk inUse hhdm := by
  refine ⟨fun c => ⟨hok, fun b hb => ?_, (h.good c).inv⟩, h.apart⟩
  obtain ⟨f, hf, heq⟩ := (h.good c).held b hb
  refine ⟨f, hheld f hf ⟨c, ?_⟩, heq⟩
  rw [← heq]
  exact hb

/-- A call of one cache keeps all caches in order: it writes to its own slabs only, and a new slab
is a frame that was not in use. -/
theorem KernelMem.Ok.setCache {s : KernelMem P} (h : s.Ok PagesOk inUse hhdm) {c : CacheName}
    {t : SlabState P} (hgood : t.Good PagesOk inUse hhdm)
    (hmem : ∀ x, (∀ b ∈ t.slabs, ¬ (b ≤ x ∧ x < b + 4096)) → t.heap.mem x = s.heap.mem x)
    (hpages : inUse s.heap.pages ⊆ inUse t.heap.pages)
    (hslabs : ∀ b ∈ t.slabs, b ∈ s.slabs c ∨ ∃ f, b = hhdm + f ∧ f ∉ inUse s.heap.pages) :
    (s.setCache c t).Ok PagesOk inUse hhdm := by
  -- a slab of another cache is none of the slabs behind the call
  have hother : ∀ d ≠ c, ∀ b ∈ s.slabs d, b ∉ t.slabs := by
    intro d hdc b hb hb'
    rcases hslabs b hb' with hold | ⟨f, hf, hfree⟩
    · exact h.apart d c hdc b hb hold
    · obtain ⟨f', hf', heq⟩ := (h.good d).held b hb
      obtain rfl : f = f' := by omega
      exact hfree hf'
  have hdvd : ∀ b ∈ t.slabs, 4096 ∣ b := by
    obtain ⟨g, hg, hinv⟩ := hgood.inv
    exact fun b hb => (hinv.shape.page b (hg ▸ hb)).1
  refine ⟨fun d => ?_, fun d e hde b hb hb' => ?_⟩
  · by_cases hdc : d = c
    · subst hdc
      rw [cacheState_setCache]
      exact hgood
    · rw [cacheState_setCache_of_ne s hdc]
      obtain ⟨g, hg, hinv⟩ := (h.good d).inv
      refine ⟨hgood.ok, fun b hb => ?_, g, hg, hinv.congr fun x hx => hmem x fun b hb hin => ?_⟩
      · obtain ⟨f, hf, heq⟩ := (h.good d).held b hb
        exact ⟨f, hpages hf, heq⟩
      · obtain ⟨b', hb', hin', -⟩ := hx
        have hdvd' := (hinv.shape.page b' hb').1
        have hdvd'' := hdvd b hb
        obtain rfl : b = b' := by omega
        have hb'' : b ∈ s.slabs d := by
          rw [hg] at hb'
          exact hb'
        exact hother d hdc b hb'' hb
  · simp only [KernelMem.setCache, Function.update_apply] at hb hb'
    by_cases hdc : d = c
    · subst hdc
      rw [if_pos rfl] at hb
      rw [if_neg (Ne.symm hde)] at hb'
      exact hother e (Ne.symm hde) b hb' hb
    · rw [if_neg hdc] at hb
      by_cases hec : e = c
      · rw [if_pos hec] at hb'
        exact hother d hdc b hb hb'
      · rw [if_neg hec] at hb'
        exact h.apart d e hde b hb hb'

/-- What a call of `kmem_cache_alloc` does to the caches. -/
theorem kernelAlloc_cacheAlloc (hF : F.LawfulPage PagesOk inUse limit)
    (hmap : DirectMap hhdm limit) {s : KernelMem P} (h : s.Ok PagesOk inUse hhdm) (c : CacheName) :
    ∃ obj s', (kernelAlloc F hhdm).cacheAlloc c s = (obj, s') ∧ s'.Ok PagesOk inUse hhdm ∧
      s'.live = Function.update s.live c (if obj = 0 then s.live c else obj :: s.live c) ∧
      (obj ≠ 0 → obj ∉ s.live c) ∧ s'.frames inUse hhdm = s.frames inUse hhdm := by
  obtain ⟨g, hslabs, hinv⟩ := (h.good c).inv
  obtain ⟨obj, cache, heap, g', heq, halloc, -, hlive, hkeep⟩ :=
    kmemCacheAlloc_spec hF hmap (h.good c).ok hinv (by rw [hslabs]; exact (h.good c).held)
  have hstep : SlabStep F PagesOk inUse hhdm (s.cacheState c) .alloc _ := .alloc heq
  obtain ⟨hgrown, -, hcases⟩ := SlabState.grownSlabs_cases hF (h.good c).ok hslabs halloc
  refine ⟨obj, _, ?_, h.setCache (hstep.good hF hmap (h.good c)) (fun x hx => hkeep x ?_) ?_
    fun b hb => ?_, rfl, fun hobj => (hlive hobj).1, ?_⟩
  · simp only [KernelMem.cacheState] at heq
    simp only [kernelAlloc, heq]
    rfl
  · rintro ⟨b, hb, hin, -⟩
    exact hx b (hgrown ▸ hb) hin
  · rcases hcases with ⟨-, hinUse⟩ | ⟨f, -, -, hinUse⟩
    · exact hinUse.ge
    · exact hinUse ▸ Set.subset_insert _ _
  · dsimp only at hb
    rcases hcases with ⟨hsame, -⟩ | ⟨f, hf, hsame, -⟩
    · rw [hsame] at hb
      exact .inl hb
    · rw [hsame] at hb
      rcases List.mem_cons.mp hb with rfl | hb
      · exact .inr ⟨f, rfl, hf⟩
      · exact .inl hb
  · ext f
    simp only [KernelMem.frames, KernelMem.setCache, Set.mem_ofPred_eq,
      Function.forall_update_iff s.slabs (fun _ l => hhdm + f ∉ l)]
    have hsplit : (∀ d, hhdm + f ∉ s.slabs d) ↔
        hhdm + f ∉ s.slabs c ∧ ∀ d ≠ c, hhdm + f ∉ s.slabs d := by
      refine ⟨fun hall => ⟨hall c, fun d _ => hall d⟩, fun hall d => ?_⟩
      by_cases hdc : d = c
      · exact hdc ▸ hall.1
      · exact hall.2 d hdc
    rw [hsplit, ← and_assoc, ← and_assoc]
    refine and_congr_left fun _ => ?_
    rcases hcases with ⟨hsame, hinUse⟩ | ⟨f', hf', hsame, hinUse⟩
    · rw [hsame, hinUse]
      exact Iff.rfl
    · rw [hsame, hinUse, Set.mem_insert_iff, List.mem_cons, Nat.add_left_cancel_iff]
      simp only [KernelMem.cacheState] at hf' ⊢
      by_cases hff : f = f' <;> simp [hff, hf']

/-- What a call of `kmem_cache_free` does to the caches. -/
theorem kernelAlloc_cacheFree (hF : F.LawfulPage PagesOk inUse limit)
    (hmap : DirectMap hhdm limit) {s : KernelMem P} (h : s.Ok PagesOk inUse hhdm) {c : CacheName}
    {obj : ℕ} (hobj : obj ∈ s.live c) :
    ((kernelAlloc F hhdm).cacheFree c s obj).Ok PagesOk inUse hhdm ∧
      ((kernelAlloc F hhdm).cacheFree c s obj).frames inUse hhdm = s.frames inUse hhdm := by
  obtain ⟨g, hslabs, hinv⟩ := (h.good c).inv
  obtain ⟨g', -, hslabs', hpages, -, hkeep⟩ := kmemCacheFree_spec hinv hobj
  have hstep : SlabStep F PagesOk inUse hhdm (s.cacheState c) (.free obj) _ := .free hobj
  have hgood := hstep.good hF hmap (h.good c)
  change (kmemCacheFree (s.caches c) obj s.heap).2.pages = s.heap.pages at hpages
  refine ⟨h.setCache hgood (fun x hx => hkeep x ?_) (by rw [hpages]) fun b hb => .inl hb, ?_⟩
  · rintro ⟨b, hb, hin, -⟩
    exact hx b (hslabs ▸ hb) hin
  · simp only [kernelAlloc, KernelMem.frames, KernelMem.setCache, hpages, Function.update_eq_self]

/-- The frame manager and the slab caches satisfy the laws. -/
theorem kernelAlloc_lawful (hF : F.Lawful PagesOk inUse limit) (hmap : DirectMap hhdm limit)
    (hlimit : limit ≤ 2 ^ 52) :
    (kernelAlloc F hhdm).Lawful (KernelMem.Ok PagesOk inUse hhdm) (KernelMem.frames inUse hhdm)
      KernelMem.objects where
  allocPage_ok s h := by
    refine h.setPages (hF.allocPage_ok _ h.pagesOk) fun f hf _ => ?_
    by_cases hfail : (F.allocPage s.heap.pages).1 = 0
    · rwa [hF.allocPage_fail _ h.pagesOk hfail]
    · rw [hF.allocPage_inUse _ h.pagesOk hfail]
      exact Set.mem_insert_of_mem _ hf
  allocPage_fail s h hfail := by
    simp only [kernelAlloc, KernelMem.frames]
    rw [hF.allocPage_fail _ h.pagesOk hfail]
  allocPage_fresh s h hsome hmem :=
    hF.allocPage_fresh _ h.pagesOk hsome hmem.1
  allocPage_frames s h hsome := by
    have hfresh := hF.allocPage_fresh _ h.pagesOk hsome
    ext f
    simp only [kernelAlloc, KernelMem.frames, Set.mem_ofPred_eq, Set.mem_insert_iff]
    rw [hF.allocPage_inUse _ h.pagesOk hsome, Set.mem_insert_iff, or_and_right,
      and_iff_left_of_imp]
    rintro rfl c hslab
    obtain ⟨f, hf, heq⟩ := (h.good c).held _ hslab
    obtain rfl : (F.allocPage s.heap.pages).1 = f := by omega
    exact hfresh hf
  allocPage_addr s h := by
    have := hF.allocPage_addr _ h.pagesOk
    simp only [kernelAlloc]
    omega
  allocPage_objects _ _ _ := rfl
  freePage_ok s f h hf := by
    refine h.setPages (hF.freePage_ok _ f h.pagesOk hf.1) fun f' hf' hslab => ?_
    rw [hF.freePage_inUse _ f h.pagesOk hf.1]
    refine ⟨hf', ?_⟩
    rintro rfl
    obtain ⟨c, hc⟩ := hslab
    exact hf.2 c hc
  freePage_frames s f h hf := by
    ext f'
    simp only [kernelAlloc, KernelMem.frames, Set.mem_ofPred_eq, Set.mem_sdiff]
    rw [hF.freePage_inUse _ f h.pagesOk hf.1, Set.mem_sdiff]
    tauto
  freePage_objects _ _ _ _ _ := rfl
  cacheAlloc_ok s c h := by
    obtain ⟨obj, s', heq, hok, -⟩ := kernelAlloc_cacheAlloc hF.toLawfulPage hmap h c
    rwa [heq]
  cacheAlloc_fail s c h hfail := by
    obtain ⟨obj, s', heq, -, hlive, -⟩ := kernelAlloc_cacheAlloc hF.toLawfulPage hmap h c
    rw [heq] at hfail ⊢
    simp only [KernelMem.objects, hlive, if_pos hfail, Function.update_eq_self]
  cacheAlloc_fresh s c h hsome := by
    obtain ⟨obj, s', heq, -, -, hnew, -⟩ := kernelAlloc_cacheAlloc hF.toLawfulPage hmap h c
    rw [heq] at hsome ⊢
    exact hnew hsome
  cacheAlloc_objects s c h hsome := by
    obtain ⟨obj, s', heq, -, hlive, -⟩ := kernelAlloc_cacheAlloc hF.toLawfulPage hmap h c
    rw [heq] at hsome ⊢
    simp only [KernelMem.objects, hlive, if_neg hsome, Function.update_self]
    ext a
    simp
  cacheAlloc_other s c d h hdc := by
    obtain ⟨obj, s', heq, -, hlive, -⟩ := kernelAlloc_cacheAlloc hF.toLawfulPage hmap h c
    rw [heq]
    simp only [KernelMem.objects, hlive, Function.update_of_ne hdc]
  cacheAlloc_frames s c h := by
    obtain ⟨obj, s', heq, -, -, -, hframes⟩ := kernelAlloc_cacheAlloc hF.toLawfulPage hmap h c
    rwa [heq]
  cacheFree_ok s c a h ha := (kernelAlloc_cacheFree hF.toLawfulPage hmap h ha).1
  cacheFree_objects s c a h ha := by
    obtain ⟨g, hslabs, hinv⟩ := (h.good c).inv
    have hnodup : (s.live c).Nodup := hinv.shape.live_nodup
    ext a'
    simp only [kernelAlloc, KernelMem.objects, KernelMem.setCache, Function.update_self,
      Set.mem_ofPred_eq, Set.mem_sdiff, Set.mem_singleton_iff]
    rw [hnodup.mem_erase_iff, and_comm]
  cacheFree_other s c d a h ha hdc := by
    simp only [kernelAlloc, KernelMem.objects, KernelMem.setCache, Function.update_of_ne hdc]
  cacheFree_frames s c a h ha := (kernelAlloc_cacheFree hF.toLawfulPage hmap h ha).2

end Laws

/-- The allocators of this kernel. -/
abbrev kernelAllocators : KernelAlloc (KernelMem Pmm) := kernelAlloc pmmSource hhdmOffset

/-- Addresses of the caches. -/
def bootPool : CacheName → ℕ
  | .vmAreaCache => 0x100
  | .vmMapCache => 0x200
  | .pageTableCache => 0x300

/-- The caches right after boot over a frame manager. -/
def bootMem (pages : Pmm) : KernelMem Pmm := KernelMem.init bootPool ⟨fun _ => 0, pages⟩

/-- A machine right after boot, with nothing written yet. -/
def bootMachine (pages : Pmm) : Machine (KernelMem Pmm) := ⟨fun _ _ => 0, bootMem pages, []⟩

/-- The allocators of this kernel satisfy the laws. -/
theorem kernelAllocators_lawful :
    kernelAllocators.Lawful (KernelMem.Ok Pmm.Ok Pmm.inUse hhdmOffset)
      (KernelMem.frames Pmm.inUse hhdmOffset) KernelMem.objects :=
  kernelAlloc_lawful pmmSource_lawful directMap_hhdmOffset (by decide)

/-- The caches are in order right after boot. -/
theorem bootMem_ok {pages : Pmm} (hok : pages.Ok) :
    (bootMem pages).Ok Pmm.Ok Pmm.inUse hhdmOffset :=
  KernelMem.init_ok _ hok

end Flos.Mm
