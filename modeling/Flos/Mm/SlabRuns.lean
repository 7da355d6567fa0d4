import Flos.Mm.SlabSpec

/-!
# Runs of a cache

Runs of `kmem_cache_alloc` and `kmem_cache_free` on a new cache, each free naming a live object,
interleaved with everything else: clients write to their objects, other code writes outside the
slabs of the cache, and the frame manager serves others. Ghost lists record the live objects
and the slabs. Every state reached satisfies the representation invariant.
-/

namespace Flos.Mm

open Flos.Lib

variable {P : Type*}

/-- A cache with the heap, and ghost lists of its live objects and its slabs. -/
structure SlabState (P : Type*) where
  cache : KmemCache
  heap : Heap P
  live : List ℕ
  slabs : List ℕ

/-- A call of the cache, or a step of the rest of the kernel to new memory and a new frame
manager. -/
inductive SlabOp (P : Type*)
  | alloc
  | free (obj : ℕ)
  | elsewhere (mem : ByteMem) (pages : P)

/-- The slabs behind a call of `kmem_cache_alloc`. -/
def SlabState.grownSlabs (F : PageSource P) (hhdm : ℕ) (st : SlabState P) : List ℕ :=
  if st.cache.NeedsFrame ∧ (F.allocPage st.heap.pages).1 ≠ 0 then
    (hhdm + (F.allocPage st.heap.pages).1) :: st.slabs
  else st.slabs

/-- One step. A free names a live object; other code keeps the bytes of the slabs outside the live
objects, and the frame manager does not take the slabs' frames back. -/
inductive SlabStep (F : PageSource P) (Ok : P → Prop) (inUse : P → Set ℕ) (hhdm : ℕ)
    (st : SlabState P) : SlabOp P → SlabState P → Prop
  | alloc {obj : ℕ} {cache : KmemCache} {heap : Heap P} :
      kmemCacheAlloc F hhdm st.cache st.heap = some (obj, cache, heap) →
      SlabStep F Ok inUse hhdm st .alloc
        ⟨cache, heap, if obj = 0 then st.live else obj :: st.live, st.grownSlabs F hhdm⟩
  | free {obj : ℕ} : obj ∈ st.live →
      SlabStep F Ok inUse hhdm st (.free obj)
        ⟨(kmemCacheFree st.cache obj st.heap).1, (kmemCacheFree st.cache obj st.heap).2,
          st.live.erase obj, st.slabs⟩
  | elsewhere {mem : ByteMem} {pages : P} :
      (∀ x, MetaByte st.cache.size st.slabs st.live x → mem x = st.heap.mem x) →
      Ok pages → SlabsHeld hhdm (inUse pages) st.slabs →
      SlabStep F Ok inUse hhdm st (.elsewhere mem pages) ⟨st.cache, ⟨mem, pages⟩, st.live, st.slabs⟩

/-- The invariant of runs. -/
structure SlabState.Good (Ok : P → Prop) (inUse : P → Set ℕ) (hhdm : ℕ) (st : SlabState P) :
    Prop where
  ok : Ok st.heap.pages
  held : SlabsHeld hhdm (inUse st.heap.pages) st.slabs
  inv : ∃ g, g.slabs = st.slabs ∧ SlabInv st.cache st.heap.mem g st.live

/-- The size of an object as the cache rounds it. -/
theorem kmemCacheCreate_size (addr : ℕ) {objSize : ℕ} (h : objSize ≤ 4096 - slabHdr) :
    8 ≤ (kmemCacheCreate addr objSize).size ∧ objSize ≤ (kmemCacheCreate addr objSize).size ∧
      (kmemCacheCreate addr objSize).size + slabHdr ≤ 4096 := by
  simp only [slabHdr] at h
  have hround : ∀ n, n ≤ 4064 → alignUp n 8 = (n + 7) / 8 * 8 := by
    intro n hn
    rw [show (8 : ℕ) = 2 ^ 3 from rfl, alignUp_two_pow n 3 (by decide),
      Nat.mod_eq_of_lt (by simp only [wordSize]; omega)]
    rfl
  simp only [kmemCacheCreate, slabHdr]
  split
  · rw [hround 8 (by omega)]
    omega
  · rw [hround objSize (by omega)]
    omega

/-- A new cache has no slabs and satisfies the invariant. -/
theorem slabInv_create {addr objSize : ℕ} (h : objSize ≤ 4096 - slabHdr) (mem : ByteMem) :
    SlabInv (kmemCacheCreate addr objSize) mem ⟨[], [], fun _ => [], []⟩ [] := by
  obtain ⟨hge, -, hle⟩ := kmemCacheCreate_size addr h
  refine ⟨⟨hge, hle, List.nodup_nil, by simp, .inr ⟨rfl, rfl⟩, by simp, by simp, rfl,
    List.nodup_nil, by simp⟩, ⟨rfl, by simp, rfl, by simp⟩⟩

section Runs

variable {F : PageSource P} {Ok : P → Prop} {inUse : P → Set ℕ} {hhdm limit : ℕ}

variable (hF : F.LawfulPage Ok inUse limit) (hmap : DirectMap hhdm limit)

include hF hmap

omit hmap in
/-- The slabs and the frames in use behind a call of `kmem_cache_alloc`: as before, or one slab
more over a frame that was not in use. -/
theorem SlabState.grownSlabs_cases {st : SlabState P} {obj : ℕ} {cache : KmemCache} {heap : Heap P}
    {g g' : SlabGhost} (hok : Ok st.heap.pages) (hslabs : g.slabs = st.slabs)
    (halloc : SlabAlloc F hhdm st.cache st.heap g obj cache heap g') :
    g'.slabs = st.grownSlabs F hhdm ∧ Ok heap.pages ∧
      (st.grownSlabs F hhdm = st.slabs ∧ inUse heap.pages = inUse st.heap.pages ∨
        ∃ f ∉ inUse st.heap.pages, st.grownSlabs F hhdm = (hhdm + f) :: st.slabs ∧
          inUse heap.pages = insert f (inUse st.heap.pages)) := by
  cases halloc with
  | reuse _ hneeds hslabs' =>
    have hgrown : st.grownSlabs F hhdm = st.slabs := if_neg fun h => hneeds h.1
    exact ⟨by rw [hslabs', hslabs, hgrown], hok, .inl ⟨hgrown, rfl⟩⟩
  | grow _ hneeds hframe hslabs' =>
    have hgrown : st.grownSlabs F hhdm = (hhdm + (F.allocPage st.heap.pages).1) :: st.slabs :=
      if_pos ⟨hneeds, hframe⟩
    exact ⟨by rw [hslabs', hslabs, hgrown], hF.allocPage_ok _ hok,
      .inr ⟨_, hF.allocPage_fresh _ hok hframe, hgrown, hF.allocPage_inUse _ hok hframe⟩⟩
  | fail _ hframe =>
    have hgrown : st.grownSlabs F hhdm = st.slabs := if_neg fun h => h.2 hframe
    exact ⟨by rw [hslabs, hgrown], hF.allocPage_ok _ hok,
      .inl ⟨hgrown, hF.allocPage_fail _ hok hframe⟩⟩

/-- One step keeps a good state good. -/
theorem SlabStep.good {st st' : SlabState P} {op : SlabOp P}
    (hstep : SlabStep F Ok inUse hhdm st op st') (hgood : st.Good Ok inUse hhdm) :
    st'.Good Ok inUse hhdm := by
  obtain ⟨g, hslabs, hinv⟩ := hgood.inv
  cases hstep with
  | @alloc obj cache heap heq =>
    obtain ⟨obj', cache', heap', g', heq', halloc, -, hlive, -⟩ :=
      kmemCacheAlloc_spec hF hmap hgood.ok hinv (hslabs ▸ hgood.held)
    obtain ⟨rfl, rfl, rfl⟩ : obj = obj' ∧ cache = cache' ∧ heap = heap' := by
      simpa using heq.symm.trans heq'
    obtain ⟨hgrown, hok, hcases⟩ := SlabState.grownSlabs_cases hF hgood.ok hslabs halloc
    refine ⟨hok, ?_, g', hgrown, ?_⟩
    · rcases hcases with ⟨hsame, hinUse⟩ | ⟨f, -, hsame, hinUse⟩
      · dsimp only
        rw [hsame, hinUse]
        exact hgood.held
      · dsimp only
        rw [hsame, hinUse]
        intro b hb
        rcases List.mem_cons.mp hb with rfl | hb
        · exact ⟨f, Set.mem_insert _ _, rfl⟩
        · obtain ⟨f', hf', rfl⟩ := hgood.held b hb
          exact ⟨f', Set.mem_insert_of_mem _ hf', rfl⟩
    · dsimp only
      by_cases hobj : obj = 0
      · rw [if_pos hobj]
        cases halloc with
        | reuse h => exact absurd hobj h
        | grow h => exact absurd hobj h
        | fail => exact hinv
      · rw [if_neg hobj]
        exact (hlive hobj).2
  | @free obj ho =>
    obtain ⟨g', hinv', hslabs', hpages, -, -⟩ := kmemCacheFree_spec hinv ho
    exact ⟨hpages ▸ hgood.ok, hpages ▸ hgood.held, g', hslabs'.trans hslabs, hinv'⟩
  | elsewhere hmem hok hheld =>
    exact ⟨hok, hheld, g, hslabs, hinv.congr fun x hx => hmem x (hslabs ▸ hx)⟩

/-- The slab allocator over whole runs. Every state reached satisfies the representation
invariant; slots lie in their page behind the header and do not overlap; and a call of
`kmem_cache_alloc` halts on no assertion, returns no live object, takes a frame only when no slot
is free, and returns `0` only when the frame allocation fails. -/
theorem kmemCache_run_safe {addr objSize : ℕ} (hsize : objSize ≤ 4096 - slabHdr) {h₀ : Heap P}
    (hok : Ok h₀.pages) {ops : List (SlabOp P)} {st : SlabState P}
    (hrun : Run (SlabStep F Ok inUse hhdm) ⟨kmemCacheCreate addr objSize, h₀, [], []⟩ ops st) :
    (∃ g, g.slabs = st.slabs ∧ SlabInv st.cache st.heap.mem g st.live) ∧
    (∀ b ∈ st.slabs, ∀ a ∈ slabSlots st.cache.size b,
      (b + slabHdr ≤ a ∧ a + st.cache.size ≤ b + 4096) ∧
      ∀ b' ∈ st.slabs, ∀ a' ∈ slabSlots st.cache.size b', a ≠ a' →
        a + st.cache.size ≤ a' ∨ a' + st.cache.size ≤ a) ∧
    ∃ obj cache heap, kmemCacheAlloc F hhdm st.cache st.heap = some (obj, cache, heap) ∧
      (obj ≠ 0 → obj ∉ st.live ∧
        ∃ b ∈ st.grownSlabs F hhdm, obj ∈ slabSlots st.cache.size b) ∧
      ((∃ b ∈ st.slabs, ∃ a ∈ slabSlots st.cache.size b, a ∉ st.live) →
        obj ≠ 0 ∧ heap.pages = st.heap.pages) ∧
      (obj = 0 → (F.allocPage st.heap.pages).1 = 0) := by
  have hgood : st.Good Ok inUse hhdm := by
    refine hrun.invariant _ (fun _ _ _ hgood hstep => hstep.good hF hmap hgood) ?_
    exact ⟨hok, by simp [SlabsHeld], _, rfl, slabInv_create hsize _⟩
  obtain ⟨g, hslabs, hinv⟩ := hgood.inv
  have hshape := hinv.shape
  refine ⟨hgood.inv, ?_, ?_⟩
  · intro b hb a ha
    refine ⟨slot_bounds ha, fun b' hb' a' ha' hne => ?_⟩
    by_cases hbb : b = b'
    · exact slot_apart ha (hbb ▸ ha') hne
    · have hdvd := (hshape.page b (hslabs ▸ hb)).1
      have hdvd' := (hshape.page b' (hslabs ▸ hb')).1
      have hbounds := slot_bounds ha
      have hbounds' := slot_bounds ha'
      simp only [slabHdr] at hbounds hbounds'
      omega
  · obtain ⟨obj, cache, heap, g', heq, halloc, hsame, hlive, -⟩ :=
      kmemCacheAlloc_spec hF hmap hgood.ok hinv (hslabs ▸ hgood.held)
    have hslot : obj ≠ 0 → ∃ b ∈ g'.slabs, obj ∈ slabSlots st.cache.size b := by
      intro hobj
      have hinv' := (hlive hobj).2
      rw [← hsame.2.1]
      exact ⟨_, hinv'.shape.live_slab _ List.mem_cons_self, hinv'.shape.live_slot List.mem_cons_self⟩
    have hfree : (∃ b ∈ st.slabs, ∃ a ∈ slabSlots st.cache.size b, a ∉ st.live) →
        ¬ st.cache.NeedsFrame := by
      rintro ⟨b, hb, a, ha, hnot⟩ hneeds
      have hnil := hinv.needsFrame_iff.mp hneeds b (hslabs ▸ hb)
      have hmem := (hshape.place b (hslabs ▸ hb)).mem_iff.mp ha
      rw [hnil, List.append_nil] at hmem
      exact hnot (mem_liveOf.mp hmem).1
    refine ⟨obj, cache, heap, heq, fun hobj => ⟨(hlive hobj).1, ?_⟩, ?_, ?_⟩
    · obtain ⟨b, hb, hin⟩ := hslot hobj
      exact ⟨b, (SlabState.grownSlabs_cases hF hgood.ok hslabs halloc).1 ▸ hb, hin⟩
    · intro hex
      cases halloc with
      | reuse hobj => exact ⟨hobj, rfl⟩
      | grow _ hneeds => exact absurd hneeds (hfree hex)
      | fail hneeds => exact absurd hneeds (hfree hex)
    · intro hobj
      cases halloc with
      | reuse h => exact absurd hobj h
      | grow h => exact absurd hobj h
      | fail _ hframe => exact hframe

end Runs

/-- The start of the direct map on this architecture. -/
abbrev hhdmOffset : ℕ := 0xffff800000000000

/-- The direct map covers every frame that the frame manager can manage. -/
theorem directMap_hhdmOffset : DirectMap hhdmOffset (2 ^ 43) := ⟨by decide, by decide⟩

section Calls

variable {F : PageSource P} {Ok : P → Prop} {inUse : P → Set ℕ} {hhdm : ℕ}

/-- A call of the cache as a function, for runs in which nothing else happens. -/
def SlabState.call (F : PageSource P) (hhdm : ℕ) (st : SlabState P) : SlabOp P → Option (SlabState P)
  | .alloc => (kmemCacheAlloc F hhdm st.cache st.heap).map fun r =>
      ⟨r.2.1, r.2.2, if r.1 = 0 then st.live else r.1 :: st.live, st.grownSlabs F hhdm⟩
  | .free obj =>
    if obj ∈ st.live then
      some ⟨(kmemCacheFree st.cache obj st.heap).1, (kmemCacheFree st.cache obj st.heap).2,
        st.live.erase obj, st.slabs⟩
    else none
  | .elsewhere _ _ => none

/-- A call is a step. -/
theorem SlabState.step_of_call {st st' : SlabState P} {op : SlabOp P} (h : st.call F hhdm op = some st') :
    SlabStep F Ok inUse hhdm st op st' := by
  cases op with
  | alloc =>
    obtain ⟨⟨obj, cache, heap⟩, heq, rfl⟩ := Option.map_eq_some_iff.mp h
    exact .alloc heq
  | free obj =>
    rw [SlabState.call] at h
    split at h
    next hlive =>
      obtain rfl := Option.some.inj h
      exact .free hlive
    next => cases h
  | elsewhere => cases h

/-- Calls one after the other are a run. -/
theorem SlabState.run_of_calls {st st' : SlabState P} {ops : List (SlabOp P)}
    (h : ops.foldlM (SlabState.call F hhdm) st = some st') : Run (SlabStep F Ok inUse hhdm) st ops st' := by
  induction ops generalizing st with
  | nil =>
    obtain rfl := Option.some.inj h
    exact .nil st
  | cons op ops ih =>
    rw [List.foldlM_cons] at h
    obtain ⟨mid, hfirst, hrest⟩ := Option.bind_eq_some_iff.mp h
    exact .cons (SlabState.step_of_call hfirst) (ih hrest)

end Calls

/-- On the small map a cache of 1024-byte objects takes frame 1 for three objects and frame 2 for the fourth.
Once the second one is freed, the next call takes no frame. -/
theorem kmemCache_run_safe_sixFrameMap :
    ∃ s₀ st, initBitmapPmm sixFrameMap (fun _ => 0#8) = some s₀ ∧
      Run (SlabStep pmmSource Pmm.Ok Pmm.inUse hhdmOffset)
        ⟨kmemCacheCreate 0x100 1024, ⟨fun _ => 0, s₀⟩, [], []⟩
        [.alloc, .alloc, .alloc, .alloc, .free (hhdmOffset + 0x1420)] st ∧
      st.slabs = [hhdmOffset + 0x2000, hhdmOffset + 0x1000] ∧
      st.live = [hhdmOffset + 0x2020, hhdmOffset + 0x1820, hhdmOffset + 0x1020] ∧
      (∃ g, g.slabs = st.slabs ∧ SlabInv st.cache st.heap.mem g st.live) ∧
      ∃ obj cache heap, kmemCacheAlloc pmmSource hhdmOffset st.cache st.heap = some (obj, cache, heap) ∧
        obj ≠ 0 ∧ obj ∉ st.live ∧ heap.pages = st.heap.pages := by
  obtain ⟨s₀, hinit⟩ := initBitmapPmm_isSome sixFrameMap_bootable (fun _ => 0#8)
  have hcalls : ((initBitmapPmm sixFrameMap (fun _ => 0#8)).bind fun s =>
      ([.alloc, .alloc, .alloc, .alloc, .free (hhdmOffset + 0x1420)].foldlM (SlabState.call pmmSource hhdmOffset)
        ⟨kmemCacheCreate 0x100 1024, ⟨fun _ => 0, s⟩, [], []⟩).map fun st =>
          (st.slabs, st.live, st.cache.size)) =
      some ([hhdmOffset + 0x2000, hhdmOffset + 0x1000],
        [hhdmOffset + 0x2020, hhdmOffset + 0x1820, hhdmOffset + 0x1020], 1024) := by decide +kernel
  rw [hinit, Option.bind_some] at hcalls
  obtain ⟨st, heq, hst⟩ := Option.map_eq_some_iff.mp hcalls
  obtain ⟨hslabs, hst⟩ := Prod.mk.inj hst
  obtain ⟨hlive, hsize⟩ := Prod.mk.inj hst
  have hrun : Run (SlabStep pmmSource Pmm.Ok Pmm.inUse hhdmOffset) _ _ st := SlabState.run_of_calls heq
  obtain ⟨hinv, -, obj, cache, heap, halloc, hnew, hreuse, -⟩ :=
    kmemCache_run_safe pmmSource_lawful.toLawfulPage directMap_hhdmOffset (by decide)
      (Pmm.Ok.of_init sixFrameMap_bootable hinit) hrun
  have hfree : ∃ b ∈ st.slabs, ∃ a ∈ slabSlots st.cache.size b, a ∉ st.live := by
    rw [hslabs, hlive, hsize]
    exact ⟨hhdmOffset + 0x1000, by decide, hhdmOffset + 0x1420, by decide, by decide⟩
  obtain ⟨hobj, hpages⟩ := hreuse hfree
  exact ⟨s₀, st, hinit, hrun, hslabs, hlive, hinv, obj, cache, heap, halloc, hobj, (hnew hobj).1, hpages⟩

end Flos.Mm
