import Flos.Mm.Custody
import Flos.Mm.HeapInv
import Flos.Mm.ImageRelease

/-!
# Area nodes and where they come from

`vm_map_free_region` and `vm_map_destroy` give the node of an area to `vm_area_cache`, wherever it came
from. The nodes of a user image are blocks of the kernel heap: `ktask_execve` takes them from `kmalloc`.
As long as no area with such a node is dropped, the cache gets back what it handed out, and caches and
heap stay in order. The first one that is dropped puts a slab of the kernel heap into the cache.
-/

namespace Flos.Mm

open Flos.Lib

/-- The entry of a call among all resources; a failed allocation has none. -/
def MemEvent.heldEntry (e : MemEvent) : Option (LedgerEvent Resource) :=
  if e.Succeeds then some e.entry else none

/-- Every other call has the entry that it has in the accounts. -/
theorem MemEvent.heldEntry_of_succeeds {e : MemEvent} (h : e.Succeeds) : e.heldEntry = some e.entry :=
  if_pos h

/-- A failed allocation has no entry. -/
theorem MemEvent.heldEntry_eq_none {e : MemEvent} (h : ¬ e.Succeeds) : e.heldEntry = none := if_neg h

/-- The calls with an entry for an object. -/
theorem MemEvent.heldEntry_iff {e : MemEvent} {c : CacheName} {a : ℕ} :
    (e.heldEntry = some (.acquire (.object c a)) ↔ a ≠ 0 ∧ e = .allocObject c a) ∧
      (e.heldEntry = some (.release (.object c a)) ↔ e = .freeObject c a) := by
  cases e with
  | allocFrame phys => simp [heldEntry, entry]
  | freeFrame phys => simp [heldEntry, entry]
  | freeObject cache obj => simp [heldEntry, entry, Succeeds]
  | allocObject cache obj =>
    by_cases hobj : (allocObject cache obj).Succeeds
    · rw [heldEntry_of_succeeds hobj, entry]
      simp only [Option.some.injEq, LedgerEvent.acquire.injEq, Resource.object.injEq,
        allocObject.injEq, reduceCtorEq, and_true, iff_and_self]
      rintro ⟨-, rfl⟩
      exact hobj
    · rw [heldEntry_eq_none hobj]
      simp only [reduceCtorEq, false_iff, allocObject.injEq, not_and, and_true]
      exact fun hne _ heq => hobj (heq ▸ hne)

variable {S : Type*}

/-- What is held behind the calls since the log had `n` entries, if the frames `code` were held before
them; `none` when something was given back that was not held. -/
def Machine.heldBook (code : List ℕ) (n : ℕ) (s : Machine S) : Option (List Resource) :=
  settle ((s.since n).filterMap MemEvent.heldEntry) (code.map .frame)

/-- A call extends the book by its entry. -/
theorem Machine.heldBook_append {s s' : Machine S} {code : List ℕ} {n : ℕ} {e : MemEvent}
    (hn : n ≤ s.log.length) (hlog : s'.log = s.log ++ [e]) :
    s'.heldBook code n = (s.heldBook code n).bind fun out => settle e.heldEntry.toList out :=
  Machine.settle_since_append _ hn hlog

/-- A new address space: the empty one of `vm_map_create`, or one with a user image, for which the
frames of the code were held before. -/
inductive NewSpace (A : HeapAlloc S) (kernel : Option PageTable) (k : KernelAddr) (fn : ℕ)
    (s : Machine S) : List ℕ → VmMap → Machine S → Prop
  | create {space : VmMap} {s' : Machine S} :
      vmMapCreate A.toKernelAlloc kernel s = (some space, s') → NewSpace A kernel k fn s [] space s'
  | execve {space : VmMap} {s' : Machine S} : ktaskExecve A kernel k fn s = some (space, s') →
      NewSpace A kernel k fn s (codePages (kernelVirtToPhys k fn)) space s'

/-- The frames held before are distinct frames of physical memory. -/
theorem NewSpace.code_spec {A : HeapAlloc S} {kernel : Option PageTable} {k : KernelAddr} {fn : ℕ}
    {s s' : Machine S} {code : List ℕ} {space : VmMap} (h : NewSpace A kernel k fn s code space s')
    (hphys : kernelVirtToPhys k fn + pageSize < 2 ^ 52) :
    code.Nodup ∧ ∀ f ∈ code, 4096 ∣ f ∧ f < 2 ^ 52 := by
  cases h with
  | create => simp
  | execve => exact codePages_spec hphys

/-- The nodes of the areas. -/
def VmMap.nodes (space : VmMap) : Set ℕ := {a | ∃ v ∈ space.areas, v.node = a}

variable {P : Type*} {F : PageSource P} {PagesOk : P → Prop} {inUse : P → Set ℕ} {hhdm limit : ℕ}

/-- Custody on the shared heap: the book shows what is held, and the nodes of the image are live blocks of
the kernel heap. -/
structure HeapCustody (PagesOk : P → Prop) (inUse : P → Set ℕ) (hhdm limit : ℕ) (image : Set ℕ)
    (code : List ℕ) (n : ℕ) (s : Machine (KernelHeap P)) (held : List Resource) : Prop where
  custody : Custody (KernelHeap.Ok PagesOk inUse hhdm limit) (KernelHeap.frames hhdm)
    KernelHeap.objects ∅ ∅ (fun _ _ => 0) s held
  grown : n ≤ s.log.length
  book : ∃ out, s.heldBook code n = some out ∧ out.Perm held
  blocks : ∀ a ∈ image, ∃ b ∈ s.alloc.blocks, b.ptr = a ∧ b.size = vmAreaSize

/-- The rest of the kernel keeps the allocators in order, gives back nothing that is held here, frees no
block that is a node of the image and does not write to held frames. -/
structure KeepsHeap (PagesOk : P → Prop) (inUse : P → Set ℕ) (hhdm limit : ℕ) (image : Set ℕ)
    (code : List ℕ) (n : ℕ) (s s' : Machine (KernelHeap P)) : Prop where
  ok : s'.alloc.Ok PagesOk inUse hhdm limit
  blocks : ∀ b ∈ s.alloc.blocks, b.ptr ∈ image → b ∈ s'.alloc.blocks
  held : ∀ out, s.heldBook code n = some out →
    ∀ r ∈ out, Live (KernelHeap.frames hhdm) KernelHeap.objects s'.alloc r
  mem : ∀ out, s.heldBook code n = some out → ∀ f, .frame f ∈ out → s'.mem f = s.mem f

/-- Area nodes go back to the allocator they came from: every node given to `vm_area_cache` since the
log had `n` entries was a live object that the cache handed out since then. Caches and heap are in order,
and no two live objects overlap. -/
structure NodesReturned (PagesOk : P → Prop) (inUse : P → Set ℕ) (hhdm limit n : ℕ)
    (s : Machine (KernelHeap P)) : Prop where
  live : ∀ before after a, s.since n = before ++ .freeObject .vmAreaCache a :: after →
    a ≠ 0 ∧ before.count (.allocObject .vmAreaCache a) =
      before.count (.freeObject .vmAreaCache a) + 1
  ok : s.alloc.Ok PagesOk inUse hhdm limit
  apart : ∀ i ∈ s.alloc.items, ∀ j ∈ s.alloc.items, i ≠ j →
    i.endAddr ≤ j.start ∨ j.endAddr ≤ i.start

/-- A node that is given back was handed out. -/
theorem NodesReturned.taken {n : ℕ} {s : Machine (KernelHeap P)} {a : ℕ}
    (h : NodesReturned PagesOk inUse hhdm limit n s) (hfreed : .freeObject .vmAreaCache a ∈ s.since n) :
    .allocObject .vmAreaCache a ∈ s.since n := by
  obtain ⟨before, after, hcalls⟩ := List.append_of_mem hfreed
  have hcount := (h.live before after a hcalls).2
  rw [hcalls]
  exact List.mem_append_left _ (List.count_pos_iff.mp (by omega))

namespace HeapCustody

variable {image : Set ℕ} {code : List ℕ} {n : ℕ} {s s' : Machine (KernelHeap P)} {e : MemEvent}
  {r : Resource} {held held' : List Resource}

/-- The order does not matter. -/
theorem perm (h : HeapCustody PagesOk inUse hhdm limit image code n s held) (hperm : held.Perm held') :
    HeapCustody PagesOk inUse hhdm limit image code n s held' := by
  obtain ⟨out, hout, hheld⟩ := h.book
  exact ⟨h.custody.perm hperm, h.grown, ⟨out, hout, hheld.trans hperm⟩, h.blocks⟩

/-- A call whose entry turns the outstanding resources into those held afterwards. -/
theorem call (h : HeapCustody PagesOk inUse hhdm limit image code n s held)
    (hlog : s'.log = s.log ++ [e]) (hblocks : s'.alloc.blocks = s.alloc.blocks)
    (hcustody : Custody (KernelHeap.Ok PagesOk inUse hhdm limit) (KernelHeap.frames hhdm)
      KernelHeap.objects ∅ ∅ (fun _ _ => 0) s' held')
    (hsettle : ∀ out, out.Perm held → ∃ out', settle e.heldEntry.toList out = some out' ∧
      out'.Perm held') : HeapCustody PagesOk inUse hhdm limit image code n s' held' := by
  obtain ⟨out, hout, hheld⟩ := h.book
  obtain ⟨out', hout', hheld'⟩ := hsettle out hheld
  refine ⟨hcustody, ?_, ⟨out', ?_, hheld'⟩, hblocks ▸ h.blocks⟩
  · rw [hlog, List.length_append]
    exact h.grown.trans (Nat.le_add_right _ _)
  · rw [Machine.heldBook_append h.grown hlog, hout, Option.bind_some, hout']

/-- A call that takes something. -/
theorem take (h : HeapCustody PagesOk inUse hhdm limit image code n s held)
    (hlog : s'.log = s.log ++ [e]) (hentry : e.heldEntry = some (.acquire r))
    (hblocks : s'.alloc.blocks = s.alloc.blocks)
    (hcustody : Custody (KernelHeap.Ok PagesOk inUse hhdm limit) (KernelHeap.frames hhdm)
      KernelHeap.objects ∅ ∅ (fun _ _ => 0) s' (r :: held)) :
    HeapCustody PagesOk inUse hhdm limit image code n s' (r :: held) := by
  refine h.call hlog hblocks hcustody fun out hheld => ⟨r :: out, ?_, hheld.cons r⟩
  rw [hentry]
  exact if_neg fun hmem => (List.nodup_cons.mp hcustody.nodup).1 (hheld.mem_iff.mp hmem)

/-- A call that gives something back. -/
theorem give (h : HeapCustody PagesOk inUse hhdm limit image code n s (r :: held))
    (hlog : s'.log = s.log ++ [e]) (hentry : e.heldEntry = some (.release r))
    (hblocks : s'.alloc.blocks = s.alloc.blocks)
    (hcustody : Custody (KernelHeap.Ok PagesOk inUse hhdm limit) (KernelHeap.frames hhdm)
      KernelHeap.objects ∅ ∅ (fun _ _ => 0) s' held) :
    HeapCustody PagesOk inUse hhdm limit image code n s' held := by
  refine h.call hlog hblocks hcustody fun out hheld => ⟨out.erase r, ?_, by simpa using hheld.erase r⟩
  rw [hentry]
  exact if_pos (hheld.mem_iff.mpr List.mem_cons_self)

/-- A call that takes nothing. -/
theorem fail (h : HeapCustody PagesOk inUse hhdm limit image code n s held)
    (hlog : s'.log = s.log ++ [e]) (hentry : e.heldEntry = none)
    (hblocks : s'.alloc.blocks = s.alloc.blocks)
    (hcustody : Custody (KernelHeap.Ok PagesOk inUse hhdm limit) (KernelHeap.frames hhdm)
      KernelHeap.objects ∅ ∅ (fun _ _ => 0) s' held) :
    HeapCustody PagesOk inUse hhdm limit image code n s' held :=
  h.call hlog hblocks hcustody fun out hheld => ⟨out, by rw [hentry]; rfl, hheld⟩

/-- What is held without a call: the log is the same. -/
theorem keep (h : HeapCustody PagesOk inUse hhdm limit image code n s held) (hlog : s'.log = s.log)
    (hcustody : Custody (KernelHeap.Ok PagesOk inUse hhdm limit) (KernelHeap.frames hhdm)
      KernelHeap.objects ∅ ∅ (fun _ _ => 0) s' held)
    (hblocks : ∀ a ∈ image, ∃ b ∈ s'.alloc.blocks, b.ptr = a ∧ b.size = vmAreaSize) :
    HeapCustody PagesOk inUse hhdm limit image code n s' held := by
  refine ⟨hcustody, hlog ▸ h.grown, ?_, hblocks⟩
  rw [Machine.heldBook, Machine.since, hlog]
  exact h.book

/-- The rest of the kernel does not disturb custody. -/
theorem elsewhere (hkeeps : KeepsHeap PagesOk inUse hhdm limit image code n s s')
    (hlog : s'.log = s.log) (held : List Resource)
    (h : HeapCustody PagesOk inUse hhdm limit image code n s held) :
    HeapCustody PagesOk inUse hhdm limit image code n s' held ∧
      ∀ f ∈ heldFrames held, s'.mem f = s.mem f := by
  obtain ⟨out, hout, hperm⟩ := h.book
  refine ⟨h.keep hlog ⟨hkeeps.ok, h.custody.nodup,
    fun r hr => hkeeps.held out hout r (hperm.mem_iff.mpr hr), h.custody.addr, by simp, by simp, by simp,
    by simp⟩ ?_, fun f hf => hkeeps.mem out hout f (hperm.mem_iff.mpr (mem_heldFrames.mp hf))⟩
  intro a ha
  obtain ⟨b, hb, rfl, hsize⟩ := h.blocks a ha
  exact ⟨b, hkeeps.blocks b hb ha, rfl, hsize⟩

/-- In custody, an object that is given back was handed out once more than it was given back before. -/
theorem count (h : HeapCustody PagesOk inUse hhdm limit image code n s held)
    {before after : List MemEvent} {c : CacheName} {a : ℕ} (hnodup : code.Nodup)
    (hcalls : s.since n = before ++ .freeObject c a :: after) :
    a ≠ 0 ∧ before.count (.allocObject c a) = before.count (.freeObject c a) + 1 := by
  obtain ⟨out, hout, -⟩ := h.book
  have hstart : (code.map Resource.frame).Nodup := hnodup.map fun _ _ => Resource.frame.inj
  have hr : Resource.object c a ∉ code.map Resource.frame := by simp
  have hne : a ≠ 0 := by
    -- a failed allocation hands out nothing, so nothing of it can be given back
    obtain ⟨e, -, he⟩ := Machine.taken_of_settle hout hcalls hstart hr
      (MemEvent.heldEntry_iff.2.mpr rfl)
    exact (MemEvent.heldEntry_iff.1.mp he).1
  refine ⟨hne, Machine.count_of_settle hout hcalls hstart hr (fun e => ?_)
    fun e => MemEvent.heldEntry_iff.2⟩
  exact MemEvent.heldEntry_iff.1.trans (and_iff_right hne)

end HeapCustody

/-- A live object of `vm_area_cache` is no block of the kernel heap. -/
theorem KernelHeap.Ok.object_ne_ptr {s : KernelHeap P} (h : s.Ok PagesOk inUse hhdm limit)
    (hmap : DirectMap hhdm limit) {a : ℕ} {b : Block} (ha : a ∈ s.kmem.live .vmAreaCache)
    (hb : b ∈ s.blocks) (hsize : b.size = vmAreaSize) : b.ptr ≠ a := by
  rintro rfl
  have hapart := h.items_apart hmap (i := .object .vmAreaCache b.ptr) (j := .block b) ha hb (by simp)
  have hobj : CacheName.vmAreaCache.objSize = vmAreaSize := rfl
  simp only [HeapItem.start, HeapItem.endAddr, Block.ptr, Block.endAddr, hsize, hobj] at hapart
  have hpos : 0 < vmAreaSize := by decide
  have hheader : 0 < allocHeaderSize := by decide
  omega

section Heap

variable (hF : F.Lawful PagesOk inUse limit) (hmap : DirectMap hhdm limit) (hlimit : limit ≤ 2 ^ 52)

include hF hmap hlimit

/-- Custody on the shared heap is a discipline of holding resources: only the null frame is borrowed, and
the nodes of the image. -/
theorem heapCustody_holding (image : Set ℕ) (code : List ℕ) (n : ℕ) :
    Holding (kernelHeap F hhdm).toKernelAlloc
      (HeapCustody PagesOk inUse hhdm limit image code n) (fun _ => True) {0} image ∅ := by
  have hC := custody_holding (kernelHeap_lawful hF hmap hlimit) ∅ ∅ (fun _ _ => 0)
  refine ⟨fun h hperm => h.perm hperm, fun h => hC.frames_nodup h.custody, fun h hf => ?_,
    fun h ha hmem => ?_, fun h hf hother hupper => ?_, fun h hsome => ?_, fun h hfail _ => ?_,
    fun h => ?_, fun h hsome => ?_, fun h hfail _ => ?_, fun h => ?_, fun _ _ => trivial⟩
  · obtain ⟨hne, hdvd, hlt, -⟩ := hC.frame_addr h.custody hf
    exact ⟨hne, hdvd, hlt, hne⟩
  · obtain ⟨b, hb, hptr, hsize⟩ := h.blocks _ hmem
    exact h.custody.ok.object_ne_ptr hmap (h.custody.live _ ha) hb hsize hptr
  · exact h.keep rfl (hC.write h.custody hf hother hupper) h.blocks
  · exact h.take rfl (MemEvent.heldEntry_of_succeeds hsome) rfl (hC.allocPage h.custody hsome)
  · exact h.fail rfl (MemEvent.heldEntry_eq_none (not_not.mpr hfail)) rfl
      (hC.allocPage_fail h.custody hfail trivial)
  · exact h.give rfl (MemEvent.heldEntry_of_succeeds trivial) rfl (hC.freePage h.custody)
  · exact h.take rfl (MemEvent.heldEntry_of_succeeds hsome) rfl (hC.cacheAlloc h.custody hsome)
  · exact h.fail rfl (MemEvent.heldEntry_eq_none (not_not.mpr hfail)) rfl
      (hC.cacheAlloc_fail h.custody hfail trivial)
  · exact h.give rfl (MemEvent.heldEntry_of_succeeds trivial) rfl (hC.cacheFree h.custody)

omit hlimit in
/-- Taking the node of an area from the kernel heap: what is held stays so, and so do the blocks. -/
theorem HeapCustody.kmalloc {code : List ℕ} {n : ℕ} {s : Machine (KernelHeap P)}
    {held : List Resource} (h : HeapCustody PagesOk inUse hhdm limit ∅ code n s held) :
    let r := s.kmalloc (kernelHeap F hhdm) vmAreaSize
    HeapCustody PagesOk inUse hhdm limit ∅ code n r.2 held ∧ s.alloc.blocks ⊆ r.2.alloc.blocks ∧
      (r.1 ≠ 0 → ∃ b ∈ r.2.alloc.blocks, b.ptr = r.1 ∧ b.size = vmAreaSize) := by
  obtain ⟨hok, hothers, hslabs, hlive, hblocks, hnew⟩ :=
    h.custody.ok.kmalloc hF hmap (show KmallocSize vmAreaSize from ⟨by decide, by decide⟩)
      (show kmallocBacking vmAreaSize = .slab 7 by decide)
  refine ⟨h.keep rfl (h.custody.keep hok rfl ?_) (by simp), hblocks, hnew⟩
  rintro (f | ⟨c, o⟩)
  · simp only [Live, KernelHeap.frames, Machine.kmalloc, hothers, hslabs]
  · simp only [Live, KernelHeap.objects, KernelMem.objects, Machine.kmalloc, hlive]

omit hF hmap hlimit in
/-- Custody at the start: the frames of the code are held. -/
theorem HeapCustody.start {s : Machine (KernelHeap P)} {code : List ℕ}
    (hok : s.alloc.Ok PagesOk inUse hhdm limit)
    (hpages : code.Nodup ∧ ∀ f ∈ code, 4096 ∣ f ∧ f < 2 ^ 52)
    (hcode : ∀ f ∈ code, f ≠ 0 ∧ f ∈ s.alloc.frames hhdm) :
    HeapCustody PagesOk inUse hhdm limit ∅ code s.log.length s (code.map .frame) := by
  obtain ⟨hnodup, hrange⟩ := hpages
  have hmem : ∀ f, .frame f ∈ code.map Resource.frame → f ∈ code := by simp
  refine ⟨⟨hok, hnodup.map fun _ _ => Resource.frame.inj, ?_,
    fun f hf => ⟨(hcode f (hmem f hf)).1, hrange f (hmem f hf)⟩, by simp, by simp, by simp, by simp⟩,
    le_rfl, ⟨_, ?_, .refl _⟩, by simp⟩
  · intro r hr
    obtain ⟨f, hf, rfl⟩ := List.mem_map.mp hr
    exact (hcode f hf).2
  · simp [Machine.heldBook, Machine.since, settle]

/-- A new address space: its record and page table, and the frames that the set-up took, are held. Its
nodes are blocks of the kernel heap. -/
theorem imageInv_newSpace {kernel : Option PageTable} {k : KernelAddr} {fn : ℕ}
    {s s' : Machine (KernelHeap P)} {code : List ℕ} {space : VmMap}
    (hok : s.alloc.Ok PagesOk inUse hhdm limit) (hphys : kernelVirtToPhys k fn + pageSize < 2 ^ 52)
    (hcode : ∀ f ∈ code, f ≠ 0 ∧ f ∈ s.alloc.frames hhdm)
    (hnew : NewSpace (kernelHeap F hhdm) kernel k fn s code space s') :
    ImageInv (HeapCustody PagesOk inUse hhdm limit space.nodes code s.log.length) {0} space.nodes
      ⟨some space, s'⟩ := by
  have hH := heapCustody_holding hF hmap hlimit ∅ code s.log.length
  have hstart := HeapCustody.start hok (hnew.code_spec hphys) hcode
  cases hnew with
  | create hcreate =>
    obtain ⟨howns, hareas, -⟩ := (hH.create rfl hstart trivial).2 space (by rw [hcreate])
    rw [hcreate] at howns
    have hnone : space.nodes = ∅ := by simp [VmMap.nodes, hareas]
    rw [hnone]
    exact ⟨_, howns⟩
  | execve hexec =>
    have hown : ownFrames {0} (codePages (kernelVirtToPhys k fn)) =
        codePages (kernelVirtToPhys k fn) :=
      ownFrames_eq_self fun f hf => (hcode f hf).1
    have hheld₀ : HeapCustody PagesOk inUse hhdm limit ∅ (codePages (kernelVirtToPhys k fn))
        s.log.length s ((ownFrames {0} (codePages (kernelVirtToPhys k fn))).map .frame ++ []) := by
      rw [hown, List.append_nil]
      exact hstart
    obtain ⟨left, s₁, ⟨htree, fs, hfs, hheld⟩, hblock, hblock', rfl, hareas⟩ :=
      hH.execve (fun _ => trivial) hphys rfl hheld₀ hexec
    obtain ⟨hheld₁, -, hnode⟩ := hheld.kmalloc hF hmap
    obtain ⟨hheld₂, hsub, hnode'⟩ := hheld₁.kmalloc hF hmap
    have hblocks : ∀ a ∈ space.nodes,
        ∃ b ∈ ((s₁.kmalloc (kernelHeap F hhdm) vmAreaSize).2.kmalloc (kernelHeap F hhdm)
          vmAreaSize).2.alloc.blocks, b.ptr = a ∧ b.size = vmAreaSize := by
      rintro a ⟨v, hv, rfl⟩
      rw [hareas] at hv
      rcases List.mem_cons.mp hv with rfl | hv
      · exact hnode' hblock'
      · obtain rfl := List.mem_singleton.mp hv
        obtain ⟨b, hb, hptr⟩ := hnode hblock
        exact ⟨b, hsub hb, hptr⟩
    have hnodes : areaNodes space.nodes space.areas = [] := by
      rw [areaNodes, List.map_eq_nil_iff, List.filter_eq_nil_iff]
      exact fun v hv => by simpa using ⟨v, hv, rfl⟩
    refine ⟨left.map .frame, ⟨htree, fs, hfs, ?_⟩, ?_⟩
    · refine HeapCustody.perm ⟨hheld₂.custody, hheld₂.grown, hheld₂.book, hblocks⟩ ?_
      rw [spaceObjects, hnodes]
      exact List.perm_append_comm.append_left _
    · rw [hareas]
      exact mapUserVmAreaCodeAndStack_aligned (by simp)

/-- Area nodes go back to the allocator they came from. In every run from a new address space, with or
without a user image, in which no operation drops an area whose node is a block of the kernel heap, every
node given back to `vm_area_cache` is a live object of it, and caches and heap stay in order. -/
theorem vmMap_run_returnsNodes {kernel : Option PageTable} {k : KernelAddr} {fn : ℕ}
    {s s' : Machine (KernelHeap P)} {code : List ℕ} {space : VmMap}
    (hok : s.alloc.Ok PagesOk inUse hhdm limit) (hphys : kernelVirtToPhys k fn + pageSize < 2 ^ 52)
    (hcode : ∀ f ∈ code, f ≠ 0 ∧ f ∈ s.alloc.frames hhdm)
    (hnew : NewSpace (kernelHeap F hhdm) kernel k fn s code space s')
    {ops : List (ImageOp (KernelHeap P))} {st : ImageState (KernelHeap P)}
    (hrun : Run (fun st op st' => ImageStep (kernelHeap F hhdm).toKernelAlloc
      (KeepsHeap PagesOk inUse hhdm limit space.nodes code s.log.length) st op st' ∧
        op.KeepsNodes space.nodes st) ⟨some space, s'⟩ ops st) :
    NodesReturned PagesOk inUse hhdm limit s.log.length st.machine := by
  have hH := heapCustody_holding hF hmap hlimit space.nodes code s.log.length
  have hinv := hrun.invariant _ (fun st op _ hinv hstep => hstep.1.inv hH
      (fun {_ _} => HeapCustody.elsewhere)
      (by simpa using (op.sparesCode_empty st).insert_zero) hstep.2 hinv)
    (imageInv_newSpace hF hmap hlimit hok hphys hcode hnew)
  obtain ⟨held, hheld⟩ := hinv.held
  exact ⟨fun _ _ _ hcalls => hheld.count (hnew.code_spec hphys).1 hcalls, hheld.custody.ok,
    fun _ hi _ hj hne => hheld.custody.ok.items_apart hmap hi hj hne⟩

end Heap

/-- On the boot map with two frames of kernel image: beside the user image three pages are allocated, the
area is split, and the release of a range frees its first part and cuts the stack. The node that is given
back came from `vm_area_cache`. -/
theorem vmMap_run_returnsNodes_kernelImageMap :
    ∃ s₀ space s' st, initBitmapPmm kernelImageMap (fun _ => 0#8) = some s₀ ∧
      NewSpace kernelHeaps none ⟨0x8000, 0xffffffff80000000⟩ 0xffffffff80000010
        ⟨fun _ _ => 0, bootHeap s₀, []⟩ [0x8000, 0x9000] space s' ∧
      Run (fun st op st' => ImageStep kernelHeaps.toKernelAlloc
          (KeepsHeap Pmm.Ok Pmm.inUse hhdmOffset (2 ^ 43) space.nodes [0x8000, 0x9000] 0) st op st' ∧
            op.KeepsNodes space.nodes st) ⟨some space, s'⟩
        [.inside (.call (.allocateRegion 0x5000 0x3000 7)), .inside (.call (.freeRegion 0x6000 0x1000)),
          .inside (.call (.freeRegion 0x4000 0x2000))] st ∧
      (∃ a, .freeObject .vmAreaCache a ∈ st.machine.since 0) ∧
      NodesReturned Pmm.Ok Pmm.inUse hhdmOffset (2 ^ 43) 0 st.machine := by
  obtain ⟨s₀, hinit⟩ := initBitmapPmm_isSome kernelImageMap_bootable (fun _ => 0#8)
  have hconcrete : ((initBitmapPmm kernelImageMap (fun _ => 0#8)).bind fun pages =>
      (ktaskExecve kernelHeaps none ⟨0x8000, 0xffffffff80000000⟩ 0xffffffff80000010
          ⟨fun _ _ => 0, bootHeap pages, []⟩).map fun image =>
        let st₁ := SpaceOp.exec kernelHeaps.toKernelAlloc (.call (.allocateRegion 0x5000 0x3000 7))
          ⟨image.1, image.2⟩
        let st₂ := SpaceOp.exec kernelHeaps.toKernelAlloc (.call (.freeRegion 0x6000 0x1000)) st₁
        let st₃ := SpaceOp.exec kernelHeaps.toKernelAlloc (.call (.freeRegion 0x4000 0x2000)) st₂
        let kept (start endAddr : ℕ) (areas : List VmArea) : Bool :=
          decide (∀ v ∈ areas, (v.start < start ∨ endAddr < v.endAddr) ∨
            v.node ∉ image.1.areas.map VmArea.node)
        (kept 0x6000 0x7000 st₁.space.areas, kept 0x4000 0x6000 st₂.space.areas,
          st₃.machine.log.filterMap fun
            | .freeObject .vmAreaCache a => some a
            | _ => none,
          decide (9 < pages.totalPages), pages.isClear 8, pages.isClear 9)) =
      some (true, true, [hhdmOffset + 0xC020], true, false, false) := by decide +kernel
  rw [hinit, Option.bind_some] at hconcrete
  obtain ⟨⟨space, s'⟩, himage, hconcrete⟩ := Option.map_eq_some_iff.mp hconcrete
  simp only [Prod.mk.injEq, decide_eq_true_eq] at hconcrete
  obtain ⟨hkept₁, hkept₂, hfreed, htotal, hfirst, hsecond⟩ := hconcrete
  set st₁ := SpaceOp.exec kernelHeaps.toKernelAlloc (.call (.allocateRegion 0x5000 0x3000 7)) ⟨space, s'⟩
  set st₂ := SpaceOp.exec kernelHeaps.toKernelAlloc (.call (.freeRegion 0x6000 0x1000)) st₁
  set st₃ := SpaceOp.exec kernelHeaps.toKernelAlloc (.call (.freeRegion 0x4000 0x2000)) st₂
  have hpages : codePages (kernelVirtToPhys ⟨0x8000, 0xffffffff80000000⟩ 0xffffffff80000010) =
      [0x8000, 0x9000] := by decide
  have hnew : NewSpace kernelHeaps none ⟨0x8000, 0xffffffff80000000⟩ 0xffffffff80000010
      ⟨fun _ _ => 0, bootHeap s₀, []⟩ [0x8000, 0x9000] space s' := hpages ▸ .execve himage
  have hkeeps : ∀ {start size endAddr : ℕ} {areas : List VmArea},
      start + pageCeil size = endAddr → (∀ v ∈ areas, (v.start < start ∨ endAddr < v.endAddr) ∨
        v.node ∉ space.areas.map VmArea.node) →
      ∀ v ∈ areas, v.node ∈ space.nodes → v.KeepsNode start (start + pageCeil size) := by
    rintro start size endAddr areas rfl hkept v hv ⟨u, hu, heq⟩
    exact (hkept v hv).resolve_right (not_not.mpr (List.mem_map.mpr ⟨u, hu, heq⟩))
  have hrun : Run (fun st op st' => ImageStep kernelHeaps.toKernelAlloc
      (KeepsHeap Pmm.Ok Pmm.inUse hhdmOffset (2 ^ 43) space.nodes [0x8000, 0x9000] 0) st op st' ∧
        op.KeepsNodes space.nodes st) ⟨some space, s'⟩
      [.inside (.call (.allocateRegion 0x5000 0x3000 7)), .inside (.call (.freeRegion 0x6000 0x1000)),
        .inside (.call (.freeRegion 0x4000 0x2000))] ⟨some st₃.space, st₃.machine⟩ := by
    refine .cons ⟨.inside ?_, trivial⟩ <| .cons ⟨.inside ?_, ?_⟩ <| .single ⟨.inside ?_, ?_⟩
    · rintro _ ⟨⟩
      exact ⟨by decide, by decide⟩
    · rintro _ ⟨⟩
      exact ⟨by decide, by decide⟩
    · rintro _ ⟨⟩ -
      exact hkeeps (by decide) hkept₁
    · rintro _ ⟨⟩
      exact ⟨by decide, by decide⟩
    · rintro _ ⟨⟩ -
      exact hkeeps (by decide) hkept₂
  have hcode : ∀ f ∈ [0x8000, 0x9000], f ≠ 0 ∧ f ∈ (bootHeap s₀).frames hhdmOffset := by
    intro f hf
    simp only [List.mem_cons, List.not_mem_nil, or_false] at hf
    rcases hf with rfl | rfl
    · exact ⟨by decide, bootHeap_frames (i := 8) (by decide) (by omega) hfirst⟩
    · exact ⟨by decide, bootHeap_frames (i := 9) (by decide) htotal hsecond⟩
  refine ⟨s₀, space, s', _, hinit, hnew, hrun, ⟨hhdmOffset + 0xC020, ?_⟩,
    vmMap_run_returnsNodes pmmSource_lawful directMap_hhdmOffset (by decide)
      (bootHeap_ok (Pmm.Ok.of_init kernelImageMap_bootable hinit)) (by decide) hcode hnew hrun⟩
  have hmem := hfreed ▸ List.mem_singleton_self (hhdmOffset + 0xC020)
  obtain ⟨e, he, hnode⟩ := List.mem_filterMap.mp hmem
  split at hnode
  · cases hnode
    exact he
  · cases hnode

/-- Freeing the stack of a user image gives a block of the kernel heap to `vm_area_cache`, which never
handed it out. The next area node is that block, while it is still allocated. -/
theorem vmMapFreeRegion_foreignNode :
    ∃ s₀ kernel s space s', initBitmapPmm kernelImageMap (fun _ => 0#8) = some s₀ ∧
      bootKernel s₀ = some (kernel, s) ∧ bootImage kernel s = some (space, s') ∧
      (∃ v ∈ space.areas, v.start = 0x3000 ∧ v.endAddr = 0x5000) ∧
      let freed := vmMapFreeRegion kernelHeaps.toKernelAlloc space 0x3000 0x2000 s'
      let r := vmMapAllocateRegion kernelHeaps.toKernelAlloc freed.1 0x3000 0x1000 7 freed.2
      ¬ NodesReturned Pmm.Ok Pmm.inUse hhdmOffset (2 ^ 43) s.log.length freed.2 ∧
        ∃ i ∈ r.2.2.alloc.items, ∃ j ∈ r.2.2.alloc.items,
          i ≠ j ∧ i.start < j.endAddr ∧ j.start < i.endAddr := by
  obtain ⟨s₀, hinit⟩ := initBitmapPmm_isSome kernelImageMap_bootable (fun _ => 0#8)
  have hconcrete : ((initBitmapPmm kernelImageMap (fun _ => 0#8)).bind fun pages =>
      (bootKernel pages).bind fun r => (bootImage r.1 r.2).map fun image =>
        let freed := vmMapFreeRegion kernelHeaps.toKernelAlloc image.1 0x3000 0x2000 image.2
        let r' := vmMapAllocateRegion kernelHeaps.toKernelAlloc freed.1 0x3000 0x1000 7 freed.2
        (decide (∃ v ∈ image.1.areas, v.start = 0x3000 ∧ v.endAddr = 0x5000),
          decide (MemEvent.freeObject .vmAreaCache (hhdmOffset + 0x12070) ∈ freed.2.since r.2.log.length ∧
            MemEvent.allocObject .vmAreaCache (hhdmOffset + 0x12070) ∉ freed.2.since r.2.log.length),
          decide (hhdmOffset + 0x12070 ∈ r'.2.2.alloc.kmem.live .vmAreaCache ∧
            ⟨hhdmOffset + 0x12060, 48⟩ ∈ r'.2.2.alloc.blocks))) =
      some (true, true, true) := by decide +kernel
  rw [hinit, Option.bind_some] at hconcrete
  obtain ⟨⟨kernel, s⟩, hkernel, hconcrete⟩ := Option.bind_eq_some_iff.mp hconcrete
  obtain ⟨⟨space, s'⟩, himage, hconcrete⟩ := Option.map_eq_some_iff.mp hconcrete
  simp only [Prod.mk.injEq, decide_eq_true_eq] at hconcrete
  obtain ⟨harea, ⟨hfreed, hnever⟩, hobject, hblock⟩ := hconcrete
  refine ⟨s₀, kernel, s, space, s', hinit, hkernel, himage, harea, fun h => hnever (h.taken hfreed),
    .object .vmAreaCache (hhdmOffset + 0x12070), hobject, .block ⟨hhdmOffset + 0x12060, 48⟩, hblock,
    by simp, by decide, by decide⟩
end Flos.Mm
