import Flos.Lib.Runs
import Flos.Mm.Firmware
import Flos.Mm.KernelHeap

/-!
# Releasing a user image

The code pages of a user image are frames of the kernel image, entered in the page table and in an
area exactly like the pages that the frame manager handed out. Releasing a range frees whatever
frame its pages are mapped to. A run stays in balance as long as no released range meets a page of
the code; the release of the code frees frames of the kernel image.
-/

namespace Flos.Mm

open Flos.Lib

variable {S : Type*}

/-- The address space of a user image, until it is destroyed. -/
structure ImageState (S : Type*) where
  space : Option VmMap
  machine : Machine S

/-- An operation inside the address space, its destruction, or a step of the rest of the kernel to
new memory and new allocators. -/
inductive ImageOp (S : Type*)
  | inside (op : SpaceOp)
  | destroy
  | elsewhere (mem : ℕ → Fin 512 → ℕ) (alloc : S)

/-- One step. Ranges are page-aligned and below `2 ^ 47`; what the rest of the kernel may do is a
parameter. -/
inductive ImageStep (A : KernelAlloc S) (Elsewhere : Machine S → Machine S → Prop) :
    ImageState S → ImageOp S → ImageState S → Prop
  | inside {space : VmMap} {s : Machine S} {op : SpaceOp} :
      (∀ call, op = .call call → call.InLowerHalf space) →
      ImageStep A Elsewhere ⟨some space, s⟩ (.inside op)
        ⟨some (op.exec A ⟨space, s⟩).space, (op.exec A ⟨space, s⟩).machine⟩
  | destroy {space : VmMap} {s : Machine S} :
      ImageStep A Elsewhere ⟨some space, s⟩ .destroy ⟨none, vmMapDestroy A space s⟩
  | elsewhere {st : ImageState S} {mem : ℕ → Fin 512 → ℕ} {alloc : S} :
      Elsewhere st.machine ⟨mem, alloc, st.machine.log⟩ →
      ImageStep A Elsewhere st (.elsewhere mem alloc) ⟨st.space, ⟨mem, alloc, st.machine.log⟩⟩

/-- The rest of the kernel keeps the frames that were taken here and not given back, and takes no frame
of the code. -/
def KeepsFrames (Ok : S → Prop) (used : S → Set ℕ) (code : Set ℕ) (n : ℕ) (s s' : Machine S) :
    Prop :=
  Ok s'.alloc ∧ code ⊆ used s'.alloc ∧ ∀ out, s.frameBook n = some out → ∀ f ∈ out,
    f ∈ used s'.alloc ∧ s'.mem f = s.mem f

/-- No page of a range is mapped to a frame of the code other than the null frame. -/
def SparesCode (code : Set ℕ) (mem : ℕ → Fin 512 → ℕ) (root start endAddr : ℕ) : Prop :=
  ∀ x, start ≤ x → x < endAddr → ∀ f ∈ code, PageLeaf mem root x f → f = 0

/-- The ranges that an operation releases spare the code. -/
def ImageOp.SparesCode (code : Set ℕ) (st : ImageState S) : ImageOp S → Prop
  | .inside (.call (.freeRegion start size)) => ∀ space, st.space = some space →
      Mm.SparesCode code st.machine.mem space.pageTable.pml4Phy start (start + pageCeil size)
  | .destroy => ∀ space, st.space = some space → ∀ v ∈ space.areas,
      Mm.SparesCode code st.machine.mem space.pageTable.pml4Phy v.start v.endAddr
  | _ => True

/-- An operation drops no area with one of some nodes: a released range that covers such an area would,
and so would the destruction of the address space. -/
def ImageOp.KeepsNodes (nodes : Set ℕ) (st : ImageState S) : ImageOp S → Prop
  | .inside (.call (.freeRegion start size)) => ∀ space, st.space = some space → size ≠ 0 →
      ∀ v ∈ space.areas, v.node ∈ nodes → v.KeepsNode start (start + pageCeil size)
  | .destroy => ∀ space, st.space = some space → ∀ v ∈ space.areas, v.node ∉ nodes
  | _ => True

/-- What holds between the steps: what is held belongs to the address space, apart from some leftovers. -/
def ImageInv (H : Machine S → List Resource → Prop) (borrowed nodes : Set ℕ) (st : ImageState S) :
    Prop :=
  match st.space with
  | some space => ∃ others, SpaceInv H borrowed nodes others space st.machine
  | none => ∃ held, H st.machine held

section Inv

variable {A : KernelAlloc S} {H : Machine S → List Resource → Prop} {borrowed nodes : Set ℕ}

/-- Something is held behind the invariant. -/
theorem ImageInv.held {st : ImageState S} (h : ImageInv H borrowed nodes st) :
    ∃ held, H st.machine held := by
  unfold ImageInv at h
  split at h
  · obtain ⟨others, howns⟩ := h
    obtain ⟨fs, -, hheld⟩ := howns.tables.holds
    exact ⟨_, hheld⟩
  · exact h

/-- A step that leaves what is held to its holder, and the held frames as they are, does not disturb the
address space. -/
theorem SpaceInv.elsewhere {space : VmMap} {s s' : Machine S} {others : List Resource}
    (h : SpaceInv H borrowed nodes others space s)
    (hkeeps : ∀ held, H s held → H s' held ∧ ∀ f ∈ heldFrames held, s'.mem f = s.mem f) :
    SpaceInv H borrowed nodes others space s' := by
  obtain ⟨⟨htree, fs, hfs, hheld⟩, haligned⟩ := h
  obtain ⟨hheld', hmem⟩ := hkeeps _ hheld
  have hsame : ∀ f ∈ userFrames borrowed s.mem space.pageTable.pml4Phy, s'.mem f = s.mem f := by
    intro f hf
    refine hmem f ?_
    rw [heldFrames_append, heldFrames_map_frame]
    exact List.mem_append_left _ ((hfs f).mpr hf)
  obtain ⟨htree', hframes⟩ := htree.same_frames hsame
  exact ⟨⟨htree', fs, fun f => by rw [hframes]; exact hfs f, hheld'⟩, haligned⟩

/-- One step that spares the borrowed frames and drops no area with a borrowed node keeps the
invariant. -/
theorem ImageStep.inv (hH : Holding A H (fun _ => True) borrowed nodes ∅)
    {Elsewhere : Machine S → Machine S → Prop}
    (hkeeps : ∀ {s s'}, Elsewhere s s' → s'.log = s.log →
      ∀ held, H s held → H s' held ∧ ∀ f ∈ heldFrames held, s'.mem f = s.mem f)
    {st st' : ImageState S} {op : ImageOp S} (hstep : ImageStep A Elsewhere st op st')
    (hspares : op.SparesCode borrowed st) (hnodes : op.KeepsNodes nodes st)
    (h : ImageInv H borrowed nodes st) : ImageInv H borrowed nodes st' := by
  cases hstep with
  | @inside space s op hlegal =>
    obtain ⟨others, howns⟩ := h
    refine (@SpaceInv.exec _ _ _ _ _ _ _ hH ⟨space, s⟩ op howns (Set.empty_subset _) hlegal ?_ ?_).2
    · rintro start size rfl
      exact hnodes space rfl
    · rintro start size rfl
      exact hspares space rfl
  | @destroy space s =>
    obtain ⟨others, howns⟩ := h
    obtain ⟨pages, -, hheld⟩ := howns.destroy hH (Set.empty_subset _) (hnodes space rfl)
      (hspares space rfl)
    exact ⟨_, hheld⟩
  | elsewhere helse =>
    unfold ImageInv at h ⊢
    split at h
    next space hspace =>
      obtain ⟨others, howns⟩ := h
      simp only [hspace]
      exact ⟨others, howns.elsewhere (hkeeps helse rfl)⟩
    next hspace =>
      obtain ⟨held, hheld⟩ := h
      simp only [hspace]
      exact ⟨held, (hkeeps helse rfl held hheld).1⟩

end Inv

/-- Sparing some frames is sparing others, if it is so for every range. -/
theorem ImageOp.SparesCode.imp {code code' : Set ℕ} {st : ImageState S} {op : ImageOp S}
    (himp : ∀ {mem : ℕ → Fin 512 → ℕ} {root start endAddr : ℕ},
      Mm.SparesCode code mem root start endAddr → Mm.SparesCode code' mem root start endAddr)
    (h : op.SparesCode code st) : op.SparesCode code' st := by
  cases op with
  | inside op =>
    cases op with
    | call op =>
      cases op with
      | freeRegion start size => exact fun space hspace => himp (h space hspace)
      | _ => trivial
    | fault => trivial
  | destroy => exact fun space hspace v hv => himp (h space hspace v hv)
  | elsewhere => trivial

/-- Sparing the null frame is no condition. -/
theorem ImageOp.SparesCode.insert_zero {code : Set ℕ} {st : ImageState S} {op : ImageOp S}
    (h : op.SparesCode code st) : op.SparesCode (insert 0 code) st := by
  refine h.imp ?_
  rintro mem root start endAddr hspares x hlo hhi f (rfl | hf) hleaf
  · rfl
  · exact hspares x hlo hhi f hf hleaf

/-- Without frames of the code every operation spares them. -/
theorem ImageOp.sparesCode_empty (st : ImageState S) (op : ImageOp S) : op.SparesCode ∅ st := by
  have hnone : ∀ {mem : ℕ → Fin 512 → ℕ} {root start endAddr : ℕ},
      Mm.SparesCode ∅ mem root start endAddr := fun _ _ _ _ hf => absurd hf (Set.notMem_empty _)
  cases op with
  | inside op =>
    cases op with
    | call op =>
      cases op with
      | freeRegion start size => exact fun _ _ => hnone
      | _ => trivial
    | fault => trivial
  | destroy => exact fun _ _ _ _ => hnone
  | elsewhere => trivial

/-- Without borrowed nodes every operation keeps them. -/
theorem ImageOp.keepsNodes_empty (st : ImageState S) (op : ImageOp S) : op.KeepsNodes ∅ st := by
  cases op with
  | inside op =>
    cases op with
    | call op =>
      cases op with
      | freeRegion start size => exact fun _ _ _ _ _ hmem => absurd hmem (Set.notMem_empty _)
      | _ => trivial
    | fault => trivial
  | destroy => exact fun _ _ _ _ => Set.notMem_empty _
  | elsewhere => trivial

section Runs

variable {A : HeapAlloc S} {Ok : S → Prop} {used : S → Set ℕ} {code : Set ℕ} {n : ℕ}

/-- The rest of the kernel does not disturb the accounts. -/
theorem FrameAccounts.elsewhere {s s' : Machine S} (hkeeps : KeepsFrames Ok used code n s s')
    (hlog : s'.log = s.log) (held : List Resource) (h : FrameAccounts Ok used code n s held) :
    FrameAccounts Ok used code n s' held ∧ ∀ f ∈ heldFrames held, s'.mem f = s.mem f := by
  obtain ⟨hok, hcode, hheld⟩ := hkeeps
  obtain ⟨out, hout, hperm⟩ := h.book
  have hkept : ∀ f ∈ heldFrames held, f ∈ used s'.alloc ∧ s'.mem f = s.mem f :=
    fun f hf => hheld out hout f (hperm.mem_iff.mpr hf)
  refine ⟨h.keep hok (congrArg List.length hlog).ge ?_ (fun f hf => (hkept f hf).1) hcode,
    fun f hf => (hkept f hf).2⟩
  rw [Machine.frameBook, Machine.frameBook, Machine.book, Machine.book, Machine.since,
    Machine.since, hlog]

/-- The set-up of a user image takes its frames for the new address space. -/
theorem imageInv_execve (hA : A.toKernelAlloc.LawfulFrames Ok used)
    (hkmalloc : ∀ a, Ok a →
      Ok (A.kmalloc vmAreaSize a).2 ∧ used a ⊆ used (A.kmalloc vmAreaSize a).2)
    {kernel : Option PageTable} {k : KernelAddr} {fn : ℕ} {s s' : Machine S} {space : VmMap}
    (hok : Ok s.alloc) (hphys : kernelVirtToPhys k fn + pageSize < 2 ^ 52)
    (hcode : codeFrames k fn ⊆ used s.alloc)
    (hexec : ktaskExecve A kernel k fn s = some (space, s')) :
    ImageInv (FrameAccounts Ok used (codeFrames k fn) s.log.length) (insert 0 (codeFrames k fn)) ∅
      ⟨some space, s'⟩ := by
  have hH := frameAccounts_holding hA (codeFrames k fn) s.log.length
  have hnone : ownFrames (insert 0 (codeFrames k fn)) (codePages (kernelVirtToPhys k fn)) = [] :=
    ownFrames_eq_nil fun f hf => .inr (mem_codePages.mp hf)
  have hkept : ∀ {s₁ : Machine S} {held : List Resource},
      FrameAccounts Ok used (codeFrames k fn) s.log.length s₁ held →
        FrameAccounts Ok used (codeFrames k fn) s.log.length (s₁.kmalloc A vmAreaSize).2 held := by
    intro s₁ held h
    obtain ⟨hok, hused⟩ := hkmalloc _ h.ok
    exact h.keep hok le_rfl rfl (fun f hf => hused (h.taken f hf).1) fun f hf => hused (h.foreign f hf)
  obtain ⟨left, s₁, ⟨htree, fs, hfs, hheld⟩, -, -, rfl, hareas⟩ :=
    hH.execve (fun _ => trivial) hphys (Set.mem_insert _ _)
      (by rw [hnone]; exact FrameAccounts.start hok hcode) hexec
  refine ⟨left.map .frame, ⟨htree, fs, hfs, (hkept (hkept hheld)).perm ?_⟩, ?_⟩
  · -- objects do not count
    simp only [spaceObjects, hareas, mapUserVmAreaCodeAndStack, heldFrames_append,
      heldFrames_map_frame]
    rw [areaNodes_cons (Set.notMem_empty _), areaNodes_cons (Set.notMem_empty _)]
    simp [heldFrames]
  · rw [hareas]
    exact mapUserVmAreaCodeAndStack_aligned (by simp)

/-- The calls with an entry for a frame. -/
theorem MemEvent.frameEntry_iff {e : MemEvent} {f : ℕ} :
    (e.frameEntry = some (.acquire f) ↔ f ≠ 0 ∧ e = .allocFrame f) ∧
      (e.frameEntry = some (.release f) ↔ e = .freeFrame f) := by
  cases e with
  | allocFrame phys =>
    rw [MemEvent.frameEntry]
    split
    next hphys =>
      subst hphys
      simp only [reduceCtorEq, MemEvent.allocFrame.injEq, false_iff, not_and, and_true]
      exact fun hf heq => hf heq.symm
    next hphys =>
      simp only [Option.some.injEq, LedgerEvent.acquire.injEq, MemEvent.allocFrame.injEq,
        reduceCtorEq, and_true]
      refine ⟨fun heq => ⟨heq ▸ hphys, heq⟩, fun h => h.2⟩
  | freeFrame phys => simp [MemEvent.frameEntry]
  | allocObject cache obj => simp [MemEvent.frameEntry]
  | freeObject cache obj => simp [MemEvent.frameEntry]

/-- In the accounts, a frame that is given back was taken once more than it was given back before. -/
theorem FrameAccounts.count {s : Machine S} {held : List Resource}
    (h : FrameAccounts Ok used code n s held) {before after : List MemEvent} {f : ℕ}
    (hcalls : s.since n = before ++ .freeFrame f :: after) :
    f ≠ 0 ∧ before.count (.allocFrame f) = before.count (.freeFrame f) + 1 := by
  obtain ⟨out, hout, -⟩ := h.book
  have hne : f ≠ 0 := by
    rintro rfl
    -- the null frame is never taken, so it cannot be given back
    obtain ⟨e, -, he⟩ := Machine.taken_of_settle hout hcalls List.nodup_nil List.not_mem_nil
      (MemEvent.frameEntry_iff.2.mpr rfl)
    exact (MemEvent.frameEntry_iff.1.mp he).1 rfl
  refine ⟨hne, Machine.count_of_settle hout hcalls List.nodup_nil List.not_mem_nil (fun e => ?_)
    fun e => MemEvent.frameEntry_iff.2⟩
  exact MemEvent.frameEntry_iff.1.trans (and_iff_right hne)

/-- The release of a user image. In every run from the set-up of a user image in which no released
range meets a page of the code, every frame that is freed was taken for this address space and not
freed since, and the frames of the code are never free to take. -/
theorem userImage_run_freesOwn (hA : A.toKernelAlloc.LawfulFrames Ok used)
    (hkmalloc : ∀ a, Ok a →
      Ok (A.kmalloc vmAreaSize a).2 ∧ used a ⊆ used (A.kmalloc vmAreaSize a).2)
    {kernel : Option PageTable} {k : KernelAddr} {fn : ℕ} {s s' : Machine S} {space : VmMap}
    (hok : Ok s.alloc) (hphys : kernelVirtToPhys k fn + pageSize < 2 ^ 52)
    (hcode : codeFrames k fn ⊆ used s.alloc)
    (hexec : ktaskExecve A kernel k fn s = some (space, s')) {ops : List (ImageOp S)}
    {st : ImageState S}
    (hrun : Run (fun st op st' =>
      ImageStep A.toKernelAlloc (KeepsFrames Ok used (codeFrames k fn) s.log.length) st op st' ∧
        op.SparesCode (codeFrames k fn) st) ⟨some space, s'⟩ ops st) :
    (∀ before after f, st.machine.since s.log.length = before ++ .freeFrame f :: after →
      f ≠ 0 ∧ before.count (.allocFrame f) = before.count (.freeFrame f) + 1) ∧
    ∀ f ∈ codeFrames k fn, f ∈ used st.machine.alloc := by
  have hinv := hrun.invariant _ (fun st op _ hinv hstep =>
      hstep.1.inv (frameAccounts_holding hA _ _) (fun {_ _} => FrameAccounts.elsewhere)
        hstep.2.insert_zero (op.keepsNodes_empty st) hinv)
    (imageInv_execve hA hkmalloc hok hphys hcode hexec)
  obtain ⟨held, haccounts⟩ := hinv.held
  exact ⟨fun _ _ _ hcalls => haccounts.count hcalls, haccounts.foreign⟩

end Runs

/-- A boot map with two frames of the kernel image between USABLE frames. -/
def kernelImageMap : MemoryMap :=
  memmapInit [⟨0, 0x8000, .usable⟩, ⟨0x8000, 0x2000, .executableAndModules⟩,
    ⟨0xA000, 0x16000, .usable⟩]

/-- That map meets the boot loader's guarantees. -/
theorem kernelImageMap_bootable : kernelImageMap.Bootable := by
  refine ⟨?_, ?_, ?_, ?_⟩
  · simp [kernelImageMap, memmapInit]
  · simp only [kernelImageMap, memmapInit, List.take, List.pairwise_cons, List.mem_cons,
      List.not_mem_nil, or_false, forall_eq_or_imp, forall_eq, List.Pairwise.nil, and_true,
      false_imp_iff, implies_true]
    refine ⟨⟨?_, ?_⟩, ?_⟩
    all_goals
      intro _ x
      omega
  · simp [kernelImageMap, memmapInit]
  · exact ⟨⟨0, 0x8000, .usable⟩, by simp [kernelImageMap, memmapInit], rfl, by decide⟩

/-- On that map, the kernel's address space right after boot. -/
def bootKernel (pages : Pmm) : Option (VmMap × Machine (KernelHeap Pmm)) :=
  let r := initPmap kernelHeaps.toKernelAlloc hhdmOffset kernelImageMap
    ⟨fun _ _ => 0, bootHeap pages, []⟩
  r.1.map fun kernel => (kernel, r.2)

/-- A user image right after boot, for an entry function in the frames of the kernel image. -/
def bootImage (kernel : VmMap) (s : Machine (KernelHeap Pmm)) :
    Option (VmMap × Machine (KernelHeap Pmm)) :=
  ktaskExecve kernelHeaps (some kernel.pageTable) ⟨0x8000, 0xffffffff80000000⟩ 0xffffffff80000010 s

/-- The frames of the code of that image. -/
theorem codeFrames_bootImage :
    codeFrames ⟨0x8000, 0xffffffff80000000⟩ 0xffffffff80000010 = {0x8000, 0x9000} := by
  have hfirst : alignDown (kernelVirtToPhys ⟨0x8000, 0xffffffff80000000⟩ 0xffffffff80000010)
      pageSize = 0x8000 := by decide
  have hsecond : alignDown ((kernelVirtToPhys ⟨0x8000, 0xffffffff80000000⟩ 0xffffffff80000010 +
      pageSize) % wordSize) pageSize = 0x9000 := by decide
  rw [codeFrames, hfirst, hsecond]

/-- Freeing the stack of that image spares its code. -/
theorem userImage_run_freesOwn_kernelImageMap :
    ∃ s₀ kernel s space s' st, initBitmapPmm kernelImageMap (fun _ => 0#8) = some s₀ ∧
      bootKernel s₀ = some (kernel, s) ∧ bootImage kernel s = some (space, s') ∧
      Run (fun st op st' => ImageStep kernelHeaps.toKernelAlloc
          (KeepsFrames KernelHeap.PagesOk KernelHeap.used {0x8000, 0x9000} s.log.length) st op st' ∧
            op.SparesCode {0x8000, 0x9000} st)
        ⟨some space, s'⟩ [.inside (.call (.freeRegion 0x3000 0x2000))] st ∧
      .freeFrame 0x10000 ∈ st.machine.since s.log.length ∧
      ∀ f ∈ ({0x8000, 0x9000} : Set ℕ), f ∈ KernelHeap.used st.machine.alloc := by
  obtain ⟨s₀, hinit⟩ := initBitmapPmm_isSome kernelImageMap_bootable (fun _ => 0#8)
  have hconcrete : ((initBitmapPmm kernelImageMap (fun _ => 0#8)).bind fun pages =>
      (bootKernel pages).bind fun r => (bootImage r.1 r.2).map fun image =>
        let freed := (vmMapFreeRegion kernelHeaps.toKernelAlloc image.1 0x3000 0x2000 image.2).2
        let pages := r.2.alloc.kmem.heap.pages
        (decide (pages.totalPages < 2 ^ 31 ∧ pages.cachedIndex ≤ pages.totalPages ∧
            pages.isClear 0 = false ∧ pages.isClear 8 = false ∧ pages.isClear 9 = false),
          pageFrame image.2.mem image.1.pageTable.pml4Phy 0x3000,
          pageFrame image.2.mem image.1.pageTable.pml4Phy 0x4000,
          decide (MemEvent.freeFrame 0x10000 ∈ freed.since r.2.log.length))) =
      some (true, some 0x10000, some 0x11000, true) := by decide +kernel
  rw [hinit, Option.bind_some] at hconcrete
  obtain ⟨⟨kernel, s⟩, hkernel, hconcrete⟩ := Option.bind_eq_some_iff.mp hconcrete
  obtain ⟨⟨space, s'⟩, himage, hconcrete⟩ := Option.map_eq_some_iff.mp hconcrete
  obtain ⟨hpages, hconcrete⟩ := Prod.mk.inj hconcrete
  obtain ⟨hlow, hconcrete⟩ := Prod.mk.inj hconcrete
  obtain ⟨hhigh, hfreed⟩ := Prod.mk.inj hconcrete
  obtain ⟨hsmall, hcursor, hzero, hfirst, hsecond⟩ := of_decide_eq_true hpages
  have hused : ∀ i, s.alloc.kmem.heap.pages.isClear i = false → i * 4096 ∈ s.alloc.used := by
    intro i hi
    refine ⟨Nat.dvd_mul_left _ _, fun hfree => ?_⟩
    rw [Nat.mul_div_cancel i (show 0 < 4096 by decide)] at hfree
    rw [hfree.2] at hi
    cases hi
  have hcode : codeFrames ⟨0x8000, 0xffffffff80000000⟩ 0xffffffff80000010 ⊆ s.alloc.used := by
    rw [codeFrames_bootImage]
    rintro f (rfl | rfl)
    · exact hused 8 hfirst
    · exact hused 9 hsecond
  have hspares : Mm.SparesCode {0x8000, 0x9000} s'.mem space.pageTable.pml4Phy 0x3000
      (0x3000 + pageCeil 0x2000) := by
    intro x hlo hhi f hf hleaf
    have hceil : pageCeil 0x2000 = 0x2000 := by decide
    have hf' : f = 0x8000 ∨ f = 0x9000 := hf
    have hcases : x / 4096 = 0x3000 / 4096 ∨ x / 4096 = 0x4000 / 4096 := by omega
    rcases hcases with hpage | hpage
    · have hframe := hlow.symm.trans (pageLeaf_iff.mp (hleaf.of_page hpage))
      rw [Option.some.injEq] at hframe
      omega
    · have hframe := hhigh.symm.trans (pageLeaf_iff.mp (hleaf.of_page hpage))
      rw [Option.some.injEq] at hframe
      omega
  have hrun : Run (fun st op st' => ImageStep kernelHeaps.toKernelAlloc
      (KeepsFrames KernelHeap.PagesOk KernelHeap.used {0x8000, 0x9000} s.log.length) st op st' ∧
        op.SparesCode {0x8000, 0x9000} st)
      ⟨some space, s'⟩ [.inside (.call (.freeRegion 0x3000 0x2000))]
      ⟨some (vmMapFreeRegion kernelHeaps.toKernelAlloc space 0x3000 0x2000 s').1,
        (vmMapFreeRegion kernelHeaps.toKernelAlloc space 0x3000 0x2000 s').2⟩ := by
    refine .single ⟨.inside ?_, fun new hnew => ?_⟩
    · rintro _ ⟨⟩
      exact ⟨by decide, by decide⟩
    · cases hnew
      exact hspares
  have hsafe := userImage_run_freesOwn kernelHeaps_lawfulFrames
    (fun _ => kernelHeaps_kmalloc_used) (s := s) ⟨hsmall, hcursor, fun hfree => by
      rw [hfree.2] at hzero
      cases hzero⟩ (by decide) hcode himage (by rw [codeFrames_bootImage]; exact hrun)
  rw [codeFrames_bootImage] at hsafe
  exact ⟨s₀, kernel, s, space, s', _, hinit, hkernel, himage, hrun, of_decide_eq_true hfreed,
    hsafe.2⟩

/-- Freeing the code area of that image frees the frames of the kernel image behind it, which nobody
took, and makes them allocatable. -/
theorem userImage_release_freesCode :
    ∃ s₀ kernel s space s', initBitmapPmm kernelImageMap (fun _ => 0#8) = some s₀ ∧
      bootKernel s₀ = some (kernel, s) ∧ bootImage kernel s = some (space, s') ∧
      (∃ v ∈ space.areas, v.start = 0x1000 ∧ v.endAddr = 0x3000) ∧
      let r := (vmMapFreeRegion kernelHeaps.toKernelAlloc space 0x1000 0x2000 s').2
      .freeFrame 0x8000 ∈ r.since s.log.length ∧ .allocFrame 0x8000 ∉ r.log ∧
        ¬ s.alloc.kmem.heap.pages.Free 8 ∧ r.alloc.kmem.heap.pages.Free 8 := by
  obtain ⟨s₀, hinit⟩ := initBitmapPmm_isSome kernelImageMap_bootable (fun _ => 0#8)
  have hconcrete : ((initBitmapPmm kernelImageMap (fun _ => 0#8)).bind fun pages =>
      (bootKernel pages).bind fun r => (bootImage r.1 r.2).map fun image =>
        let s := (vmMapFreeRegion kernelHeaps.toKernelAlloc image.1 0x1000 0x2000 image.2).2
        (decide (∃ v ∈ image.1.areas, v.start = 0x1000 ∧ v.endAddr = 0x3000),
          decide (MemEvent.freeFrame 0x8000 ∈ s.since r.2.log.length),
          decide (MemEvent.allocFrame 0x8000 ∉ s.log), r.2.alloc.kmem.heap.pages.isClear 8,
          decide (8 < s.alloc.kmem.heap.pages.totalPages), s.alloc.kmem.heap.pages.isClear 8)) =
      some (true, true, true, false, true, true) := by decide +kernel
  rw [hinit, Option.bind_some] at hconcrete
  obtain ⟨⟨kernel, s⟩, hkernel, hconcrete⟩ := Option.bind_eq_some_iff.mp hconcrete
  obtain ⟨⟨space, s'⟩, himage, hconcrete⟩ := Option.map_eq_some_iff.mp hconcrete
  obtain ⟨harea, hconcrete⟩ := Prod.mk.inj hconcrete
  obtain ⟨hfreed, hconcrete⟩ := Prod.mk.inj hconcrete
  obtain ⟨hnever, hconcrete⟩ := Prod.mk.inj hconcrete
  obtain ⟨hused, hconcrete⟩ := Prod.mk.inj hconcrete
  obtain ⟨hmanaged, hclear⟩ := Prod.mk.inj hconcrete
  refine ⟨s₀, kernel, s, space, s', hinit, hkernel, himage, of_decide_eq_true harea,
    of_decide_eq_true hfreed, of_decide_eq_true hnever, fun hfree => ?_, of_decide_eq_true hmanaged, hclear⟩
  rw [hfree.2] at hused
  cases hused

end Flos.Mm
