import Flos.Mm.BlockRoom
import Flos.Mm.PmmCompleteness
import Flos.Sched.ContextSwitch

/-!
# Creating tasks

`utask_spawn` takes a block for the start arguments, and `ktask_spawn` a block for the task and two frames
for its stack. Only the first of the three results is looked at. A task whose stack could not be had is
returned with the frames from address 0 on, and a task that could not be had is written to.
-/

namespace Flos.Sched

open Flos.Cpu Flos.Lib Flos.Mm

/-- The kernel heap with the frame manager, and `tid` of the scheduler. -/
structure SpawnState where
  k : Kmalloc Pmm
  tid : ℕ

/-- `sizeof(task_t)`. -/
abbrev taskSize : ℕ := 128

/-- `sizeof(struct utask_start)`. -/
abbrev utaskStartSize : ℕ := 16

/-- The offsets of the fields of `task_t` that `ktask_spawn` stores to. -/
abbrev taskStack : ℕ := 0
abbrev taskKstackTop : ℕ := 8
abbrev taskTid : ℕ := 16
abbrev taskTgid : ℕ := 24
abbrev taskFlags : ℕ := 32
abbrev taskVmap : ℕ := 40
abbrev taskState : ℕ := 48
abbrev taskStackBase : ℕ := 112
abbrev taskStackSize : ℕ := 120

/-- `S_TASK_INIT`. -/
abbrev sTaskInit : ℕ := 0

/-- `*--stack = word` for each word, in bytes. -/
def pushBytes (stack : ℕ) (mem : ByteMem) : List ℕ → ℕ × ByteMem
  | [] => (stack, mem)
  | word :: words => pushBytes (stack - 8) (writeLE mem (stack - 8) 8 word) words

/-- Stores of 64 bits at offsets from `t`, in order. -/
def storeFields (t : ℕ) (mem : ByteMem) (fields : List (ℕ × ℕ)) : ByteMem :=
  fields.foldl (fun mem field => writeLE mem (t + field.1) 8 field.2) mem

/-- The fields of a new task, in the order of the stores, between the clearing of the task and the set-up
of its stack. -/
def newTaskFields (tid kstack vmap : ℕ) : List (ℕ × ℕ) :=
  [(taskFlags, 0), (taskTid, tid), (taskTgid, tid), (taskStackBase, kstack - kstackSize),
    (taskStackSize, kstackSize), (taskKstackTop, kstack), (taskVmap, vmap)]

/-- The stores of `ktask_spawn`: the task at `t` is cleared, and its stack with the top `kstack` is set up
between two runs of stores to its fields. -/
def initTask (L : Linkage) (vmap entry args tid t kstack : ℕ) (mem : ByteMem) : ByteMem :=
  let mem := writeLE mem t taskSize 0
  let mem := storeFields t mem (newTaskFields tid kstack vmap)
  let stack := pushBytes kstack mem (spawnWords L entry args)
  let mem := writeLE stack.2 (t + taskStack) 8 stack.1
  writeLE mem (t + taskState) 4 sTaskInit

/-- `ktask_spawn`; `vmap` is `kernel_vm_map`. The result is `none` where an assertion of the slab code
fails or the code writes through a null pointer. -/
def ktaskSpawn (L : Linkage) (vmap entry args : ℕ) (s : SpawnState) : Option (ℕ × SpawnState) :=
  match kmalloc pmmSource hhdmOffset taskSize s.k with
  | none => none
  | some (t, k) =>
    if t = 0 then none
    else
      let r := pmmAllocPages k.heap.pages kstackPages
      let kstack := kstackSize + (hhdmOffset + r.1) % wordSize
      let mem := initTask L vmap entry args s.tid t kstack k.heap.mem
      some (t, ⟨⟨k.caches, ⟨mem, r.2⟩⟩, (s.tid + 1) % wordSize⟩)

/-- `utask_spawn`; `trampoline` is the address of `utask_trampoline`. -/
def utaskSpawn (L : Linkage) (vmap trampoline entry args : ℕ) (s : SpawnState) :
    Option (ℕ × SpawnState) :=
  match kmalloc pmmSource hhdmOffset utaskStartSize s.k with
  | none => none
  | some (start, k) =>
    if start = 0 then some (0, ⟨k, s.tid⟩)
    else
      let mem := storeFields start k.heap.mem [(0, entry), (8, args)]
      match ktaskSpawn L vmap trampoline start ⟨⟨k.caches, ⟨mem, k.heap.pages⟩⟩, s.tid⟩ with
      | none => none
      | some (t, s) =>
        if t = 0 then some (0, ⟨kfree pmmSource hhdmOffset start s.k, s.tid⟩) else some (t, s)

/-! ## What a caller relies on -/

/-- The kernel stack of the task `t` is a run of frames that has been handed out since the frame manager
was `p`. -/
def FreshStack (p : Pmm) (s : SpawnState) (t : ℕ) : Prop :=
  ∃ phys, phys ≠ 0 ∧ frameAddrs phys kstackPages ⊆ s.k.heap.pages.inUse ∧
    Disjoint (frameAddrs phys kstackPages) p.inUse ∧
    readLE s.k.heap.mem (t + taskStackBase) 8 = hhdmOffset + phys ∧
    readLE s.k.heap.mem (t + taskStackSize) 8 = kstackSize ∧
    readLE s.k.heap.mem (t + taskKstackTop) 8 = hhdmOffset + phys + kstackSize

/-- The frames in use and the live blocks are those of `st`. -/
def Undone (st : KmallocState Pmm) (s : SpawnState) : Prop :=
  s.k.heap.pages.inUse = st.k.heap.pages.inUse ∧
    ∃ g, KmallocInv Pmm.Ok Pmm.inUse hhdmOffset (2 ^ 43) ⟨s.k, st.blocks, st.others⟩ g

/-- A call that began in the heap `st` returns a task with a stack of its own, or `0` with all it took
given back. -/
def AllOrNothing (st : KmallocState Pmm) (r : Option (ℕ × SpawnState)) : Prop :=
  ∃ t s, r = some (t, s) ∧ (t ≠ 0 ∧ FreshStack st.k.heap.pages s t ∨ t = 0 ∧ Undone st s)

/-- The free frame that a search from the cursor meets first. -/
def NextFree (p : Pmm) (f : ℕ) : Prop :=
  p.Free f ∧ ∀ j, p.Free j →
    p.cachedIndex ≤ f ∧ (j < p.cachedIndex ∨ f ≤ j) ∨ f < p.cachedIndex ∧ f ≤ j ∧ j < p.cachedIndex

/-- The cache has a free slot or there is a frame for a new slab; `q` is the frame manager afterwards. -/
def SlotLeft (cache : KmemCache) (p q : Pmm) : Prop :=
  if cache.NeedsFrame then ∃ f, NextFree p f ∧ q = p.takeFrame f else q = p

/-- The caches of a task and of the start arguments. -/
abbrev taskCache : ℕ := 12
abbrev utaskStartCache : ℕ := 3

/-- There is memory for a task, and behind it two frames in a row for its stack. -/
def TaskFits (cache : KmemCache) (p : Pmm) : Prop :=
  ∃ q, SlotLeft cache p q ∧ ∃ i, q.cachedIndex ≤ i ∧ q.FreeRange i kstackPages

/-! ## Frames -/

section Frames

variable {p q q' : Pmm} {cache : KmemCache}

/-- `pmm_alloc_page` takes the frame that the search meets first. -/
theorem pmmAllocPage_nextFree (hok : p.Ok) :
    (∃ f, NextFree p f ∧ f ≠ 0 ∧ pmmAllocPage p = (f * 4096, p.takeFrame f)) ∨
      (∀ f, ¬ NextFree p f) ∧ pmmAllocPage p = (0, p) := by
  have hcursor := hok.cursor
  have hused : ∀ {j}, p.Free j → ¬ p.isClear j = false := fun hj h => by simp [hj.2] at h
  have htaken : ∀ {f}, NextFree p f → f ≠ 0 := fun hf h0 => hok.zero (h0 ▸ hf.1)
  cases hfirst : findFree p.isClear (p.totalPages - p.cachedIndex) p.cachedIndex with
  | some f =>
    obtain ⟨hlow, hhigh, hclear, hbefore⟩ := findFree_some hfirst
    have hnext : NextFree p f := by
      refine ⟨⟨by omega, hclear⟩, fun j hj => .inl ⟨hlow, ?_⟩⟩
      by_contra hin
      exact hused hj (hbefore j (by omega) (by omega))
    exact .inl ⟨f, hnext, htaken hnext, by simp only [pmmAllocPage, hfirst, pageSize]⟩
  | none =>
    have hbehind : ∀ {j}, p.Free j → j < p.cachedIndex := fun {j} hj => by
      by_contra hge
      have := hj.1
      exact hused hj (findFree_none hfirst j (by omega) (by omega))
    cases hsecond : findFree p.isClear p.cachedIndex 0 with
    | some f =>
      obtain ⟨-, hhigh, hclear, hbefore⟩ := findFree_some hsecond
      have hnext : NextFree p f := by
        refine ⟨⟨by omega, hclear⟩, fun j hj => .inr ⟨by omega, ?_, hbehind hj⟩⟩
        by_contra hin
        exact hused hj (hbefore j (by omega) (by omega))
      exact .inl ⟨f, hnext, htaken hnext, by simp only [pmmAllocPage, hfirst, hsecond, pageSize]⟩
    | none =>
      refine .inr ⟨fun f hf => ?_, by simp only [pmmAllocPage, hfirst, hsecond]⟩
      exact hused hf.1 (findFree_none hsecond f (Nat.zero_le f) (by have := hbehind hf.1; omega))

/-- An allocation from a cache leaves one frame manager. -/
theorem SlotLeft.unique (h : SlotLeft cache p q) (h' : SlotLeft cache p q') : q = q' := by
  rw [SlotLeft] at h h'
  split at h
  next hneeds =>
    rw [if_pos hneeds] at h'
    obtain ⟨f, hf, rfl⟩ := h
    obtain ⟨f', hf', rfl⟩ := h'
    have h1 := hf.2 f' hf'.1
    have h2 := hf'.2 f hf.1
    rw [show f = f' by omega]
  next hneeds =>
    rw [if_neg hneeds] at h'
    rw [h, h']

/-- An allocation from a cache takes no frame out of use. -/
theorem SlotLeft.inUse (hok : p.Ok) (h : SlotLeft cache p q) : q.Ok ∧ p.inUse ⊆ q.inUse := by
  rw [SlotLeft] at h
  split at h
  · obtain ⟨f, hf, rfl⟩ := h
    rcases pmmAllocPage_nextFree hok with ⟨f', hf', hne, heq⟩ | ⟨hnone, -⟩
    · have h1 := hf.2 f' hf'.1
      have h2 := hf'.2 f hf.1
      obtain rfl : f = f' := by omega
      have hok' := pmmSource_lawful.allocPage_ok p hok
      have hinUse := pmmSource_lawful.allocPage_inUse p hok
      simp only [pmmSource, heq] at hok' hinUse
      rw [hinUse (by omega)]
      exact ⟨hok', Set.subset_insert _ _⟩
    · exact absurd hf (hnone f)
  · subst h
    exact ⟨hok, le_rfl⟩

/-- A cache that needs a frame gets the one that `pmm_alloc_page` takes. -/
theorem slotLeft_allocPage (hok : p.Ok) (hneeds : cache.NeedsFrame) (hframe : (pmmAllocPage p).1 ≠ 0) :
    SlotLeft cache p (pmmAllocPage p).2 := by
  rw [SlotLeft, if_pos hneeds]
  rcases pmmAllocPage_nextFree hok with ⟨f, hf, -, heq⟩ | ⟨-, heq⟩
  · exact ⟨f, hf, by rw [heq]⟩
  · exact absurd (by rw [heq]) hframe

/-- `pmm_alloc_pages` succeeds where a run of free frames is at or behind the cursor. -/
theorem pmmAllocPages_ne_zero_iff (hok : p.Ok) {n : ℕ} (hn : 0 < n) :
    (pmmAllocPages p n).1 ≠ 0 ↔ ∃ i, p.cachedIndex ≤ i ∧ p.FreeRange i n := by
  rw [ne_eq, pmmAllocPages_eq_zero_iff ⟨hok.small, hok.cursor⟩ hn, or_iff_left]
  · push Not
    rfl
  · exact fun hzero => hok.zero (hzero.2 0 ⟨le_rfl, by omega⟩)

end Frames

/-! ## One allocation -/

section Allocation

variable {st : KmallocState Pmm} {g : KmallocGhost}

/-- `kmalloc` of a size that a cache serves: what it returns depends on the cache and the frame
manager only, and the other caches stay. -/
theorem kmalloc_outcome (hinv : KmallocInv Pmm.Ok Pmm.inUse hhdmOffset (2 ^ 43) st g) {size i : ℕ}
    (hsize : KmallocSize size) (hbacking : kmallocBacking size = .slab i) :
    ∃ ptr k', kmalloc pmmSource hhdmOffset size st.k = some (ptr, k') ∧
      (∀ j ≠ i, k'.caches j = st.k.caches j) ∧
      ((∀ q, ¬ SlotLeft (st.k.caches i) st.k.heap.pages q) ∧ ptr = 0 ∧
          k'.heap.pages = st.k.heap.pages ∨
        ptr ≠ 0 ∧ allocHeaderSize ≤ ptr ∧
          SlotLeft (st.k.caches i) st.k.heap.pages k'.heap.pages) ∧
      ∃ g', KmallocInv Pmm.Ok Pmm.inUse hhdmOffset (2 ^ 43)
        ⟨k', if ptr = 0 then st.blocks else ⟨ptr - allocHeaderSize, size⟩ :: st.blocks, st.others⟩
        g' := by
  obtain ⟨ptr, k', hrun, htaken, hinv'⟩ :=
    hinv.kmalloc_slab_spec pmmSource_lawful directMap_hhdmOffset hsize hbacking
  obtain ⟨hi, -⟩ := kmallocBacking_slab hsize hbacking
  obtain ⟨obj, s', h', g', heq, halloc, -, hlive, -⟩ :=
    kmemCacheAlloc_spec pmmSource_lawful.toLawfulPage directMap_hhdmOffset hinv.ok (hinv.slab i hi)
      (hinv.slabsHeld hi)
  have heq' := kmalloc_slab hsize hbacking heq
  have hptr : obj ≠ 0 → (obj + allocHeaderSize) % wordSize ≠ 0 := by
    intro hobj
    obtain ⟨-, hinv'⟩ := hlive hobj
    have hbounds := slot_bounds (hinv'.shape.live_slot List.mem_cons_self)
    have hslab := halloc.slabs_lt hinv.ok (hinv.slabsHeld hi)
      (hinv'.shape.live_slab _ List.mem_cons_self)
    rw [Nat.mod_eq_of_lt]
    · exact Nat.ne_of_gt (Nat.add_pos_right _ (by decide))
    · simp only [allocHeaderSize, hhdmOffset, wordSize] at hslab ⊢
      omega
  rw [heq'] at hrun
  refine ⟨ptr, k', heq'.trans hrun, ?_, ?_, hinv'⟩
  · intro j hj
    split at hrun <;>
      · cases hrun
        exact Function.update_of_ne hj _ _
  · cases halloc with
    | reuse hobj hneeds =>
      rw [if_neg hobj] at hrun
      cases hrun
      exact .inr ⟨hptr hobj, (htaken (hptr hobj)).1, by rw [SlotLeft, if_neg hneeds]⟩
    | grow hobj hneeds hframe =>
      rw [if_neg hobj] at hrun
      cases hrun
      exact .inr ⟨hptr hobj, (htaken (hptr hobj)).1, slotLeft_allocPage hinv.ok hneeds hframe⟩
    | fail hneeds hframe =>
      rw [if_pos rfl] at hrun
      cases hrun
      rcases pmmAllocPage_nextFree hinv.ok with ⟨f, -, hne, heq⟩ | ⟨hnone, heq⟩
      · simp only [pmmSource, heq] at hframe
        omega
      · refine .inl ⟨fun q hq => ?_, rfl, by simp only [pmmSource, heq]⟩
        rw [SlotLeft, if_pos hneeds] at hq
        obtain ⟨f, hf, -⟩ := hq
        exact hnone f hf

end Allocation

/-! ## The stores of a new task -/

section Stores

variable {mem : ByteMem} {t stack : ℕ}

/-- The words go below the stack pointer, and nothing else changes. -/
theorem pushBytes_spec {words : List ℕ} (hroom : 8 * words.length ≤ stack) :
    (pushBytes stack mem words).1 = stack - 8 * words.length ∧
      ∀ x, x < stack - 8 * words.length ∨ stack ≤ x → (pushBytes stack mem words).2 x = mem x := by
  induction words generalizing stack mem with
  | nil => exact ⟨rfl, fun _ _ => rfl⟩
  | cons word words ih =>
    rw [List.length_cons] at hroom ⊢
    obtain ⟨hstack, hkeep⟩ := @ih (writeLE mem (stack - 8) 8 word) (stack - 8) (by omega)
    refine ⟨by rw [pushBytes, hstack]; omega, fun x hx => ?_⟩
    rw [pushBytes, hkeep x (by omega)]
    exact writeLE_of_outside (by omega)

/-- Stores to other fields do not change a field. -/
theorem readLE_storeFields_of_apart {fields : List (ℕ × ℕ)} {off : ℕ}
    (h : ∀ field ∈ fields, field.1 + 8 ≤ off ∨ off + 8 ≤ field.1) :
    readLE (storeFields t mem fields) (t + off) 8 = readLE mem (t + off) 8 := by
  induction fields generalizing mem with
  | nil => rfl
  | cons field fields ih =>
    have hfield := h field List.mem_cons_self
    change readLE (storeFields t (writeLE mem (t + field.1) 8 field.2) fields) _ 8 = _
    rw [ih fun f hf => h f (List.mem_cons_of_mem _ hf)]
    exact readLE_writeLE_of_disjoint (by omega)

/-- A field reads as it was stored when the fields do not overlap. -/
theorem readLE_storeFields {fields : List (ℕ × ℕ)} {off v : ℕ}
    (hapart : fields.Pairwise fun a b => a.1 + 8 ≤ b.1 ∨ b.1 + 8 ≤ a.1) (hmem : (off, v) ∈ fields)
    (hv : v < 256 ^ 8) : readLE (storeFields t mem fields) (t + off) 8 = v := by
  induction fields generalizing mem with
  | nil => exact absurd hmem List.not_mem_nil
  | cons field fields ih =>
    obtain ⟨hfirst, hrest⟩ := List.pairwise_cons.mp hapart
    change readLE (storeFields t (writeLE mem (t + field.1) 8 field.2) fields) _ 8 = _
    rcases List.mem_cons.mp hmem with rfl | hmem
    · rw [readLE_storeFields_of_apart fun f hf => (hfirst f hf).symm]
      exact readLE_writeLE_self hv
    · exact ih hrest hmem

/-- Stores to the fields of a structure stay in it. -/
theorem storeFields_of_outside {fields : List (ℕ × ℕ)} {size x : ℕ}
    (hfields : ∀ field ∈ fields, field.1 + 8 ≤ size) (hx : x < t ∨ t + size ≤ x) :
    storeFields t mem fields x = mem x := by
  induction fields generalizing mem with
  | nil => rfl
  | cons field fields ih =>
    have hfield := hfields field List.mem_cons_self
    change storeFields t (writeLE mem (t + field.1) 8 field.2) fields x = mem x
    rw [ih fun f hf => hfields f (List.mem_cons_of_mem _ hf)]
    exact writeLE_of_outside (by omega)

end Stores

section Spawn

variable {s : SpawnState} {blocks : List Block} {others : Set ℕ} {g : KmallocGhost}
  (L : Linkage) (vmap entry args : ℕ)

/-- The fields of a new task do not overlap. -/
theorem newTaskFields_pairwise (tid kstack vmap : ℕ) :
    (newTaskFields tid kstack vmap).Pairwise fun a b => a.1 + 8 ≤ b.1 ∨ b.1 + 8 ≤ a.1 := by
  simp [newTaskFields, taskFlags, taskTid, taskTgid, taskStackBase, taskStackSize, taskKstackTop,
    taskVmap]

/-- A block for a task never reaches the last 72 bytes of its page. -/
theorem task_below {k : Kmalloc Pmm} {t : ℕ}
    (hinv : KmallocInv Pmm.Ok Pmm.inUse hhdmOffset (2 ^ 43) ⟨k, blocks, others⟩ g)
    (hhdr : allocHeaderSize ≤ t) (hb : ⟨t - allocHeaderSize, taskSize⟩ ∈ blocks) :
    t % 4096 + taskSize + 72 ≤ 4096 := by
  have hbacking : kmallocBacking taskSize = .slab taskCache := by decide
  obtain ⟨-, -, -, -, hslot⟩ := hinv.slab_block hb hbacking
  obtain ⟨i, hi, heq⟩ := mem_slabSlots.mp hslot
  have hcount : slotsPerSlab (kmallocSizes.getD taskCache 0) = 25 := by decide
  have hsize : kmallocSizes.getD taskCache 0 = 160 := by decide
  rw [hcount] at hi
  rw [hsize] at heq
  simp only [pageOf, slabHdr, allocHeaderSize, taskSize] at heq hhdr ⊢
  have hoff : (t - 16) % 4096 = 32 + i * 160 := by omega
  have hpage : t % 4096 = (t - 16) % 4096 + 16 := by omega
  omega

/-- The fields behind the state read as they were stored: the task does not reach the stack. -/
theorem readLE_initTask {tid t kstack off v : ℕ} {mem : ByteMem}
    (hbelow : t % 4096 + taskSize + 72 ≤ 4096) (hkstack : 4096 ∣ kstack) (hpos : 72 ≤ kstack)
    (hfield : (off, v) ∈ newTaskFields tid kstack vmap)
    (hoff : 8 ≤ off ∧ off + 8 ≤ taskState ∨ taskState + 4 ≤ off ∧ off + 8 ≤ taskSize)
    (hv : v < 256 ^ 8) : readLE (initTask L vmap entry args tid t kstack mem) (t + off) 8 = v := by
  have hlen : 8 * (spawnWords L entry args).length = 72 := rfl
  have hoff' : 8 ≤ off ∧ off + 8 ≤ taskSize ∧ (off + 8 ≤ taskState ∨ taskState + 4 ≤ off) := by
    simp only [taskState, taskSize] at hoff ⊢
    omega
  rw [initTask, readLE_writeLE_of_disjoint (by simp only [taskState] at hoff' ⊢; omega),
    readLE_writeLE_of_disjoint (by simp only [taskStack]; omega),
    readLE_congr fun x hlow hhigh => (pushBytes_spec (by rw [hlen]; exact hpos)).2 x ?_]
  · exact readLE_storeFields (newTaskFields_pairwise tid kstack vmap) hfield hv
  · rw [hlen]
    simp only [taskSize] at hbelow hoff'
    omega

/-- The outcomes of `ktask_spawn`: there is no memory for a task and the code writes through a null
pointer, or it returns a task, whose stack is fresh exactly if two frames in a row could be had. -/
theorem ktaskSpawn_outcome
    (hinv : KmallocInv Pmm.Ok Pmm.inUse hhdmOffset (2 ^ 43) ⟨s.k, blocks, others⟩ g) {p : Pmm}
    (hp : p.inUse ⊆ s.k.heap.pages.inUse) :
    ((∀ q, ¬ SlotLeft (s.k.caches taskCache) s.k.heap.pages q) ∧
        ktaskSpawn L vmap entry args s = none) ∨
      ∃ t s' q, t ≠ 0 ∧ SlotLeft (s.k.caches taskCache) s.k.heap.pages q ∧
        ktaskSpawn L vmap entry args s = some (t, s') ∧ (FreshStack p s' t ↔
          ∃ i, q.cachedIndex ≤ i ∧ q.FreeRange i kstackPages) := by
  obtain ⟨t, k', hrun, -, houtcome, g', hinv'⟩ :=
    kmalloc_outcome hinv (show KmallocSize taskSize from ⟨by decide, by decide⟩)
      (show kmallocBacking taskSize = .slab taskCache by decide)
  simp only at hrun houtcome
  rcases houtcome with ⟨hnone, rfl, -⟩ | ⟨ht, hhdr, hsome⟩
  · refine .inl ⟨hnone, ?_⟩
    simp only [ktaskSpawn, hrun, if_true]
  refine .inr ⟨t, _, k'.heap.pages, ht, hsome, by simp only [ktaskSpawn, hrun, if_neg ht]; rfl, ?_⟩
  rw [if_neg ht] at hinv'
  have hbelow := task_below hinv' hhdr List.mem_cons_self
  rw [← pmmAllocPages_ne_zero_iff hinv'.ok (by decide)]
  have haddr := pmmSource_lawful.allocPages_addr k'.heap.pages kstackPages hinv'.ok (by decide)
  have hfresh := pmmSource_lawful.allocPages_fresh k'.heap.pages kstackPages hinv'.ok (by decide)
  have hinUse := pmmSource_lawful.allocPages_inUse k'.heap.pages kstackPages hinv'.ok (by decide)
  simp only [pmmSource] at haddr hfresh hinUse
  generalize pmmAllocPages k'.heap.pages kstackPages = r at *
  have hlt : r.1 < 2 ^ 43 ∧ 4096 ∣ r.1 := by
    by_cases hr : r.1 = 0
    · simp [hr]
    · have hpages : kstackPages = 2 := rfl
      have := haddr hr
      omega
  have hkstack : kstackSize = 8192 := rfl
  have hword : (hhdmOffset + r.1) % wordSize = hhdmOffset + r.1 := by
    simp only [hhdmOffset, wordSize]
    omega
  have hread : ∀ off v, (off, v) ∈ newTaskFields s.tid (kstackSize + (hhdmOffset + r.1)) vmap →
      (8 ≤ off ∧ off + 8 ≤ taskState ∨ taskState + 4 ≤ off ∧ off + 8 ≤ taskSize) → v < 256 ^ 8 →
      readLE (initTask L vmap entry args s.tid t (kstackSize + (hhdmOffset + r.1)) k'.heap.mem)
        (t + off) 8 = v := fun off v hfield hoff hv =>
    readLE_initTask L vmap entry args hbelow (by simp only [hhdmOffset]; omega)
      (by omega) hfield hoff hv
  have hbase := hread taskStackBase (hhdmOffset + r.1) (by simp [newTaskFields]) (by decide)
    (by simp only [hhdmOffset]; omega)
  have hsize := hread taskStackSize kstackSize (by simp [newTaskFields]) (by decide) (by decide)
  have htop := hread taskKstackTop (kstackSize + (hhdmOffset + r.1)) (by simp [newTaskFields])
    (by decide) (by simp only [hhdmOffset]; omega)
  rw [hword]
  constructor
  · rintro ⟨phys, hphys, -, -, hphysBase, -⟩
    rw [hbase] at hphysBase
    omega
  · intro hr
    obtain ⟨-, hheld⟩ := hsome.inUse hinv.ok
    refine ⟨r.1, hr, ?_, (hfresh hr).mono_right (hp.trans hheld), hbase, hsize, htop.trans (by omega)⟩
    rw [hinUse hr]
    exact Set.subset_union_left

/-- A task has been returned: all is well if it has a stack. -/
theorem allOrNothing_task {st : KmallocState Pmm} {t : ℕ} {s : SpawnState} (ht : t ≠ 0) :
    AllOrNothing st (some (t, s)) ↔ FreshStack st.k.heap.pages s t := by
  constructor
  · rintro ⟨t, s, heq, ⟨-, hstack⟩ | ⟨hzero, -⟩⟩
    · cases heq
      exact hstack
    · cases heq
      exact absurd hzero ht
  · exact fun hstack => ⟨t, s, rfl, .inl ⟨ht, hstack⟩⟩

/-- `ktask_spawn`, called in a heap with the memory `mem` and the frame manager `q` that has the frames
of `st` in use, does all or nothing exactly if there is memory for the task and its stack. -/
theorem ktaskSpawn_allOrNothing {st : KmallocState Pmm}
    (hinv : KmallocInv Pmm.Ok Pmm.inUse hhdmOffset (2 ^ 43) ⟨s.k, blocks, others⟩ g)
    (hst : st.k.heap.pages.inUse ⊆ s.k.heap.pages.inUse) :
    AllOrNothing st (ktaskSpawn L vmap entry args s) ↔
      TaskFits (s.k.caches taskCache) s.k.heap.pages := by
  rcases ktaskSpawn_outcome L vmap entry args hinv hst with
    ⟨hnone, hrun⟩ | ⟨t, s', q, ht, hq, hrun, hstack⟩
  · rw [hrun]
    constructor
    · rintro ⟨t, s', heq, -⟩
      cases heq
    · rintro ⟨q, hq, -⟩
      exact absurd hq (hnone q)
  · rw [hrun, allOrNothing_task ht, hstack]
    constructor
    · exact fun hroom => ⟨q, hq, hroom⟩
    · rintro ⟨q', hq', hroom⟩
      rwa [hq.unique hq']

/-- The stores to the start arguments stay in their block. -/
theorem kmallocInv_storeStart {k : Kmalloc Pmm} {start : ℕ}
    (hinv : KmallocInv Pmm.Ok Pmm.inUse hhdmOffset (2 ^ 43)
      ⟨k, ⟨start - allocHeaderSize, utaskStartSize⟩ :: blocks, others⟩ g)
    (hhdr : allocHeaderSize ≤ start) :
    KmallocInv Pmm.Ok Pmm.inUse hhdmOffset (2 ^ 43)
      ⟨⟨k.caches, ⟨storeFields start k.heap.mem [(0, entry), (8, args)], k.heap.pages⟩⟩,
        ⟨start - allocHeaderSize, utaskStartSize⟩ :: blocks, others⟩ g := by
  refine hinv.elsewhere (fun f hf x hlow hhigh hout => ?_) hinv.ok hinv.others rfl
  refine @storeFields_of_outside _ _ _ utaskStartSize _ (by simp [utaskStartSize]) ?_
  have hblock := hout _ List.mem_cons_self
  simp only [Block.ptr, Block.endAddr] at hblock
  omega

/-- A result of `ktask_spawn` is never `0`. -/
theorem ktaskSpawn_ne_zero {t : ℕ} {s' : SpawnState}
    (h : ktaskSpawn L vmap entry args s = some (t, s')) : t ≠ 0 := by
  rw [ktaskSpawn] at h
  split at h
  · cases h
  · split at h
    · cases h
    next ht =>
      obtain ⟨rfl, -⟩ := Prod.mk.inj (Option.some.inj h)
      exact ht

/-- With the start arguments stored, `utask_spawn` does what `ktask_spawn` does. -/
theorem utaskSpawn_eq {start trampoline : ℕ} {k : Kmalloc Pmm}
    (hrun : kmalloc pmmSource hhdmOffset utaskStartSize s.k = some (start, k)) (hstart : start ≠ 0) :
    utaskSpawn L vmap trampoline entry args s = ktaskSpawn L vmap trampoline start
      ⟨⟨k.caches, ⟨storeFields start k.heap.mem [(0, entry), (8, args)], k.heap.pages⟩⟩, s.tid⟩ := by
  simp only [utaskSpawn, hrun, if_neg hstart]
  split
  · next hnone => exact hnone.symm
  · next hsome => rw [if_neg (ktaskSpawn_ne_zero L vmap trampoline start hsome), hsome]

/-- When the creation of tasks is all or nothing.

From every state of the heap, `ktask_spawn` and `utask_spawn` return a task with a stack of its own, or
`0` with all given back, if and only if there is memory for the task and for its stack, or, for
`utask_spawn`, not even memory for the start arguments. -/
theorem spawn_allOrNothing_iff {st : KmallocState Pmm} {g : KmallocGhost}
    (hinv : KmallocInv Pmm.Ok Pmm.inUse hhdmOffset (2 ^ 43) st g) (L : Linkage)
    (vmap trampoline entry args tid : ℕ) :
    (AllOrNothing st (ktaskSpawn L vmap entry args ⟨st.k, tid⟩) ↔
        TaskFits (st.k.caches taskCache) st.k.heap.pages) ∧
      (AllOrNothing st (utaskSpawn L vmap trampoline entry args ⟨st.k, tid⟩) ↔
        ∀ q, SlotLeft (st.k.caches utaskStartCache) st.k.heap.pages q →
          TaskFits (st.k.caches taskCache) q) := by
  refine ⟨ktaskSpawn_allOrNothing L vmap entry args hinv le_rfl, ?_⟩
  obtain ⟨start, k', hrun, hcaches, houtcome, g', hinv'⟩ :=
    kmalloc_outcome hinv (show KmallocSize utaskStartSize from ⟨by decide, by decide⟩)
      (show kmallocBacking utaskStartSize = .slab utaskStartCache by decide)
  rcases houtcome with ⟨hnone, rfl, hpages⟩ | ⟨hstart, hhdr, hsome⟩
  · refine iff_of_true ⟨0, ⟨k', tid⟩, by simp only [utaskSpawn, hrun, if_true], .inr ⟨rfl, ?_⟩⟩
      fun q hq => absurd hq (hnone q)
    exact ⟨by rw [hpages], g', hinv'⟩
  · rw [if_neg hstart] at hinv'
    have hinv'' := kmallocInv_storeStart entry args hinv' hhdr
    rw [utaskSpawn_eq (s := ⟨st.k, tid⟩) L vmap entry args hrun hstart,
      ktaskSpawn_allOrNothing L vmap trampoline start hinv'' (hsome.inUse hinv.ok).2,
      hcaches taskCache (by decide)]
    exact ⟨fun hfits q hq => hq.unique hsome ▸ hfits, fun hfits => hfits _ hsome⟩

/-- On the small map `utask_spawn` finds two frames for slabs, and two in a row for the stack. -/
theorem spawn_allOrNothing_sixFrameMap :
    ∃ s₀, initBitmapPmm sixFrameMap (fun _ => 0#8) = some s₀ ∧
      AllOrNothing (.init Pmm.inUse id ⟨fun _ => 0, s₀⟩)
        (utaskSpawn flatLinkage 0 0 0 0 ⟨⟨initKmalloc id, ⟨fun _ => 0, s₀⟩⟩, 1⟩) := by
  obtain ⟨s₀, hinit⟩ := initBitmapPmm_isSome sixFrameMap_bootable (fun _ => 0#8)
  have hframes : ((initBitmapPmm sixFrameMap (fun _ => 0#8)).map fun s =>
      let q := (pmmAllocPage s).2
      ((pmmAllocPage s).1, (pmmAllocPage q).1, (pmmAllocPages (pmmAllocPage q).2 kstackPages).1)) =
      some (0x1000, 0x2000, 0x3000) := by decide +kernel
  rw [hinit, Option.map_some, Option.some.injEq] at hframes
  simp only [Prod.mk.injEq] at hframes
  obtain ⟨hfirst, hsecond, hstack⟩ := hframes
  have hok : s₀.Ok := .of_init sixFrameMap_bootable hinit
  have hok' := pmmSource_lawful.allocPage_ok s₀ hok
  have hok'' := pmmSource_lawful.allocPage_ok _ hok'
  simp only [pmmSource] at hok' hok''
  have hempty : ∀ i, (initKmalloc id i).NeedsFrame := fun i => ⟨rfl, rfl⟩
  refine ⟨s₀, hinit, (spawn_allOrNothing_iff (kmallocInv_init id hok) flatLinkage 0 0 0 0 1).2.mpr
    fun q hq => ?_⟩
  obtain rfl := hq.unique (slotLeft_allocPage hok (hempty _) (hfirst.trans_ne (by decide)))
  exact ⟨_, slotLeft_allocPage hok' (hempty _) (hsecond.trans_ne (by decide)),
    (pmmAllocPages_ne_zero_iff hok'' (by decide)).mp (by simp [hstack])⟩

/-- With three frames left both blocks get their slabs, and the stack of the task is at address 0. -/
theorem utaskSpawn_stack_atZero :
    ∃ s₀ s, initBitmapPmm sixFrameMap (fun _ => 0#8) = some s₀ ∧
      utaskSpawn flatLinkage 0 0 0 0
        ⟨⟨initKmalloc id, ⟨fun _ => 0, (pmmAllocPages s₀ 2).2⟩⟩, 1⟩ =
          some (hhdmOffset + 0x4030, s) ∧
      readLE s.k.heap.mem (hhdmOffset + 0x4030 + taskStackBase) 8 = hhdmOffset ∧
      ¬ AllOrNothing (.init Pmm.inUse id ⟨fun _ => 0, (pmmAllocPages s₀ 2).2⟩)
        (some (hhdmOffset + 0x4030, s)) := by
  obtain ⟨s₀, hinit⟩ := initBitmapPmm_isSome sixFrameMap_bootable (fun _ => 0#8)
  have htask : ((initBitmapPmm sixFrameMap (fun _ => 0#8)).bind fun s =>
      (utaskSpawn flatLinkage 0 0 0 0
        ⟨⟨initKmalloc id, ⟨fun _ => 0, (pmmAllocPages s 2).2⟩⟩, 1⟩).map fun r =>
          (r.1, readLE r.2.k.heap.mem (r.1 + taskStackBase) 8)) =
      some (hhdmOffset + 0x4030, hhdmOffset) := by decide +kernel
  rw [hinit, Option.bind_some] at htask
  obtain ⟨⟨t, s⟩, hrun, hpair⟩ := Option.map_eq_some_iff.mp htask
  obtain ⟨rfl, hbase⟩ := Prod.mk.inj hpair
  refine ⟨s₀, s, hinit, hrun, hbase, fun h => ?_⟩
  obtain ⟨phys, hphys, -, -, hstack, -⟩ := (allOrNothing_task (by decide)).mp h
  rw [hbase] at hstack
  omega

end Spawn

end Flos.Sched
