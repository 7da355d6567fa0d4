import Flos.Mm.KmallocSteps

/-!
# Runs of the kernel heap

Runs of `kmalloc` and `kfree` from `init_kmalloc`, each free naming a live block, interleaved
with the rest of the kernel: clients write to their blocks, others use the frame manager and
their own memory. The live blocks never overlap, every pointer is aligned, a block goes back to
where it came from, and nothing is lost.
-/

namespace Flos.Mm

open Flos.Lib

variable {P : Type*}

/-- A call of the heap, or a step of the rest of the kernel to new memory, a new frame manager and
new frames of its own. -/
inductive KmallocOp (P : Type*)
  | kmalloc (size : ℕ)
  | kfree (ptr : ℕ)
  | elsewhere (mem : ByteMem) (pages : P) (others : Set ℕ)

/-- One step. A free names a live block; other code keeps the frames of the heap, and their bytes
outside the clients' parts of the live blocks. -/
inductive KmallocStep (F : PageSource P) (Ok : P → Prop) (inUse : P → Set ℕ) (hhdm : ℕ)
    (st : KmallocState P) : KmallocOp P → KmallocState P → Prop
  | kmalloc {size ptr : ℕ} {k : Kmalloc P} :
      KmallocSize size → kmalloc F hhdm size st.k = some (ptr, k) →
      KmallocStep F Ok inUse hhdm st (.kmalloc size)
        ⟨k, if ptr = 0 then st.blocks else ⟨ptr - allocHeaderSize, size⟩ :: st.blocks, st.others⟩
  | kfree {b : Block} : b ∈ st.blocks →
      KmallocStep F Ok inUse hhdm st (.kfree b.ptr)
        ⟨kfree F hhdm b.ptr st.k, st.blocks.erase b, st.others⟩
  | elsewhere {mem : ByteMem} {pages : P} {others : Set ℕ} :
      (∀ f ∈ st.frames inUse, ∀ x, hhdm + f ≤ x → x < hhdm + f + 4096 →
        (∀ b ∈ st.blocks, ¬ (b.ptr ≤ x ∧ x < b.endAddr)) → mem x = st.k.heap.mem x) →
      Ok pages → others ⊆ inUse pages → inUse pages \ others = st.frames inUse →
      KmallocStep F Ok inUse hhdm st (.elsewhere mem pages others)
        ⟨⟨st.k.caches, ⟨mem, pages⟩⟩, st.blocks, others⟩

/-- The heap after `init_kmalloc`: all frames in use are the others'. -/
def KmallocState.init (inUse : P → Set ℕ) (pool : ℕ → ℕ) (h : Heap P) : KmallocState P :=
  ⟨⟨initKmalloc pool, h⟩, [], inUse h.pages⟩

/-- A block lies in a slot of its cache, or in a run of frames of the heap. -/
def Block.InBacking (inUse : P → Set ℕ) (hhdm : ℕ) (slabs : ℕ → SlabGhost) (st : KmallocState P)
    (b : Block) : Prop :=
  match kmallocBacking b.size with
  | .slab i => ∃ a ∈ (slabs i).slabs, b.hdr ∈ slabSlots (st.k.caches i).size a ∧
      b.endAddr ≤ b.hdr + (st.k.caches i).size
  | .pages n => ∃ phys, b.hdr = hhdm + phys ∧ frameAddrs phys n ⊆ st.frames inUse ∧
      b.endAddr ≤ b.hdr + n * 4096

section Runs

variable {F : PageSource P} {Ok : P → Prop} {inUse : P → Set ℕ} {hhdm limit : ℕ}

/-- The invariant holds after `init_kmalloc`. -/
theorem kmallocInv_init (pool : ℕ → ℕ) {h : Heap P} (hok : Ok h.pages) :
    KmallocInv Ok inUse hhdm limit (KmallocState.init inUse pool h)
      ⟨fun _ => ⟨[], [], fun _ => [], []⟩, fun _ => .nobody⟩ := by
  refine ⟨hok, le_rfl, by simp [KmallocState.frames, KmallocState.init], by simp,
    fun i hi => (initKmalloc_size pool hi).2, fun i hi => ?_, by simp, by simp,
    by simp [KmallocState.init], List.nodup_nil, by simp [KmallocState.init], by simp,
    by simp [KmallocState.init]⟩
  exact slabInv_create (initKmalloc_size pool hi).1 h.mem

/-- One step keeps the invariant. -/
theorem KmallocStep.inv (hF : F.Lawful Ok inUse limit) (hmap : DirectMap hhdm limit)
    {st st' : KmallocState P} {op : KmallocOp P} (hstep : KmallocStep F Ok inUse hhdm st op st')
    (hinv : ∃ g, KmallocInv Ok inUse hhdm limit st g) :
    ∃ g, KmallocInv Ok inUse hhdm limit st' g := by
  obtain ⟨g, hinv⟩ := hinv
  cases hstep with
  | kmalloc hsize heq =>
    obtain ⟨ptr', k', heq', -, hinv'⟩ := hinv.kmalloc_spec hF hmap hsize
    cases heq.symm.trans heq'
    exact hinv'
  | kfree hb => exact (hinv.kfree_spec hF hmap hb).2
  | elsewhere hmem hok hothers hframes => exact ⟨g, hinv.elsewhere hmem hok hothers hframes⟩

/-- The place of a block. -/
theorem KmallocInv.inBacking {st : KmallocState P} {g : KmallocGhost}
    (hinv : KmallocInv Ok inUse hhdm limit st g) {b : Block} (hb : b ∈ st.blocks) :
    b.InBacking inUse hhdm g.slabs st := by
  simp only [Block.InBacking, Block.endAddr]
  cases hbacking : kmallocBacking b.size with
  | slab i =>
    obtain ⟨hi, -, hfit, hpage, hslot⟩ := hinv.slab_block hb hbacking
    dsimp only
    rw [hinv.size i hi]
    exact ⟨_, hpage, hslot, by omega⟩
  | pages n =>
    obtain ⟨-, -, hfit, phys, hhdr, -, -, howner⟩ := hinv.run_block_bytes hb hbacking
    refine ⟨phys, hhdr, fun f hf => (hinv.owned f).mpr ?_, by omega⟩
    rw [(howner f).mpr hf]
    simp

/-- With no block left, the heap holds the frames of its slabs only, and every slot is free. -/
theorem KmallocInv.empty {st : KmallocState P} {g : KmallocGhost}
    (hinv : KmallocInv Ok inUse hhdm limit st g) (hempty : st.blocks = []) :
    st.frames inUse = {f | ∃ i < 26, hhdm + f ∈ (g.slabs i).slabs} ∧
      ∀ i < 26, ∀ b ∈ (g.slabs i).slabs, ∀ a ∈ slabSlots (st.k.caches i).size b,
        a ∈ (g.slabs i).freeOf (st.k.caches i).cpuSlab b := by
  constructor
  · ext f
    rw [hinv.owned f, Set.mem_ofPred_eq]
    constructor
    · intro hne
      cases howner : g.owner f with
      | nobody => exact absurd howner hne
      | cache i =>
        have hi := hinv.cache_lt f i howner
        exact ⟨i, hi, (hinv.slab_owner i hi _).mpr ⟨f, rfl, howner⟩⟩
      | run hdr =>
        obtain ⟨b, hb, -⟩ := hinv.run_block f hdr howner
        simp [hempty] at hb
    · rintro ⟨i, hi, hslab⟩
      obtain ⟨f', heq, howner⟩ := (hinv.slab_owner i hi _).mp hslab
      obtain rfl : f = f' := by omega
      simp [howner]
  · intro i hi b hb a ha
    have hplace := ((hinv.slab i hi).shape.place b hb).mem_iff.mp ha
    simpa [hempty, slabHeaders, liveOf] using hplace

/-- The kernel heap over whole runs. In every state reached the live blocks with their headers do
not overlap, and each lies in a slot of its cache or in its run of frames, with an aligned pointer;
`kmalloc` fails no assertion and takes its block from a cache or the frame manager, and `kfree`
gives each live block back to just that place; and with no block left every frame of a large block
has been given back and every slot is free. -/
theorem kmalloc_run_safe (hF : F.Lawful Ok inUse limit) (hmap : DirectMap hhdm limit)
    {pool : ℕ → ℕ} {h₀ : Heap P} (hok : Ok h₀.pages) {ops : List (KmallocOp P)}
    {st : KmallocState P}
    (hrun : Run (KmallocStep F Ok inUse hhdm) (KmallocState.init inUse pool h₀) ops st) :
    st.blocks.Pairwise (fun b c => b.endAddr ≤ c.hdr ∨ c.endAddr ≤ b.hdr) ∧
    (∀ b ∈ st.blocks, 16 ∣ b.ptr ∧
      GivenBack F hhdm b st.k (kfree F hhdm b.ptr st.k)) ∧
    (∀ size, KmallocSize size → ∃ ptr k', kmalloc F hhdm size st.k = some (ptr, k') ∧
      (ptr ≠ 0 → 16 ∣ ptr ∧ TakenFrom F hhdm size st.k ptr k')) ∧
    ∃ slabs : ℕ → SlabGhost,
      (∀ i < 26, SlabInv (st.k.caches i) st.k.heap.mem (slabs i) (slabHeaders st.blocks i)) ∧
      (∀ b ∈ st.blocks, b.InBacking inUse hhdm slabs st) ∧
      (st.blocks = [] →
        st.frames inUse = {f | ∃ i < 26, hhdm + f ∈ (slabs i).slabs} ∧
        ∀ i < 26, ∀ b ∈ (slabs i).slabs, ∀ a ∈ slabSlots (st.k.caches i).size b,
          a ∈ (slabs i).freeOf (st.k.caches i).cpuSlab b) := by
  obtain ⟨g, hinv⟩ : ∃ g, KmallocInv Ok inUse hhdm limit st g :=
    hrun.invariant _ (fun _ _ _ hinv hstep => hstep.inv hF hmap hinv)
      ⟨_, kmallocInv_init pool hok⟩
  refine ⟨?_, fun b hb => ⟨hinv.ptr_aligned hmap hb, (hinv.kfree_spec hF hmap hb).1⟩,
    fun size hsize => ?_, g.slabs, hinv.slab, fun b hb => hinv.inBacking hb, hinv.empty⟩
  · have hblocks : st.blocks.Nodup := .of_map _ hinv.nodup
    exact hblocks.imp_of_mem fun hb hc hne => hinv.apart hb hc hne
  · obtain ⟨ptr, k', heq, htaken, g', hinv'⟩ := hinv.kmalloc_spec hF hmap hsize
    refine ⟨ptr, k', heq, fun hptr => ⟨?_, (htaken hptr).2⟩⟩
    rw [if_neg hptr] at hinv'
    have haligned := hinv'.ptr_aligned hmap List.mem_cons_self
    rwa [Block.ptr, Nat.sub_add_cancel (htaken hptr).1] at haligned

end Runs

/-- On the small map a block of 100 bytes takes a slot of the class of 128 bytes in frame 1, and a
block of 5000 bytes the frames 2 and 3. -/
theorem kmalloc_run_safe_sixFrameMap :
    ∃ s₀ st, initBitmapPmm sixFrameMap (fun _ => 0#8) = some s₀ ∧
      Run (KmallocStep pmmSource Pmm.Ok Pmm.inUse hhdmOffset)
        (KmallocState.init Pmm.inUse id ⟨fun _ => 0, s₀⟩) [.kmalloc 100, .kmalloc 5000] st ∧
      st.blocks = [⟨hhdmOffset + 0x2000, 5000⟩, ⟨hhdmOffset + 0x1020, 100⟩] ∧
      st.blocks.Pairwise (fun b c => b.endAddr ≤ c.hdr ∨ c.endAddr ≤ b.hdr) := by
  obtain ⟨s₀, hinit⟩ := initBitmapPmm_isSome sixFrameMap_bootable (fun _ => 0#8)
  have hptrs : ((initBitmapPmm sixFrameMap (fun _ => 0#8)).bind fun s =>
      (kmalloc pmmSource hhdmOffset 100 ⟨initKmalloc id, ⟨fun _ => 0, s⟩⟩).bind fun r =>
        (kmalloc pmmSource hhdmOffset 5000 r.2).map fun r' => (r.1, r'.1)) =
      some (hhdmOffset + 0x1030, hhdmOffset + 0x2010) := by decide +kernel
  rw [hinit, Option.bind_some] at hptrs
  obtain ⟨⟨ptr, k⟩, heq, hptrs⟩ := Option.bind_eq_some_iff.mp hptrs
  obtain ⟨⟨ptr', k'⟩, heq', hptrs⟩ := Option.map_eq_some_iff.mp hptrs
  obtain ⟨rfl, rfl⟩ : ptr = hhdmOffset + 0x1030 ∧ ptr' = hhdmOffset + 0x2010 := by
    simpa using hptrs
  have hrun : Run (KmallocStep pmmSource Pmm.Ok Pmm.inUse hhdmOffset)
      (KmallocState.init Pmm.inUse id ⟨fun _ => 0, s₀⟩) [.kmalloc 100, .kmalloc 5000] _ :=
    .cons (.kmalloc ⟨by decide, by decide⟩ heq) (.single (.kmalloc ⟨by decide, by decide⟩ heq'))
  refine ⟨s₀, _, hinit, hrun, rfl, ?_⟩
  exact (kmalloc_run_safe pmmSource_lawful directMap_hhdmOffset
    (Pmm.Ok.of_init sixFrameMap_bootable hinit) hrun).1

end Flos.Mm
