import Flos.Mm.Kmalloc

/-!
# The invariant of the kernel heap

A ghost map says which frames the heap holds and for what: for the slabs of one of its caches, or
for one large block. Since every frame has one owner, everything that the heap keeps apart is
apart by pages; within a slab the invariant of its cache keeps the blocks apart.
-/

namespace Flos.Mm

open Flos.Lib

variable {P : Type*}

/-- A live block: the address of its header and the size asked for. -/
structure Block where
  hdr : ℕ
  size : ℕ
  deriving DecidableEq, Repr

/-- The pointer that the client holds. -/
def Block.ptr (b : Block) : ℕ := b.hdr + allocHeaderSize

/-- The end of the bytes of the client. -/
def Block.endAddr (b : Block) : ℕ := b.hdr + allocHeaderSize + b.size

/-- The header values of a block: `type`, and the index of the cache or the number of pages. -/
def Backing.fields : Backing → ℕ × ℕ
  | .slab idx => (slabBacked, idx)
  | .pages n => (pageBacked, n)

/-- The header of the block is in place. -/
def Block.Header (mem : ByteMem) (b : Block) : Prop :=
  readLE mem b.hdr 4 = (kmallocBacking b.size).fields.1 ∧
    readLE mem (b.hdr + allocHeaderData) 8 = (kmallocBacking b.size).fields.2

/-- The heap, the live blocks, and the frames in use by the rest of the kernel. -/
structure KmallocState (P : Type*) where
  k : Kmalloc P
  blocks : List Block
  others : Set ℕ

/-- The frames of the heap: those in use that are not the others'. -/
def KmallocState.frames (inUse : P → Set ℕ) (st : KmallocState P) : Set ℕ :=
  inUse st.k.heap.pages \ st.others

/-- What a frame is used for. -/
inductive FrameOwner
  | nobody
  | cache (i : ℕ)
  | run (hdr : ℕ)
  deriving DecidableEq

/-- The slabs of the caches and the owners of the frames. -/
structure KmallocGhost where
  slabs : ℕ → SlabGhost
  owner : ℕ → FrameOwner

/-- The headers of the blocks from cache `i`: the live objects of the cache. -/
def slabHeaders (blocks : List Block) (i : ℕ) : List ℕ :=
  (blocks.filter fun b => kmallocBacking b.size = .slab i).map Block.hdr

/-- The byte lies in the direct map of a frame of owner `w`. -/
def OwnedBy (hhdm : ℕ) (owner : ℕ → FrameOwner) (w : FrameOwner) (x : ℕ) : Prop :=
  ∃ f, owner f = w ∧ hhdm + f ≤ x ∧ x < hhdm + f + 4096

/-- The owner of the frames of a block. -/
def Block.owner (b : Block) : FrameOwner :=
  match kmallocBacking b.size with
  | .slab i => .cache i
  | .pages _ => .run b.hdr

/-- The invariant of the heap. -/
structure KmallocInv (Ok : P → Prop) (inUse : P → Set ℕ) (hhdm limit : ℕ) (st : KmallocState P)
    (g : KmallocGhost) : Prop where
  ok : Ok st.k.heap.pages
  others : st.others ⊆ inUse st.k.heap.pages
  owned : ∀ f, f ∈ st.frames inUse ↔ g.owner f ≠ .nobody
  frame : ∀ f, g.owner f ≠ .nobody → 4096 ∣ f ∧ f + 4096 ≤ limit
  size : ∀ i < 26, (st.k.caches i).size = kmallocSizes.getD i 0
  slab : ∀ i < 26, SlabInv (st.k.caches i) st.k.heap.mem (g.slabs i) (slabHeaders st.blocks i)
  slab_owner : ∀ i < 26, ∀ b, b ∈ (g.slabs i).slabs ↔ ∃ f, b = hhdm + f ∧ g.owner f = .cache i
  cache_lt : ∀ f i, g.owner f = .cache i → i < 26
  block_size : ∀ b ∈ st.blocks, KmallocSize b.size
  nodup : (st.blocks.map Block.hdr).Nodup
  run : ∀ b ∈ st.blocks, ∀ n, kmallocBacking b.size = .pages n →
    ∃ phys, b.hdr = hhdm + phys ∧ ∀ f, g.owner f = .run b.hdr ↔ f ∈ frameAddrs phys n
  run_block : ∀ f hdr, g.owner f = .run hdr →
    ∃ b ∈ st.blocks, b.hdr = hdr ∧ ∃ n, kmallocBacking b.size = .pages n
  header : ∀ b ∈ st.blocks, b.Header st.k.heap.mem

/-- The live objects of a cache are the headers of its blocks. -/
theorem mem_slabHeaders {blocks : List Block} {i a : ℕ} :
    a ∈ slabHeaders blocks i ↔ ∃ b ∈ blocks, kmallocBacking b.size = .slab i ∧ b.hdr = a := by
  simp [slabHeaders, and_assoc]

/-- A new block counts for its own cache only. -/
theorem slabHeaders_cons (b : Block) (blocks : List Block) (i : ℕ) :
    slabHeaders (b :: blocks) i =
      if kmallocBacking b.size = .slab i then b.hdr :: slabHeaders blocks i
      else slabHeaders blocks i := by
  by_cases h : kmallocBacking b.size = .slab i <;> simp [slabHeaders, h]

/-- The headers before a block is freed. -/
theorem slabHeaders_erase {blocks : List Block} {b : Block} (hb : b ∈ blocks) (i : ℕ) :
    (slabHeaders blocks i).Perm (slabHeaders (b :: blocks.erase b) i) :=
  ((List.perm_cons_erase hb).filter _).map _

/-- The header of a block depends on its twelve bytes only. -/
theorem Block.Header.congr {mem mem' : ByteMem} {b : Block} (h : b.Header mem)
    (hsame : ∀ x, b.hdr ≤ x → x < b.hdr + 12 → mem' x = mem x) : b.Header mem' := by
  obtain ⟨htype, hdata⟩ := h
  refine ⟨?_, ?_⟩
  · rw [← htype]
    exact readLE_congr fun x h1 h2 => hsame x h1 (by omega)
  · rw [← hdata]
    simp only [allocHeaderData]
    exact readLE_congr fun x h1 h2 => hsame x (by omega) (by omega)

/-- Storing the header of a block puts it in place. -/
theorem Block.header_write {mem : ByteMem} {b : Block} {type data : ℕ}
    (hfields : (kmallocBacking b.size).fields = (type, data)) (htype : type < 256 ^ 4)
    (hdata : data < 256 ^ 8) :
    b.Header (writeLE (writeLE mem b.hdr 4 type) (b.hdr + allocHeaderData) 8 data) := by
  rw [Block.Header, hfields]
  refine ⟨?_, readLE_writeLE_self hdata⟩
  rw [readLE_writeLE_of_disjoint (by simp only [allocHeaderData]; omega)]
  exact readLE_writeLE_self htype

/-- Storing a header changes its twelve bytes only. -/
theorem header_write_of_outside {mem : ByteMem} {hdr type data x : ℕ}
    (hx : x < hdr ∨ hdr + 12 ≤ x) :
    writeLE (writeLE mem hdr 4 type) (hdr + allocHeaderData) 8 data x = mem x := by
  simp only [allocHeaderData]
  rw [writeLE_of_outside (by omega), writeLE_of_outside (by omega)]

/-- A byte has one owner. -/
theorem OwnedBy.unique {hhdm : ℕ} {owner : ℕ → FrameOwner}
    (hframe : ∀ f, owner f ≠ .nobody → 4096 ∣ f) {w w' : FrameOwner} {x : ℕ}
    (h : OwnedBy hhdm owner w x) (h' : OwnedBy hhdm owner w' x) (hw : w ≠ .nobody)
    (hw' : w' ≠ .nobody) : w = w' := by
  obtain ⟨f, rfl, h1, h2⟩ := h
  obtain ⟨f', rfl, h3, h4⟩ := h'
  have hdvd := hframe f hw
  have hdvd' := hframe f' hw'
  obtain rfl : f = f' := by omega
  rfl

/-- A block is owned by somebody. -/
theorem Block.owner_ne (b : Block) : b.owner ≠ .nobody := by
  simp only [Block.owner]
  split <;> simp

namespace KmallocInv

variable {Ok : P → Prop} {inUse : P → Set ℕ} {hhdm limit : ℕ} {st : KmallocState P}
  {g : KmallocGhost}

/-- A page of a slab belongs to the cache. -/
theorem slab_bytes (hinv : KmallocInv Ok inUse hhdm limit st g) {i b x : ℕ} (hi : i < 26)
    (hb : b ∈ (g.slabs i).slabs) (hx : b ≤ x ∧ x < b + 4096) :
    OwnedBy hhdm g.owner (.cache i) x := by
  obtain ⟨f, rfl, hf⟩ := (hinv.slab_owner i hi b).mp hb
  exact ⟨f, hf, hx⟩

/-- Where a block from a cache lies: in a slot of one of the slabs of the cache. -/
theorem slab_block (hinv : KmallocInv Ok inUse hhdm limit st g) {b : Block} (hb : b ∈ st.blocks)
    {i : ℕ} (hslab : kmallocBacking b.size = .slab i) :
    i < 26 ∧ 16 ∣ kmallocSizes.getD i 0 ∧ b.size + allocHeaderSize ≤ kmallocSizes.getD i 0 ∧
      pageOf b.hdr ∈ (g.slabs i).slabs ∧
      b.hdr ∈ slabSlots (kmallocSizes.getD i 0) (pageOf b.hdr) := by
  obtain ⟨hi, -, hfit, hdvd⟩ := kmallocBacking_slab (hinv.block_size b hb) hslab
  have hlive : b.hdr ∈ slabHeaders st.blocks i := mem_slabHeaders.mpr ⟨b, hb, hslab, rfl⟩
  have hshape := (hinv.slab i hi).shape
  rw [hinv.size i hi] at hshape
  exact ⟨hi, hdvd, hfit, hshape.live_slab _ hlive, hshape.live_slot hlive⟩

/-- Where a large block lies: at the start of its run of frames. -/
theorem run_block_bytes (hinv : KmallocInv Ok inUse hhdm limit st g) {b : Block}
    (hb : b ∈ st.blocks) {n : ℕ} (hpages : kmallocBacking b.size = .pages n) :
    0 < n ∧ n < 2 ^ 31 ∧ b.size + allocHeaderSize ≤ n * 4096 ∧ ∃ phys, b.hdr = hhdm + phys ∧
      4096 ∣ phys ∧ phys + n * 4096 ≤ limit ∧
      ∀ f, g.owner f = .run b.hdr ↔ f ∈ frameAddrs phys n := by
  obtain ⟨-, -, hpos, hlt, hfit⟩ := kmallocBacking_pages (hinv.block_size b hb) hpages
  obtain ⟨phys, hhdr, howner⟩ := hinv.run b hb n hpages
  have hfirst := (howner phys).mpr ⟨0, hpos, by omega⟩
  have hlast := (howner (phys + (n - 1) * 4096)).mpr ⟨n - 1, by omega, rfl⟩
  have h1 := hinv.frame phys (by simp [hfirst])
  have h2 := hinv.frame (phys + (n - 1) * 4096) (by simp [hlast])
  exact ⟨hpos, hlt, hfit, phys, hhdr, h1.1, by omega, howner⟩

/-- The bytes of a block lie in frames of its owner. -/
theorem block_bytes (hinv : KmallocInv Ok inUse hhdm limit st g) {b : Block} (hb : b ∈ st.blocks)
    {x : ℕ} (hx : b.hdr ≤ x ∧ x < b.endAddr) : OwnedBy hhdm g.owner b.owner x := by
  simp only [Block.endAddr, allocHeaderSize] at hx
  cases hbacking : kmallocBacking b.size with
  | slab i =>
    obtain ⟨hi, -, hfit, hpage, hslot⟩ := hinv.slab_block hb hbacking
    have hbounds := slot_bounds hslot
    simp only [Block.owner, hbacking]
    simp only [allocHeaderSize, slabHdr] at hfit hbounds
    exact hinv.slab_bytes hi hpage (by omega)
  | pages n =>
    obtain ⟨-, -, hfit, phys, hhdr, -, -, howner⟩ := hinv.run_block_bytes hb hbacking
    simp only [Block.owner, hbacking]
    simp only [allocHeaderSize] at hfit
    refine ⟨phys + (x - b.hdr) / 4096 * 4096, (howner _).mpr ⟨_, ?_, rfl⟩, ?_, ?_⟩ <;> omega

/-- The bytes of a slab behind its live objects lie in frames of the cache. -/
theorem meta_bytes (hinv : KmallocInv Ok inUse hhdm limit st g) {i x size : ℕ} {live : List ℕ}
    (hi : i < 26) (hx : MetaByte size (g.slabs i).slabs live x) :
    OwnedBy hhdm g.owner (.cache i) x := by
  obtain ⟨b, hb, hin, -⟩ := hx
  exact hinv.slab_bytes hi hb hin

/-- Two owners share no byte. -/
theorem unique (hinv : KmallocInv Ok inUse hhdm limit st g) {w w' : FrameOwner} {x : ℕ}
    (h : OwnedBy hhdm g.owner w x) (h' : OwnedBy hhdm g.owner w' x) (hw : w ≠ .nobody)
    (hw' : w' ≠ .nobody) : w = w' :=
  h.unique (fun f hf => (hinv.frame f hf).1) h' hw hw'

/-- Two blocks share no byte. -/
theorem apart (hinv : KmallocInv Ok inUse hhdm limit st g) {b c : Block} (hb : b ∈ st.blocks)
    (hc : c ∈ st.blocks) (hne : b ≠ c) : b.endAddr ≤ c.hdr ∨ c.endAddr ≤ b.hdr := by
  have hhdr : b.hdr ≠ c.hdr := fun h => hne (List.inj_on_of_nodup_map hinv.nodup hb hc h)
  by_contra hover
  -- a common byte would make the two owners equal
  have hbytes : (b.hdr ≤ max b.hdr c.hdr ∧ max b.hdr c.hdr < b.endAddr) ∧
      c.hdr ≤ max b.hdr c.hdr ∧ max b.hdr c.hdr < c.endAddr := by
    simp only [Block.endAddr, allocHeaderSize] at hover ⊢
    omega
  have howner := hinv.unique (hinv.block_bytes hb hbytes.1) (hinv.block_bytes hc hbytes.2)
    b.owner_ne c.owner_ne
  cases hbacking : kmallocBacking b.size with
  | slab i =>
    cases hbacking' : kmallocBacking c.size with
    | slab j =>
      obtain rfl : i = j := by simpa [Block.owner, hbacking, hbacking'] using howner
      obtain ⟨-, -, hfit, -, hslot⟩ := hinv.slab_block hb hbacking
      obtain ⟨-, -, hfit', -, hslot'⟩ := hinv.slab_block hc hbacking'
      simp only [Block.endAddr, allocHeaderSize] at hover hfit hfit'
      by_cases hpage : pageOf b.hdr = pageOf c.hdr
      · rw [hpage] at hslot
        have := slot_apart hslot hslot' hhdr
        omega
      · have := slot_bounds hslot
        have := slot_bounds hslot'
        simp only [pageOf, slabHdr] at *
        omega
    | pages n => simp [Block.owner, hbacking, hbacking'] at howner
  | pages n =>
    cases hbacking' : kmallocBacking c.size with
    | slab j => simp [Block.owner, hbacking, hbacking'] at howner
    | pages m => exact hhdr (by simpa [Block.owner, hbacking, hbacking'] using howner)

/-- The pointer of a block is aligned. -/
theorem ptr_aligned (hinv : KmallocInv Ok inUse hhdm limit st g) (hmap : DirectMap hhdm limit)
    {b : Block} (hb : b ∈ st.blocks) : 16 ∣ b.ptr := by
  cases hbacking : kmallocBacking b.size with
  | slab i =>
    obtain ⟨-, hdvd, -, -, hslot⟩ := hinv.slab_block hb hbacking
    obtain ⟨j, -, heq⟩ := mem_slabSlots.mp hslot
    obtain ⟨q, hq⟩ : 16 ∣ j * kmallocSizes.getD i 0 := hdvd.mul_left j
    simp only [Block.ptr, allocHeaderSize, pageOf, slabHdr] at heq ⊢
    omega
  | pages n =>
    obtain ⟨-, -, -, phys, hhdr, hdvd, -⟩ := hinv.run_block_bytes hb hbacking
    have := hmap.aligned
    simp only [Block.ptr, allocHeaderSize]
    omega

/-- The slabs of a cache are held by the frame manager. -/
theorem slabsHeld (hinv : KmallocInv Ok inUse hhdm limit st g) {i : ℕ} (hi : i < 26) :
    SlabsHeld hhdm (inUse st.k.heap.pages) (g.slabs i).slabs := by
  intro b hb
  obtain ⟨f, rfl, hf⟩ := (hinv.slab_owner i hi b).mp hb
  exact ⟨f, ((hinv.owned f).mpr (by simp [hf])).1, rfl⟩

/-- A byte of a live object of a cache that belongs to the metadata of no slab. -/
theorem not_meta_of_block (hinv : KmallocInv Ok inUse hhdm limit st g) {b : Block}
    (hb : b ∈ st.blocks) {i x : ℕ} (hi : i < 26) (hx : b.hdr ≤ x ∧ x < b.endAddr) :
    ¬ MetaByte (st.k.caches i).size (g.slabs i).slabs (slabHeaders st.blocks i) x := by
  intro hmeta
  have howner := hinv.unique (hinv.block_bytes hb hx) (hinv.meta_bytes hi hmeta) b.owner_ne
    (by simp)
  cases hbacking : kmallocBacking b.size with
  | slab j =>
    obtain rfl : j = i := by simpa [Block.owner, hbacking] using howner
    obtain ⟨-, -, hfit, -⟩ := hinv.slab_block hb hbacking
    obtain ⟨-, -, -, hlive⟩ := hmeta
    refine hlive b.hdr (mem_slabHeaders.mpr ⟨b, hb, hbacking, rfl⟩) ?_
    rw [hinv.size j hi]
    simp only [Block.endAddr, allocHeaderSize] at hx hfit
    omega
  | pages n => simp [Block.owner, hbacking] at howner

/-- The rest of the kernel may change the frame manager's other frames, and memory outside the
heap's frames and inside the clients' bytes. -/
theorem elsewhere (hinv : KmallocInv Ok inUse hhdm limit st g) {mem : ByteMem} {pages : P}
    {others : Set ℕ}
    (hmem : ∀ f ∈ st.frames inUse, ∀ x, hhdm + f ≤ x → x < hhdm + f + 4096 →
      (∀ b ∈ st.blocks, ¬ (b.ptr ≤ x ∧ x < b.endAddr)) → mem x = st.k.heap.mem x)
    (hok : Ok pages) (hothers : others ⊆ inUse pages)
    (hframes : inUse pages \ others = st.frames inUse) :
    KmallocInv Ok inUse hhdm limit ⟨⟨st.k.caches, ⟨mem, pages⟩⟩, st.blocks, others⟩ g := by
  have hkeep : ∀ w x, w ≠ .nobody → OwnedBy hhdm g.owner w x →
      (∀ b ∈ st.blocks, ¬ (b.ptr ≤ x ∧ x < b.endAddr)) → mem x = st.k.heap.mem x := by
    rintro w x hw ⟨f, rfl, h1, h2⟩ hclient
    exact hmem f ((hinv.owned f).mpr hw) x h1 h2 hclient
  refine ⟨hok, hothers, fun f => ?_, hinv.frame, hinv.size, fun i hi => ?_, hinv.slab_owner,
    hinv.cache_lt, hinv.block_size, hinv.nodup, hinv.run, hinv.run_block, fun b hb => ?_⟩
  · rw [KmallocState.frames, hframes]
    exact hinv.owned f
  · refine (hinv.slab i hi).congr fun x hx => ?_
    refine hkeep _ x (by simp) (hinv.meta_bytes hi hx) fun b hb hin => ?_
    refine hinv.not_meta_of_block hb hi ?_ hx
    simp only [Block.ptr] at hin
    omega
  · refine (hinv.header b hb).congr fun x h1 h2 => ?_
    have hin : b.hdr ≤ x ∧ x < b.endAddr := by
      simp only [Block.endAddr, allocHeaderSize]
      omega
    refine hkeep _ x b.owner_ne (hinv.block_bytes hb hin) fun c hc hclient => ?_
    by_cases hbc : b = c
    · subst hbc
      simp only [Block.ptr, allocHeaderSize] at hclient
      omega
    · have := hinv.apart hb hc hbc
      simp only [Block.ptr, Block.endAddr, allocHeaderSize] at *
      omega

end KmallocInv

end Flos.Mm
