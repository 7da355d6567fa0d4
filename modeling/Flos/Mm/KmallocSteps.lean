import Flos.Mm.KmallocInv

/-!
# The steps of the kernel heap

`kmalloc` and `kfree` each keep the invariant of the heap. A call changes bytes of one owner
only, and within a cache no byte of another live block.
-/

namespace Flos.Mm

open Flos.Lib

variable {P : Type*} {F : PageSource P} {Ok : P → Prop} {inUse : P → Set ℕ} {hhdm limit : ℕ}

/-- The header of `b` written over `mem`. -/
def Block.writeHeader (mem : ByteMem) (b : Block) : ByteMem :=
  writeLE (writeLE mem b.hdr 4 (kmallocBacking b.size).fields.1) (b.hdr + allocHeaderData) 8
    (kmallocBacking b.size).fields.2

/-- `kmalloc` of a size that a cache serves. -/
theorem kmalloc_slab {k : Kmalloc P} {size i obj : ℕ} {cache : KmemCache} {heap : Heap P}
    (hsize : KmallocSize size) (hbacking : kmallocBacking size = .slab i)
    (halloc : kmemCacheAlloc F hhdm (k.caches i) k.heap = some (obj, cache, heap)) :
    kmalloc F hhdm size k =
      if obj = 0 then some (0, ⟨Function.update k.caches i cache, heap⟩)
      else some ((obj + allocHeaderSize) % wordSize,
        ⟨Function.update k.caches i cache, ⟨(Block.mk obj size).writeHeader heap.mem, heap.pages⟩⟩) := by
  obtain ⟨-, hidx, -⟩ := kmallocBacking_slab hsize hbacking
  rw [kmalloc, if_neg hsize.1.ne']
  simp only [hidx, Int.natCast_nonneg, if_true, Int.toNat_natCast, halloc, Block.writeHeader,
    hbacking, Backing.fields]

/-- `kmalloc` of a size that takes whole pages. -/
theorem kmalloc_pages {k : Kmalloc P} {size n : ℕ} (hsize : KmallocSize size)
    (hbacking : kmallocBacking size = .pages n) :
    kmalloc F hhdm size k =
      let r := F.allocPages k.heap.pages n
      let hdr := (hhdm + r.1) % wordSize
      if r.1 = 0 then some (0, ⟨k.caches, ⟨k.heap.mem, r.2⟩⟩)
      else if hdr = 0 then some (0, ⟨k.caches, ⟨k.heap.mem, r.2⟩⟩)
      else some ((hdr + allocHeaderSize) % wordSize,
        ⟨k.caches, ⟨(Block.mk hdr size).writeHeader k.heap.mem, r.2⟩⟩) := by
  obtain ⟨hidx, hpages, -⟩ := kmallocBacking_pages hsize hbacking
  rw [kmalloc, if_neg hsize.1.ne']
  simp only [hidx, if_false, hpages, Block.writeHeader, hbacking, Backing.fields]

/-- `kfree` of a block whose header is in place. -/
theorem kfree_eq {k : Kmalloc P} {b : Block} (hheader : b.Header k.heap.mem)
    (hlt : b.hdr < wordSize) :
    kfree F hhdm b.ptr k =
      match kmallocBacking b.size with
      | .slab i =>
        ⟨Function.update k.caches i (kmemCacheFree (k.caches i) b.hdr k.heap).1,
          (kmemCacheFree (k.caches i) b.hdr k.heap).2⟩
      | .pages n =>
        ⟨k.caches, ⟨k.heap.mem,
          F.freePages k.heap.pages ((b.hdr + (wordSize - hhdm)) % wordSize) n⟩⟩ := by
  obtain ⟨htype, hdata⟩ := hheader
  have hhdr : (b.ptr + (wordSize - allocHeaderSize)) % wordSize = b.hdr := by
    simp only [Block.ptr, allocHeaderSize, wordSize] at hlt ⊢
    omega
  rw [kfree, if_neg (by simp [Block.ptr])]
  simp only [hhdr, htype, hdata]
  cases kmallocBacking b.size with
  | slab i => simp only [Backing.fields, if_true]
  | pages n => simp only [Backing.fields, pageBacked, slabBacked, Nat.one_ne_zero, if_false, if_true]

/-- What `kmalloc` took its block from. -/
def TakenFrom (F : PageSource P) (hhdm size : ℕ) (k : Kmalloc P) (ptr : ℕ) (k' : Kmalloc P) :
    Prop :=
  match kmallocBacking size with
  | .slab i => ∃ hdr heap, kmemCacheAlloc F hhdm (k.caches i) k.heap =
      some (hdr, k'.caches i, heap) ∧ ptr = hdr + allocHeaderSize ∧ k'.heap.pages = heap.pages ∧
      ∀ j ≠ i, k'.caches j = k.caches j
  | .pages n => ∃ phys, F.allocPages k.heap.pages n = (phys, k'.heap.pages) ∧
      ptr = hhdm + phys + allocHeaderSize ∧ k'.caches = k.caches

/-- What `kfree` gives its block back to. -/
def GivenBack (F : PageSource P) (hhdm : ℕ) (b : Block) (k k' : Kmalloc P) : Prop :=
  match kmallocBacking b.size with
  | .slab i => k' =
      ⟨Function.update k.caches i (kmemCacheFree (k.caches i) b.hdr k.heap).1,
        (kmemCacheFree (k.caches i) b.hdr k.heap).2⟩
  | .pages n => ∃ phys, b.hdr = hhdm + phys ∧
      k' = ⟨k.caches, ⟨k.heap.mem, F.freePages k.heap.pages phys n⟩⟩

/-! ## Owners -/

/-- `owner'` gives free frames to `w`, and is else the same. -/
structure OwnerGrows (limit : ℕ) (owner owner' : ℕ → FrameOwner) (w : FrameOwner) : Prop where
  frame : ∀ f, owner' f ≠ .nobody → 4096 ∣ f ∧ f + 4096 ≤ limit
  keep : ∀ f, owner' f = owner f ∨ owner f = .nobody ∧ owner' f = w

namespace OwnerGrows

variable {owner owner' : ℕ → FrameOwner} {w w' : FrameOwner} {x : ℕ}

/-- Other owners keep their frames and get none. -/
theorem iff_of_ne (h : OwnerGrows limit owner owner' w) (hne : w' ≠ w) (hw' : w' ≠ .nobody)
    (f : ℕ) : owner' f = w' ↔ owner f = w' := by
  rcases h.keep f with heq | ⟨heq, heq'⟩
  · rw [heq]
  · rw [heq, heq']
    exact ⟨fun h => absurd h.symm hne, fun h => absurd h.symm hw'⟩

/-- A byte of another owner is none of the growing owner's. -/
theorem apart (h : OwnerGrows limit owner owner' w) (hne : w' ≠ w) (hw' : w' ≠ .nobody)
    (hw : w ≠ .nobody) (hx : OwnedBy hhdm owner w' x) : ¬ OwnedBy hhdm owner' w x := by
  intro hx'
  obtain ⟨f, hf, hin⟩ := hx
  have hsame : OwnedBy hhdm owner' w' x := ⟨f, (h.iff_of_ne hne hw' f).mpr hf, hin⟩
  exact hne (hsame.unique (fun f hf => (h.frame f hf).1) hx' hw' hw)

/-- Nothing changes. -/
theorem refl (hframe : ∀ f, owner f ≠ .nobody → 4096 ∣ f ∧ f + 4096 ≤ limit) :
    OwnerGrows limit owner owner w :=
  ⟨hframe, fun _ => .inl rfl⟩

end OwnerGrows

open Classical in
/-- The owners after `w` got some frames. -/
noncomputable def giveFrames (owner : ℕ → FrameOwner) (frames : Set ℕ) (w : FrameOwner) (f : ℕ) :
    FrameOwner :=
  if f ∈ frames then w else owner f

/-- What `w` owns after it got some frames. -/
theorem giveFrames_eq_iff {owner : ℕ → FrameOwner} {frames : Set ℕ} {w : FrameOwner} (f : ℕ) :
    giveFrames owner frames w f = w ↔ f ∈ frames ∨ owner f = w := by
  by_cases hf : f ∈ frames <;> simp [giveFrames, hf]

/-- Frames that nobody had make their new owner grow. -/
theorem ownerGrows_giveFrames {owner : ℕ → FrameOwner} {frames : Set ℕ} {w : FrameOwner}
    (hframe : ∀ f, owner f ≠ .nobody → 4096 ∣ f ∧ f + 4096 ≤ limit)
    (hfresh : ∀ f ∈ frames, owner f = .nobody)
    (haddr : ∀ f ∈ frames, 4096 ∣ f ∧ f + 4096 ≤ limit) :
    OwnerGrows limit owner (giveFrames owner frames w) w := by
  refine ⟨fun f hf => ?_, fun f => ?_⟩ <;> by_cases hmem : f ∈ frames
  · exact haddr f hmem
  · exact hframe f (by simpa [giveFrames, hmem] using hf)
  · exact .inr ⟨hfresh f hmem, if_pos hmem⟩
  · exact .inl (if_neg hmem)

namespace KmallocInv

variable {st : KmallocState P} {g : KmallocGhost}

section Kept

variable {owner' : ℕ → FrameOwner} {w : FrameOwner} {mem' : ByteMem}

/-- The other caches keep their invariant when only bytes of `w` change. -/
theorem slab_kept (hinv : KmallocInv Ok inUse hhdm limit st g)
    (hgrow : OwnerGrows limit g.owner owner' w) (hw : w ≠ .nobody)
    (hmem : ∀ x, ¬ OwnedBy hhdm owner' w x → mem' x = st.k.heap.mem x) {j : ℕ} (hj : j < 26)
    (hne : .cache j ≠ w) :
    SlabInv (st.k.caches j) mem' (g.slabs j) (slabHeaders st.blocks j) :=
  (hinv.slab j hj).congr fun x hx =>
    hmem x (hgrow.apart hne (by simp) hw (hinv.meta_bytes hj hx))

/-- The other blocks keep their headers when only bytes of `w` change. -/
theorem header_kept (hinv : KmallocInv Ok inUse hhdm limit st g)
    (hgrow : OwnerGrows limit g.owner owner' w) (hw : w ≠ .nobody)
    (hmem : ∀ x, ¬ OwnedBy hhdm owner' w x → mem' x = st.k.heap.mem x) {b : Block}
    (hb : b ∈ st.blocks) (hne : b.owner ≠ w) : b.Header mem' := by
  refine (hinv.header b hb).congr fun x h1 h2 => ?_
  refine hmem x (hgrow.apart hne b.owner_ne hw (hinv.block_bytes hb ⟨h1, ?_⟩))
  simp only [Block.endAddr, allocHeaderSize]
  omega

end Kept

/-- A step of cache `i`: it may take frames, and only its own blocks and bytes change. -/
theorem cacheStep (hinv : KmallocInv Ok inUse hhdm limit st g) {i : ℕ} (hi : i < 26)
    {s' : KmemCache} {h' : Heap P} {blocks' : List Block} {g' : SlabGhost}
    {owner' : ℕ → FrameOwner}
    (hok : Ok h'.pages) (hothers : st.others ⊆ inUse h'.pages)
    (howned : ∀ f, f ∈ inUse h'.pages \ st.others ↔ owner' f ≠ .nobody)
    (hgrow : OwnerGrows limit g.owner owner' (.cache i))
    (hslab_owner : ∀ b, b ∈ g'.slabs ↔ ∃ f, b = hhdm + f ∧ owner' f = .cache i)
    (hsame : SameCache (st.k.caches i) s')
    (hblocks : ∀ b, kmallocBacking b.size ≠ .slab i → (b ∈ blocks' ↔ b ∈ st.blocks))
    (hheaders : ∀ j ≠ i, (slabHeaders st.blocks j).Perm (slabHeaders blocks' j))
    (hsize : ∀ b ∈ blocks', KmallocSize b.size) (hnodup : (blocks'.map Block.hdr).Nodup)
    (hinv' : SlabInv s' h'.mem g' (slabHeaders blocks' i))
    (hmem : ∀ x, ¬ OwnedBy hhdm owner' (.cache i) x → h'.mem x = st.k.heap.mem x)
    (hheader : ∀ b ∈ blocks', kmallocBacking b.size = .slab i → b.Header h'.mem) :
    KmallocInv Ok inUse hhdm limit ⟨⟨Function.update st.k.caches i s', h'⟩, blocks', st.others⟩
      ⟨Function.update g.slabs i g', owner'⟩ := by
  refine ⟨hok, hothers, howned, hgrow.frame, fun j hj => ?_, fun j hj => ?_, fun j hj b => ?_,
    fun f j hf => ?_, hsize, hnodup, fun b hb n hpages => ?_, fun f hdr hf => ?_, fun b hb => ?_⟩
  · dsimp only
    by_cases hji : j = i
    · subst hji
      rw [Function.update_self, hsame.2.1]
      exact hinv.size j hj
    · rw [Function.update_of_ne hji]
      exact hinv.size j hj
  · dsimp only
    by_cases hji : j = i
    · subst hji
      rw [Function.update_self, Function.update_self]
      exact hinv'
    · rw [Function.update_of_ne hji, Function.update_of_ne hji]
      exact (hinv.slab_kept hgrow (by simp) hmem hj (by simpa using hji)).perm (hheaders j hji)
  · dsimp only
    by_cases hji : j = i
    · subst hji
      rw [Function.update_self]
      exact hslab_owner b
    · rw [Function.update_of_ne hji, hinv.slab_owner j hj b]
      exact exists_congr fun f => and_congr_right fun _ =>
        (hgrow.iff_of_ne (by simpa using hji) (by simp) f).symm
  · by_cases hji : j = i
    · exact hji ▸ hi
    · exact hinv.cache_lt f j ((hgrow.iff_of_ne (by simpa using hji) (by simp) f).mp hf)
  · have hb' := (hblocks b (by simp [hpages])).mp hb
    obtain ⟨phys, hhdr, howner⟩ := hinv.run b hb' n hpages
    exact ⟨phys, hhdr, fun f => (hgrow.iff_of_ne (by simp) (by simp) f).trans (howner f)⟩
  · obtain ⟨b, hb, hhdr, n, hpages⟩ :=
      hinv.run_block f hdr ((hgrow.iff_of_ne (by simp) (by simp) f).mp hf)
    exact ⟨b, (hblocks b (by simp [hpages])).mpr hb, hhdr, n, hpages⟩
  · by_cases hslab : kmallocBacking b.size = .slab i
    · exact hheader b hb hslab
    · refine hinv.header_kept hgrow (by simp) hmem ((hblocks b hslab).mp hb) ?_
      simp only [Block.owner]
      split <;> simp_all

/-- A new block in a slot that was not live. -/
theorem newBlock (hinv : KmallocInv Ok inUse hhdm limit st g) {i obj size : ℕ} {s' : KmemCache}
    {h' : Heap P} {g' : SlabGhost} {owner' : ℕ → FrameOwner}
    (hsize : KmallocSize size) (hbacking : kmallocBacking size = .slab i)
    (hok : Ok h'.pages) (hothers : st.others ⊆ inUse h'.pages)
    (howned : ∀ f, f ∈ inUse h'.pages \ st.others ↔ owner' f ≠ .nobody)
    (hgrow : OwnerGrows limit g.owner owner' (.cache i))
    (hslab_owner : ∀ b, b ∈ g'.slabs ↔ ∃ f, b = hhdm + f ∧ owner' f = .cache i)
    (hsame : SameCache (st.k.caches i) s') (hnew : obj ∉ slabHeaders st.blocks i)
    (hinv' : SlabInv s' h'.mem g' (obj :: slabHeaders st.blocks i))
    (hkeep : ∀ x, ¬ MetaByte (st.k.caches i).size g'.slabs (slabHeaders st.blocks i) x →
      h'.mem x = st.k.heap.mem x) :
    KmallocInv Ok inUse hhdm limit
      ⟨⟨Function.update st.k.caches i s', ⟨(Block.mk obj size).writeHeader h'.mem, h'.pages⟩⟩,
        ⟨obj, size⟩ :: st.blocks, st.others⟩
      ⟨Function.update g.slabs i g', owner'⟩ := by
  obtain ⟨hi, -, hfit, -⟩ := kmallocBacking_slab hsize hbacking
  have hclass : s'.size = kmallocSizes.getD i 0 := hsame.2.1.trans (hinv.size i hi)
  have hshape' := hinv'.shape
  rw [hclass] at hshape'
  have hobjSlot := hshape'.live_slot List.mem_cons_self
  have hobjBounds := slot_bounds hobjSlot
  simp only [allocHeaderSize, slabHdr] at hfit hobjBounds
  have hcache : ∀ {b x}, b ∈ g'.slabs → b ≤ x ∧ x < b + 4096 →
      OwnedBy hhdm owner' (.cache i) x := by
    intro b x hb hx
    obtain ⟨f, rfl, hf⟩ := (hslab_owner b).mp hb
    exact ⟨f, hf, hx⟩
  have hobjBytes : ∀ {x}, obj ≤ x ∧ x < obj + 12 → OwnedBy hhdm owner' (.cache i) x :=
    fun hx => hcache (hshape'.live_slab obj List.mem_cons_self) (by omega)
  refine hinv.cacheStep hi hok hothers howned hgrow hslab_owner hsame (fun b hb => ?_)
    (fun j hji => ?_) (fun b hb => ?_) ?_ ?_ (fun x hx => ?_) (fun b hb hslab => ?_)
  · rw [List.mem_cons, or_iff_right]
    rintro rfl
    exact hb hbacking
  · rw [slabHeaders_cons, if_neg (by simpa [hbacking] using Ne.symm hji)]
  · rcases List.mem_cons.mp hb with rfl | hb
    · exact hsize
    · exact hinv.block_size b hb
  · rw [List.map_cons, List.nodup_cons]
    refine ⟨fun hmem => ?_, hinv.nodup⟩
    obtain ⟨b, hb, heq⟩ := List.mem_map.mp hmem
    by_cases hslab : kmallocBacking b.size = .slab i
    · exact hnew (mem_slabHeaders.mpr ⟨b, hb, hslab, heq⟩)
    · have hne : b.owner ≠ .cache i := by
        simp only [Block.owner]
        split <;> simp_all
      refine hgrow.apart hne b.owner_ne (by simp) (hinv.block_bytes hb (x := obj) ?_)
        (hobjBytes (by omega))
      simp only [Block.endAddr, allocHeaderSize] at heq ⊢
      omega
  · rw [slabHeaders_cons, if_pos hbacking]
    refine hinv'.congr fun x hx => header_write_of_outside ?_
    obtain ⟨-, -, -, hnot⟩ := hx
    have := hnot obj List.mem_cons_self
    rw [hclass] at this
    dsimp only
    omega
  · refine (header_write_of_outside ?_).trans (hkeep x ?_)
    · by_contra hin
      dsimp only at hin
      exact hx (hobjBytes (by omega))
    · rintro ⟨b, hb, hin, -⟩
      exact hx (hcache hb hin)
  · rcases List.mem_cons.mp hb with rfl | hb
    · refine Block.header_write rfl ?_ ?_
      · simp only [hbacking, Backing.fields]
        decide
      · simp only [hbacking, Backing.fields]
        omega
    · have hlive : b.hdr ∈ slabHeaders st.blocks i := mem_slabHeaders.mpr ⟨b, hb, hslab, rfl⟩
      have hne : b.hdr ≠ obj := ne_of_mem_of_not_mem hlive hnew
      have hslot := hshape'.live_slot (List.mem_cons_of_mem _ hlive)
      refine (hinv.header b hb).congr fun x h1 h2 => (header_write_of_outside ?_).trans (hkeep x ?_)
      · dsimp only
        by_cases hpage : pageOf b.hdr = pageOf obj
        · rw [hpage] at hslot
          have := slot_apart hslot hobjSlot hne
          omega
        · have := slot_bounds hslot
          simp only [pageOf, slabHdr] at *
          omega
      · rintro ⟨-, -, -, hnot⟩
        refine hnot b.hdr hlive ?_
        rw [hinv.size i hi]
        omega

/-- New frames belong to nobody, and once they are given to `w` the owners again cover the frames
of the heap. -/
theorem owned_giveFrames (hinv : KmallocInv Ok inUse hhdm limit st g) {w : FrameOwner} {pages : P}
    {frames : Set ℕ} (hw : w ≠ .nobody) (hfresh : Disjoint frames (inUse st.k.heap.pages))
    (hinUse : inUse pages = frames ∪ inUse st.k.heap.pages) :
    (∀ f ∈ frames, g.owner f = .nobody) ∧ st.others ⊆ inUse pages ∧
      ∀ f, f ∈ inUse pages \ st.others ↔ giveFrames g.owner frames w f ≠ .nobody := by
  have hnot : ∀ f ∈ frames, f ∉ inUse st.k.heap.pages := fun f hf => Set.disjoint_left.mp hfresh hf
  refine ⟨fun f hf => ?_, ?_, fun f => ?_⟩
  · by_contra hne
    exact hnot f hf ((hinv.owned f).mpr hne).1
  · rw [hinUse]
    exact hinv.others.trans Set.subset_union_right
  · rw [hinUse]
    by_cases hf : f ∈ frames
    · have hother : f ∉ st.others := fun h => hnot f hf (hinv.others h)
      simp [giveFrames, hf, hother, hw]
    · have := hinv.owned f
      simp only [KmallocState.frames] at this
      simpa [giveFrames, hf] using this

/-- A failed allocation changes nothing of the heap. -/
theorem failed (hinv : KmallocInv Ok inUse hhdm limit st g) {pages : P} (hok : Ok pages)
    (hinUse : inUse pages = inUse st.k.heap.pages) :
    KmallocInv Ok inUse hhdm limit ⟨⟨st.k.caches, ⟨st.k.heap.mem, pages⟩⟩, st.blocks, st.others⟩
      g :=
  hinv.elsewhere (fun _ _ _ _ _ _ => rfl) hok (hinUse ▸ hinv.others)
    (by rw [KmallocState.frames, hinUse])

/-- `kmalloc` of a size that a cache serves. -/
theorem kmalloc_slab_spec (hF : F.Lawful Ok inUse limit) (hmap : DirectMap hhdm limit)
    (hinv : KmallocInv Ok inUse hhdm limit st g) {size i : ℕ} (hsize : KmallocSize size)
    (hbacking : kmallocBacking size = .slab i) :
    ∃ ptr k', kmalloc F hhdm size st.k = some (ptr, k') ∧
      (ptr ≠ 0 → allocHeaderSize ≤ ptr ∧ TakenFrom F hhdm size st.k ptr k') ∧
      ∃ g', KmallocInv Ok inUse hhdm limit
        ⟨k', if ptr = 0 then st.blocks else ⟨ptr - allocHeaderSize, size⟩ :: st.blocks, st.others⟩
        g' := by
  obtain ⟨hi, -, hfit, -⟩ := kmallocBacking_slab hsize hbacking
  have hframes := hF.toLawfulPage
  obtain ⟨obj, s', h', g', heq, halloc, hsame, hlive, hkeep⟩ :=
    kmemCacheAlloc_spec hframes hmap hinv.ok (hinv.slab i hi) (hinv.slabsHeld hi)
  have hkmalloc := kmalloc_slab hsize hbacking heq
  by_cases hobj : obj = 0
  · subst hobj
    rw [if_pos rfl] at hkmalloc
    refine ⟨0, _, hkmalloc, fun h => absurd rfl h, g, ?_⟩
    cases halloc with
    | reuse h => exact absurd rfl h
    | grow h => exact absurd rfl h
    | fail hneeds hfail =>
      rw [if_pos rfl, Function.update_eq_self]
      exact hinv.failed (hframes.allocPage_ok _ hinv.ok) (hframes.allocPage_fail _ hinv.ok hfail)
  · obtain ⟨hnew, hinv'⟩ := hlive hobj
    have hptr : (obj + allocHeaderSize) % wordSize = obj + allocHeaderSize := by
      have hbounds := slot_bounds (hinv'.shape.live_slot List.mem_cons_self)
      have hpage := (hinv'.shape.page _ (hinv'.shape.live_slab _ List.mem_cons_self)).2.2
      have hpos := hsize.1
      rw [hsame.2.1, hinv.size i hi] at hbounds
      simp only [allocHeaderSize, slabHdr, wordSize] at hbounds hpage hfit ⊢
      omega
    rw [if_neg hobj, hptr] at hkmalloc
    refine ⟨_, _, hkmalloc, fun _ => ⟨Nat.le_add_left _ _, ?_⟩, ?_⟩
    · simp only [TakenFrom, hbacking]
      refine ⟨obj, h', ?_, rfl, rfl, fun j hj => Function.update_of_ne hj _ _⟩
      rw [Function.update_self]
      exact heq
    · rw [if_neg (by simp), Nat.add_sub_cancel]
      cases halloc with
      | reuse _ _ hslabs =>
        refine ⟨_, hinv.newBlock hsize hbacking hinv.ok hinv.others hinv.owned (.refl hinv.frame) ?_
          hsame hnew hinv' hkeep⟩
        rw [hslabs]
        exact hinv.slab_owner i hi
      | grow _ hneeds hframe hslabs =>
        have hfresh := Set.disjoint_singleton_left.mpr (hframes.allocPage_fresh _ hinv.ok hframe)
        have haddr := hframes.allocPage_addr _ hinv.ok
        have hinUse := hframes.allocPage_inUse _ hinv.ok hframe
        rw [Set.insert_eq] at hinUse
        obtain ⟨hnobody, hothers, howned⟩ :=
          hinv.owned_giveFrames (w := .cache i) (by simp) hfresh hinUse
        have hgrow := ownerGrows_giveFrames (w := .cache i) hinv.frame hnobody
          (by rintro f rfl; exact haddr)
        refine ⟨_, hinv.newBlock hsize hbacking (hframes.allocPage_ok _ hinv.ok) hothers howned hgrow
          (fun b => ?_) hsame hnew hinv' hkeep⟩
        rw [hslabs, List.mem_cons, hinv.slab_owner i hi b]
        simp only [giveFrames_eq_iff, Set.mem_singleton_iff,
          and_or_left, exists_or, exists_eq_right]
      | fail => exact absurd rfl hobj

/-- A new block over a run of frames that nobody had. -/
theorem newRun (hinv : KmallocInv Ok inUse hhdm limit st g) {phys size n : ℕ} {pages : P}
    (hsize : KmallocSize size) (hbacking : kmallocBacking size = .pages n) (hok : Ok pages)
    (hothers : st.others ⊆ inUse pages)
    (howned : ∀ f, f ∈ inUse pages \ st.others ↔
      giveFrames g.owner (frameAddrs phys n) (.run (hhdm + phys)) f ≠ .nobody)
    (hgrow : OwnerGrows limit g.owner
      (giveFrames g.owner (frameAddrs phys n) (.run (hhdm + phys))) (.run (hhdm + phys)))
    (hdvd : 4096 ∣ phys) (hnobody : g.owner phys = .nobody) :
    KmallocInv Ok inUse hhdm limit
      ⟨⟨st.k.caches, ⟨(Block.mk (hhdm + phys) size).writeHeader st.k.heap.mem, pages⟩⟩,
        ⟨hhdm + phys, size⟩ :: st.blocks, st.others⟩
      ⟨g.slabs, giveFrames g.owner (frameAddrs phys n) (.run (hhdm + phys))⟩ := by
  obtain ⟨-, -, hn, hlt, -⟩ := kmallocBacking_pages hsize hbacking
  have hnew : ∀ b ∈ st.blocks, b.hdr ≠ hhdm + phys := by
    intro b hb heq
    obtain ⟨f, hf, h1, h2⟩ := hinv.block_bytes hb (x := b.hdr)
      (by simp only [Block.endAddr, allocHeaderSize]; omega)
    have hdvd' := (hinv.frame f (hf ▸ b.owner_ne)).1
    obtain rfl : f = phys := by omega
    exact b.owner_ne (hf.symm.trans hnobody)
  have howner : ∀ b ∈ st.blocks, b.owner ≠ .run (hhdm + phys) := by
    intro b hb heq
    simp only [Block.owner] at heq
    split at heq
    · cases heq
    · exact hnew b hb (by simpa using heq)
  have hmem : ∀ x, ¬ OwnedBy hhdm (giveFrames g.owner (frameAddrs phys n)
      (.run (hhdm + phys))) (.run (hhdm + phys)) x →
      (Block.mk (hhdm + phys) size).writeHeader st.k.heap.mem x = st.k.heap.mem x := by
    refine fun x hx => header_write_of_outside ?_
    by_contra hin
    dsimp only at hin
    exact hx ⟨phys, (giveFrames_eq_iff _).mpr (.inl ⟨0, hn, by omega⟩), by omega, by omega⟩
  refine ⟨hok, hothers, howned, hgrow.frame, hinv.size, fun j hj => ?_, fun j hj b => ?_,
    fun f j hf => ?_, fun b hb => ?_, ?_, fun b hb m hpages => ?_, fun f hdr hf => ?_,
    fun b hb => ?_⟩
  · rw [slabHeaders_cons, if_neg (by simp [hbacking])]
    exact hinv.slab_kept hgrow (by simp) hmem hj (by simp)
  · rw [hinv.slab_owner j hj b]
    exact exists_congr fun f => and_congr_right fun _ =>
      (hgrow.iff_of_ne (by simp) (by simp) f).symm
  · exact hinv.cache_lt f j ((hgrow.iff_of_ne (by simp) (by simp) f).mp hf)
  · rcases List.mem_cons.mp hb with rfl | hb
    · exact hsize
    · exact hinv.block_size b hb
  · rw [List.map_cons, List.nodup_cons]
    refine ⟨fun hmem' => ?_, hinv.nodup⟩
    obtain ⟨b, hb, heq⟩ := List.mem_map.mp hmem'
    exact hnew b hb heq
  · rcases List.mem_cons.mp hb with rfl | hb
    · obtain rfl : n = m := by simpa using hbacking.symm.trans hpages
      refine ⟨phys, rfl, fun f => ?_⟩
      rw [giveFrames_eq_iff, or_iff_left]
      intro hrun
      obtain ⟨b, hb, heq, -⟩ := hinv.run_block f _ hrun
      exact hnew b hb heq
    · obtain ⟨phys', hhdr', howner'⟩ := hinv.run b hb m hpages
      refine ⟨phys', hhdr', fun f => ?_⟩
      exact (hgrow.iff_of_ne (by simpa using hnew b hb) (by simp) f).trans (howner' f)
  · by_cases heq : hdr = hhdm + phys
    · exact ⟨_, List.mem_cons_self, heq.symm, n, hbacking⟩
    · have hf' := (hgrow.iff_of_ne (by simpa using heq) (by simp) f).mp hf
      obtain ⟨b, hb, hrest⟩ := hinv.run_block f hdr hf'
      exact ⟨b, List.mem_cons_of_mem _ hb, hrest⟩
  · rcases List.mem_cons.mp hb with rfl | hb
    · refine Block.header_write rfl ?_ ?_
      · simp only [hbacking, Backing.fields]
        decide
      · simp only [hbacking, Backing.fields]
        omega
    · exact hinv.header_kept hgrow (by simp) hmem hb (howner b hb)

/-- `kmalloc` of a size that takes whole pages. -/
theorem kmalloc_pages_spec (hF : F.Lawful Ok inUse limit) (hmap : DirectMap hhdm limit)
    (hinv : KmallocInv Ok inUse hhdm limit st g) {size n : ℕ} (hsize : KmallocSize size)
    (hbacking : kmallocBacking size = .pages n) :
    ∃ ptr k', kmalloc F hhdm size st.k = some (ptr, k') ∧
      (ptr ≠ 0 → allocHeaderSize ≤ ptr ∧ TakenFrom F hhdm size st.k ptr k') ∧
      ∃ g', KmallocInv Ok inUse hhdm limit
        ⟨k', if ptr = 0 then st.blocks else ⟨ptr - allocHeaderSize, size⟩ :: st.blocks, st.others⟩
        g' := by
  obtain ⟨-, -, hn, -, -⟩ := kmallocBacking_pages hsize hbacking
  have hkmalloc : kmalloc F hhdm size st.k = _ := kmalloc_pages hsize hbacking
  dsimp only at hkmalloc
  obtain ⟨phys, pages, hr⟩ : ∃ phys pages, F.allocPages st.k.heap.pages n = (phys, pages) :=
    ⟨_, _, rfl⟩
  have hok := hF.allocPages_ok _ n hinv.ok hn
  simp only [hr] at hkmalloc hok
  by_cases hphys : phys = 0
  · subst hphys
    rw [if_pos rfl] at hkmalloc
    refine ⟨0, _, hkmalloc, fun h => absurd rfl h, g, ?_⟩
    have hsame := hF.allocPages_fail _ n hinv.ok hn (by rw [hr])
    rw [if_pos rfl]
    exact hinv.failed hok (by rwa [hr] at hsame)
  · have hfresh := hF.allocPages_fresh _ n hinv.ok hn (by rwa [hr])
    have hinUse := hF.allocPages_inUse _ n hinv.ok hn (by rwa [hr])
    have haddr := hF.allocPages_addr _ n hinv.ok hn (by rwa [hr])
    have hfits := hmap.fits
    have haligned := hmap.aligned
    simp only [hr, wordSize] at hfresh hinUse haddr hfits
    have hhdr : (hhdm + phys) % wordSize = hhdm + phys := by
      simp only [wordSize]
      omega
    have hptr : (hhdm + phys + allocHeaderSize) % wordSize = hhdm + phys + allocHeaderSize := by
      simp only [wordSize, allocHeaderSize]
      omega
    rw [if_neg hphys, hhdr, if_neg (by omega), hptr] at hkmalloc
    obtain ⟨hnobody, hothers, howned⟩ :=
      hinv.owned_giveFrames (w := .run (hhdm + phys)) (by simp) hfresh hinUse
    have hgrow := ownerGrows_giveFrames (w := .run (hhdm + phys)) hinv.frame hnobody (by
      rintro f ⟨i, hi, rfl⟩
      omega)
    refine ⟨_, _, hkmalloc, fun _ => ⟨Nat.le_add_left _ _, ?_⟩, ?_⟩
    · rw [TakenFrom, hbacking]
      exact ⟨phys, hr, rfl, rfl⟩
    · rw [if_neg (by simp), Nat.add_sub_cancel]
      exact ⟨_, hinv.newRun hsize hbacking hok hothers howned hgrow haddr.1
        (hnobody phys ⟨0, hn, by omega⟩)⟩

/-- Headers are addresses. -/
theorem hdr_lt (hinv : KmallocInv Ok inUse hhdm limit st g) (hmap : DirectMap hhdm limit)
    {b : Block} (hb : b ∈ st.blocks) : b.hdr < wordSize := by
  obtain ⟨f, hf, h1, h2⟩ := hinv.block_bytes hb (x := b.hdr)
    (by simp only [Block.endAddr, allocHeaderSize]; omega)
  have := (hinv.frame f (hf ▸ b.owner_ne)).2
  have := hmap.fits
  omega

/-- `kfree` of a block of a cache. -/
theorem kfree_slab_spec (hinv : KmallocInv Ok inUse hhdm limit st g) {b : Block}
    (hb : b ∈ st.blocks) {i : ℕ} (hbacking : kmallocBacking b.size = .slab i) :
    ∃ g', KmallocInv Ok inUse hhdm limit
      ⟨⟨Function.update st.k.caches i (kmemCacheFree (st.k.caches i) b.hdr st.k.heap).1,
        (kmemCacheFree (st.k.caches i) b.hdr st.k.heap).2⟩, st.blocks.erase b, st.others⟩ g' := by
  have hi := (kmallocBacking_slab (hinv.block_size b hb) hbacking).1
  have hlive : b.hdr ∈ slabHeaders st.blocks i := mem_slabHeaders.mpr ⟨b, hb, hbacking, rfl⟩
  have hblocks : st.blocks.Nodup := .of_map _ hinv.nodup
  obtain ⟨g', hinv', hslabs, hpages, hsame, hkeep⟩ := kmemCacheFree_spec (hinv.slab i hi) hlive
  have hperm : ((slabHeaders st.blocks i).erase b.hdr).Perm (slabHeaders (st.blocks.erase b) i) := by
    have := (slabHeaders_erase hb i).erase b.hdr
    rwa [slabHeaders_cons, if_pos hbacking, List.erase_cons_head] at this
  refine ⟨_, hinv.cacheStep hi (hpages ▸ hinv.ok) (hpages ▸ hinv.others) (hpages ▸ hinv.owned)
    (.refl hinv.frame) ?_ hsame (fun c hc => ?_) (fun j hji => ?_) (fun c hc => ?_) ?_
    (hinv'.perm hperm) (fun x hx => hkeep x ?_) (fun c hc hslab => ?_)⟩
  · rw [hslabs]
    exact hinv.slab_owner i hi
  · exact List.mem_erase_of_ne (by rintro rfl; exact hc hbacking)
  · have := slabHeaders_erase hb j
    rwa [slabHeaders_cons, if_neg (by simpa [hbacking] using Ne.symm hji)] at this
  · exact hinv.block_size c (List.mem_of_mem_erase hc)
  · exact hinv.nodup.sublist (List.erase_sublist.map _)
  · exact fun hmeta => hx (hinv.meta_bytes hi hmeta)
  · have hc' := List.mem_of_mem_erase hc
    have hfit := (kmallocBacking_slab (hinv.block_size c hc') hslab).2.2.1
    refine (hinv.header c hc').congr fun x h1 h2 => hkeep x ?_
    rintro ⟨-, -, -, hnot⟩
    refine hnot c.hdr (hperm.mem_iff.mpr (mem_slabHeaders.mpr ⟨c, hc, hslab, rfl⟩)) ?_
    rw [hinv.size i hi]
    simp only [allocHeaderSize] at hfit
    omega

/-- `kfree` of a large block. -/
theorem kfree_pages_spec (hF : F.Lawful Ok inUse limit)
    (hinv : KmallocInv Ok inUse hhdm limit st g) {b : Block} (hb : b ∈ st.blocks) {n phys : ℕ}
    (hbacking : kmallocBacking b.size = .pages n) (hhdr : b.hdr = hhdm + phys) :
    ∃ g', KmallocInv Ok inUse hhdm limit
      ⟨⟨st.k.caches, ⟨st.k.heap.mem, F.freePages st.k.heap.pages phys n⟩⟩, st.blocks.erase b,
        st.others⟩ g' := by
  obtain ⟨hn, -, -, phys', hhdr', -, -, howner⟩ := hinv.run_block_bytes hb hbacking
  obtain rfl : phys' = phys := by omega
  have hblocks : st.blocks.Nodup := .of_map _ hinv.nodup
  have hheld : ∀ f ∈ frameAddrs phys' n, f ∈ st.frames inUse := fun f hf =>
    (hinv.owned f).mpr (by rw [(howner f).mpr hf]; simp)
  have hused : frameAddrs phys' n ⊆ inUse st.k.heap.pages := fun f hf => (hheld f hf).1
  have hinUse := hF.freePages_inUse _ phys' n hinv.ok hn hused
  have hother : ∀ {c}, c ∈ st.blocks.erase b → c.hdr ≠ b.hdr := by
    intro c hc heq
    obtain ⟨hne, hc⟩ := hblocks.mem_erase_iff.mp hc
    exact hne (List.inj_on_of_nodup_map hinv.nodup hc hb heq)
  -- the frames of the block go back to nobody
  let owner' : ℕ → FrameOwner := fun f => if g.owner f = .run b.hdr then .nobody else g.owner f
  have hkeep : ∀ w f, w ≠ .nobody → w ≠ .run b.hdr → (owner' f = w ↔ g.owner f = w) := by
    intro w f hw hne
    by_cases hf : g.owner f = .run b.hdr
    · simp only [owner', if_pos hf]
      exact ⟨fun h => absurd h.symm hw, fun h => absurd (h.symm.trans hf) hne⟩
    · simp only [owner', if_neg hf]
  have hsome : ∀ f, owner' f ≠ .nobody ↔ g.owner f ≠ .nobody ∧ f ∉ frameAddrs phys' n := by
    intro f
    rw [← howner f]
    by_cases hf : g.owner f = .run b.hdr <;> simp [owner', hf]
  refine ⟨⟨g.slabs, owner'⟩, hF.freePages_ok _ phys' n hinv.ok hn hused, ?_, fun f => ?_,
    fun f hf => hinv.frame f ((hsome f).mp hf).1, hinv.size, fun j hj => ?_, fun j hj c => ?_,
    fun f j hf => ?_, fun c hc => hinv.block_size c (List.mem_of_mem_erase hc),
    hinv.nodup.sublist (List.erase_sublist.map _), fun c hc m hpages => ?_, fun f hdr hf => ?_,
    fun c hc => hinv.header c (List.mem_of_mem_erase hc)⟩
  · rw [hinUse]
    exact fun f hf => ⟨hinv.others hf, fun h => (hheld f h).2 hf⟩
  · rw [KmallocState.frames, hinUse, hsome, ← hinv.owned f]
    simp only [KmallocState.frames, Set.mem_sdiff]
    tauto
  · have := slabHeaders_erase hb j
    rw [slabHeaders_cons, if_neg (by simp [hbacking])] at this
    exact (hinv.slab j hj).perm this
  · rw [hinv.slab_owner j hj c]
    exact exists_congr fun f => and_congr_right fun _ => (hkeep _ f (by simp) (by simp)).symm
  · exact hinv.cache_lt f j ((hkeep _ f (by simp) (by simp)).mp hf)
  · obtain ⟨phys, hhdr, howner⟩ := hinv.run c (List.mem_of_mem_erase hc) m hpages
    exact ⟨phys, hhdr, fun f => (hkeep _ f (by simp) (by simpa using hother hc)).trans (howner f)⟩
  · have hne : hdr ≠ b.hdr := by
      rintro rfl
      by_cases h : g.owner f = .run b.hdr
      · simp [owner', h] at hf
      · exact h (by simpa only [owner', if_neg h] using hf)
    obtain ⟨c, hc, heq, hrest⟩ :=
      hinv.run_block f hdr ((hkeep _ f (by simp) (by simpa using hne)).mp hf)
    exact ⟨c, (List.mem_erase_of_ne (by rintro rfl; exact hne heq.symm)).mpr hc, heq, hrest⟩

/-- `kmalloc` never fails an assertion, and keeps the invariant. -/
theorem kmalloc_spec (hF : F.Lawful Ok inUse limit) (hmap : DirectMap hhdm limit)
    (hinv : KmallocInv Ok inUse hhdm limit st g) {size : ℕ} (hsize : KmallocSize size) :
    ∃ ptr k', kmalloc F hhdm size st.k = some (ptr, k') ∧
      (ptr ≠ 0 → allocHeaderSize ≤ ptr ∧ TakenFrom F hhdm size st.k ptr k') ∧
      ∃ g', KmallocInv Ok inUse hhdm limit
        ⟨k', if ptr = 0 then st.blocks else ⟨ptr - allocHeaderSize, size⟩ :: st.blocks, st.others⟩
        g' := by
  cases hbacking : kmallocBacking size with
  | slab i => exact hinv.kmalloc_slab_spec hF hmap hsize hbacking
  | pages n => exact hinv.kmalloc_pages_spec hF hmap hsize hbacking

/-- `kfree` gives a live block back to where it came from, and keeps the invariant. -/
theorem kfree_spec (hF : F.Lawful Ok inUse limit) (hmap : DirectMap hhdm limit)
    (hinv : KmallocInv Ok inUse hhdm limit st g) {b : Block} (hb : b ∈ st.blocks) :
    GivenBack F hhdm b st.k (kfree F hhdm b.ptr st.k) ∧ ∃ g', KmallocInv Ok inUse hhdm limit
      ⟨kfree F hhdm b.ptr st.k, st.blocks.erase b, st.others⟩ g' := by
  have hlt := hinv.hdr_lt hmap hb
  rw [kfree_eq (hinv.header b hb) hlt, GivenBack]
  cases hbacking : kmallocBacking b.size with
  | slab i => exact ⟨rfl, hinv.kfree_slab_spec hb hbacking⟩
  | pages n =>
    obtain ⟨-, -, -, phys, hhdr, -, -, -⟩ := hinv.run_block_bytes hb hbacking
    have hphys : (b.hdr + (wordSize - hhdm)) % wordSize = phys := by
      have := hmap.fits
      simp only [wordSize] at hlt this ⊢
      omega
    simp only [hphys]
    exact ⟨⟨phys, hhdr, rfl⟩, hinv.kfree_pages_spec hF hb hbacking hhdr⟩

end KmallocInv

end Flos.Mm
