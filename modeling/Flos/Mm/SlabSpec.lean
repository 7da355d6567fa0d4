import Flos.Mm.SlabSteps

/-!
# A new slab, and the routines of the slab allocator as wholes

`alloc_new_slab` links all slots of a fresh page. With the steps of the representation this
gives one specification lemma for `kmem_cache_alloc` and one for `kmem_cache_free`.
-/

namespace Flos.Mm

open Flos.Lib

section Format

variable {start size : ℕ}

/-- The linking loop writes to its slots only. -/
theorem linkSlots_of_outside (hsize : 8 ≤ size) {n i x : ℕ} {mem : ByteMem}
    (hx : x < start + i * size ∨ start + (i + n) * size ≤ x) :
    linkSlots start size n i mem x = mem x := by
  induction n generalizing i mem with
  | zero => rfl
  | succ n ih =>
    have hmul : (i + (n + 1)) * size = i * size + size + n * size := by ring
    have hmul' : (i + 1) * size = i * size + size := by ring
    have hmul'' : (i + 1 + n) * size = i * size + size + n * size := by ring
    rw [linkSlots, ih (by rw [hmul', hmul'']; omega), setFp, writeLE_of_outside (by omega)]

/-- The linking loop makes each of its slots point to the next one. -/
theorem linkSlots_link (hsize : 8 ≤ size) {n i k : ℕ} {mem : ByteMem} (hk : i ≤ k ∧ k < i + n)
    (hfit : start + (i + n) * size < wordSize) :
    readLE (linkSlots start size n i mem) (start + k * size) 8 = start + (k + 1) * size := by
  induction n generalizing i mem with
  | zero => omega
  | succ n ih =>
    have hmul : (i + (n + 1)) * size = i * size + size + n * size := by ring
    have hmul' : (i + 1) * size = i * size + size := by ring
    have hmul'' : (i + 1 + n) * size = i * size + size + n * size := by ring
    rw [linkSlots]
    by_cases hik : k = i
    · subst hik
      rw [readLE_congr fun x h1 h2 => linkSlots_of_outside hsize (.inl (by omega))]
      exact readLE_writeLE_self (by rw [hmul] at hfit; simp only [wordSize] at hfit; omega)
    · exact ih (by omega) (by rw [hmul'']; rw [hmul] at hfit; omega)

variable {s : KmemCache} {b : ℕ} {mem : ByteMem}

/-- A new slab writes to its own page only. -/
theorem formatSlab_of_outside (hsize : 8 ≤ s.size) (hfit : s.size + slabHdr ≤ 4096) {x : ℕ}
    (hx : x < b ∨ b + 4096 ≤ x) : formatSlab s b mem x = mem x := by
  have hn := slotsPerSlab_pos (by omega) hfit
  have hall := slotsPerSlab_mul_le s.size
  obtain ⟨n, hn'⟩ : ∃ n, slotsPerSlab s.size = n + 1 := ⟨_, (Nat.succ_pred_eq_of_pos hn).symm⟩
  rw [hn', Nat.add_mul, one_mul] at hall
  simp only [slabHdr] at hall
  simp only [formatSlab, hn', Nat.add_sub_cancel, setFp, slabHdr, slabNext, slabInuse, slabCache,
    slabObjects]
  rw [writeLE_of_outside (by omega), writeLE_of_outside (by omega), writeLE_of_outside (by omega),
    writeLE_of_outside (by omega), writeLE_of_outside (by omega), writeLE_of_outside (by omega),
    linkSlots_of_outside hsize (by rw [zero_mul, zero_add]; omega)]

/-- The header of a new slab. -/
theorem formatSlab_header (hb : b + 4096 ≤ wordSize) :
    readCell (formatSlab s b mem) (.freelist b) = b + slabHdr ∧
      readCell (formatSlab s b mem) (.inuse b) = 0 := by
  simp only [formatSlab, readCell, SlabCell.addr, SlabCell.width, slabNext, slabInuse, slabCache,
    slabObjects, slabHdr]
  constructor
  · rw [readLE_writeLE_of_disjoint (by omega), readLE_writeLE_of_disjoint (by omega),
      readLE_writeLE_of_disjoint (by omega), readLE_writeLE_of_disjoint (by omega)]
    exact readLE_writeLE_self (by simp only [wordSize] at hb; omega)
  · rw [readLE_writeLE_of_disjoint (by omega), readLE_writeLE_of_disjoint (by omega)]
    exact readLE_writeLE_self (by decide)

/-- The links of a new slab: each slot points to the next one, and the last one nowhere. -/
theorem formatSlab_link (hsize : 8 ≤ s.size) (hb : b + 4096 ≤ wordSize) {k : ℕ}
    (hk : k < slotsPerSlab s.size) :
    readCell (formatSlab s b mem) (.link (b + slabHdr + k * s.size)) =
      if k + 1 = slotsPerSlab s.size then 0 else b + slabHdr + (k + 1) * s.size := by
  obtain ⟨n, hn⟩ : ∃ n, slotsPerSlab s.size = n + 1 := ⟨_, (Nat.succ_pred_eq_of_pos (by omega)).symm⟩
  have hall := slotsPerSlab_mul_le s.size
  rw [hn, Nat.add_mul, one_mul] at hall
  simp only [slabHdr] at hall
  simp only [wordSize] at hb
  have hheader : readCell (formatSlab s b mem) (.link (b + slabHdr + k * s.size)) =
      readLE (setFp (linkSlots (b + slabHdr) s.size n 0 mem) (b + slabHdr + n * s.size) 0)
        (b + slabHdr + k * s.size) 8 := by
    simp only [formatSlab, readCell, SlabCell.addr, SlabCell.width, slabNext, slabInuse, slabCache,
      slabObjects, slabHdr, hn, Nat.add_sub_cancel]
    rw [readLE_writeLE_of_disjoint (by omega), readLE_writeLE_of_disjoint (by omega),
      readLE_writeLE_of_disjoint (by omega), readLE_writeLE_of_disjoint (by omega),
      readLE_writeLE_of_disjoint (by omega)]
  rw [hheader, hn]
  by_cases hkn : k = n
  · subst hkn
    rw [if_pos rfl]
    exact readLE_writeLE_self (by decide)
  · rw [if_neg (by omega)]
    have hmul := Nat.mul_le_mul_right s.size (show k + 1 ≤ n by omega)
    rw [Nat.add_mul, one_mul] at hmul
    rw [setFp, readLE_writeLE_of_disjoint (by omega)]
    exact linkSlots_link hsize (by omega) (by simp only [slabHdr, wordSize, zero_add]; omega)

/-- The freelist of a new slab holds all its slots in order. -/
theorem formatSlab_chain (hsize : 8 ≤ s.size) (hfit : s.size + slabHdr ≤ 4096)
    (hb : b + 4096 ≤ wordSize) :
    LinkChain (formatSlab s b mem) 0 (readCell (formatSlab s b mem) (.freelist b))
      (slabSlots s.size b) := by
  have hn := slotsPerSlab_pos (by omega) hfit
  -- by induction on the number of slots left, from the last slot up
  have htail : ∀ j k, k + j = slotsPerSlab s.size →
      LinkChain (formatSlab s b mem) 0
        (if k = slotsPerSlab s.size then 0 else b + slabHdr + k * s.size)
        ((List.range' k j).map fun i => b + slabHdr + i * s.size) := by
    intro j
    induction j with
    | zero =>
      intro k hk
      rw [if_pos (by omega)]
      rfl
    | succ j ih =>
      intro k hk
      have hlink := @formatSlab_link s b mem hsize hb k (by omega)
      rw [if_neg (by omega), List.range'_succ, List.map_cons]
      refine ⟨rfl, by simp only [slabHdr]; omega, ?_⟩
      change LinkChain _ 0 (readCell _ (.link (b + slabHdr + k * s.size))) _
      rw [hlink]
      exact ih (k + 1) (by omega)
  have hmain := htail (slotsPerSlab s.size) 0 (by omega)
  rw [if_neg (by omega), zero_mul, add_zero] at hmain
  rw [(formatSlab_header hb).1, slabSlots, List.range_eq_range']
  exact hmain

end Format

/-! ## The routines -/

/-- The direct map covers all frames: it starts at a page and does not wrap. -/
structure DirectMap (hhdm limit : ℕ) : Prop where
  aligned : 4096 ∣ hhdm
  fits : hhdm + limit ≤ wordSize

/-- The slabs are pages of the direct map over frames in use. -/
def SlabsHeld (hhdm : ℕ) (inUse : Set ℕ) (slabs : List ℕ) : Prop :=
  ∀ b ∈ slabs, ∃ f ∈ inUse, b = hhdm + f

/-- No slot of the cache is free. -/
def SlabGhost.Full (g : SlabGhost) (cpuSlab : ℕ) : Prop := ∀ b ∈ g.slabs, g.freeOf cpuSlab b = []

/-- No free slot is at hand: the call of `kmem_cache_alloc` asks for a frame. -/
def KmemCache.NeedsFrame (s : KmemCache) : Prop := s.cpuFreelist = 0 ∧ s.partialSlab = 0

instance (s : KmemCache) : Decidable s.NeedsFrame := by unfold KmemCache.NeedsFrame; infer_instance

/-- What the routines never change in a cache. -/
def SameCache (s s' : KmemCache) : Prop :=
  s'.addr = s.addr ∧ s'.size = s.size ∧ s'.objSize = s.objSize

section Routines

variable {P : Type*} {F : PageSource P} {Ok : P → Prop} {inUse : P → Set ℕ} {hhdm limit : ℕ}
  {s : KmemCache} {h : Heap P} {g : SlabGhost} {live : List ℕ}

/-- A store to a cell touches no byte of an object that stays live. -/
theorem SlabShape.writeCell_frame {size cpuSlab detached : ℕ} {slabs : List ℕ}
    (hshape : SlabShape size cpuSlab detached g live) (hslabs : g.slabs = slabs) {c : SlabCell}
    (hc : hshape.Cell c) (hlive : ∀ a, c = .link a → a ∉ live) {x : ℕ}
    (hx : ¬ MetaByte size slabs live x) (mem : ByteMem) (v : ℕ) : writeCell mem c v x = mem x := by
  subst hslabs
  refine writeLE_of_outside ?_
  by_contra hin
  apply hx
  cases c with
  | freelist b =>
    exact hshape.metaByte_header hc (by simp only [SlabCell.addr, SlabCell.width, slabHdr] at *; omega)
  | next b =>
    exact hshape.metaByte_header hc
      (by simp only [SlabCell.addr, SlabCell.width, slabHdr, slabNext] at *; omega)
  | inuse b =>
    exact hshape.metaByte_header hc
      (by simp only [SlabCell.addr, SlabCell.width, slabHdr, slabInuse] at *; omega)
  | link a =>
    obtain ⟨b, hb, ha⟩ := hc
    have hsize := hshape.size_ge
    exact hshape.metaByte_slot hb ha (hlive a rfl)
      (by simp only [SlabCell.addr, SlabCell.width] at *; omega)

/-- The page of a slot, as the code computes it. -/
theorem alignDown_slot {a : ℕ} (ha : a < wordSize) : alignDown a pageSize = pageOf a :=
  alignDown_page ha

/-- `kmem_cache_free` gives a live object back to its own slab and touches no other live object. -/
theorem kmemCacheFree_spec (hinv : SlabInv s h.mem g live) {a : ℕ} (ha : a ∈ live) :
    ∃ g', SlabInv (kmemCacheFree s a h).1 (kmemCacheFree s a h).2.mem g' (live.erase a) ∧
      g'.slabs = g.slabs ∧ (kmemCacheFree s a h).2.pages = h.pages ∧
      SameCache s (kmemCacheFree s a h).1 ∧
      ∀ x, ¬ MetaByte s.size g.slabs (live.erase a) x → (kmemCacheFree s a h).2.mem x = h.mem x := by
  have hshape := hinv.shape
  have hb := hshape.live_slab a ha
  have hslot := hshape.live_slot ha
  have hnot : a ∉ live.erase a := (hshape.live_nodup.mem_erase_iff).not.mpr (by simp)
  rw [kmemCacheFree, alignDown_slot (hshape.slot_lt hb hslot).2]
  by_cases hcpu : pageOf a = s.cpuSlab
  · have hinv' := hinv.giveCpu ha hcpu
    rw [hcpu] at hb hslot ⊢
    rw [if_pos rfl]
    refine ⟨_, hinv', rfl, rfl, ⟨rfl, rfl, rfl⟩, fun x hx => ?_⟩
    refine (hinv'.shape.writeCell_frame rfl (c := .link a) ⟨_, hb, hslot⟩ ?_ hx _ _).trans
      (hinv'.shape.writeCell_frame rfl (c := .inuse s.cpuSlab) hb (by simp) hx _ _)
    rintro _ ⟨⟩
    exact hnot
  · rw [if_neg hcpu]
    obtain ⟨hfull, hnotfull⟩ := hinv.giveSlab ha rfl hcpu
    have hhead : readLE (writeLE h.mem (pageOf a + slabInuse) 2
        (readLE h.mem (pageOf a + slabInuse) 2 + (2 ^ 16 - 1))) (pageOf a) 8 =
        readCell h.mem (.freelist (pageOf a)) :=
      readLE_writeLE_of_disjoint (.inl (by simp only [slabInuse]; omega))
    have hpast : ∀ {g' : SlabGhost} {cpu : ℕ} (hshape' : SlabShape s.size cpu 0 g' (live.erase a))
        (_ : g'.slabs = g.slabs) {x : ℕ}, ¬ MetaByte s.size g.slabs (live.erase a) x →
        writeCell (writeCell (writeCell h.mem (.inuse (pageOf a))
          (readCell h.mem (.inuse (pageOf a)) + (2 ^ 16 - 1)))
          (.link a) (readCell h.mem (.freelist (pageOf a)))) (.freelist (pageOf a)) a x =
          h.mem x := by
      intro g' cpu hshape' hslabs x hx
      have hb' : pageOf a ∈ g'.slabs := hslabs ▸ hb
      rw [hshape'.writeCell_frame hslabs (c := .freelist (pageOf a)) hb' (by simp) hx,
        hshape'.writeCell_frame hslabs (c := .link a) ⟨_, hb', hslot⟩ (by rintro _ ⟨⟩; exact hnot) hx,
        hshape'.writeCell_frame hslabs (c := .inuse (pageOf a)) hb' (by simp) hx]
    simp only [hhead]
    by_cases hzero : readCell h.mem (.freelist (pageOf a)) = 0
    · rw [if_pos hzero]
      have hinv' := hfull hzero
      refine ⟨_, hinv', rfl, rfl, ⟨rfl, rfl, rfl⟩, fun x hx => ?_⟩
      refine (hinv'.shape.writeCell_frame rfl (c := .next (pageOf a)) hb (by simp) hx _ _).trans ?_
      exact hpast hinv'.shape rfl hx
    · rw [if_neg hzero]
      have hinv' := hnotfull hzero
      exact ⟨_, hinv', rfl, rfl, ⟨rfl, rfl, rfl⟩, fun x hx => hpast hinv'.shape rfl hx⟩

/-- Handing over a slab whose freelist is not empty; the assertion holds. -/
theorem adoptSlab_eq (s : KmemCache) {b : ℕ} (hne : readCell h.mem (.freelist b) ≠ 0) :
    adoptSlab b s h =
      some (readCell h.mem (.freelist b),
        { s with cpuFreelist := getFp h.mem (readCell h.mem (.freelist b)), cpuSlab := b },
        ⟨writeCell (writeCell h.mem (.freelist b) 0) (.inuse b) (readCell h.mem (.inuse b) + 1),
          h.pages⟩) := by
  have hcount : readLE (writeLE h.mem b 8 0) (b + slabInuse) 2 = readCell h.mem (.inuse b) :=
    readLE_writeLE_of_disjoint (.inr (by simp only [slabInuse]; omega))
  simp only [adoptSlab, hcount]
  exact if_neg hne

/-- A new slab joins an invariant cache that has no slab with free slots. -/
theorem SlabInv.addSlab {mem : ByteMem} (hinv : SlabInv s mem g live) {b : ℕ} (hb : b ∉ g.slabs)
    (hpage : 4096 ∣ b ∧ 0 < b ∧ b + 4096 ≤ wordSize) (hcpu : s.cpuFreelist = 0)
    (hlist : s.partialSlab = 0) :
    SlabShape s.size s.cpuSlab b
        { g with slabs := b :: g.slabs, slabFree := Function.update g.slabFree b (slabSlots s.size b) }
        live ∧
      SlabRep { s with objPerSlab := slotsPerSlab s.size } (formatSlab s b mem)
        { g with slabs := b :: g.slabs, slabFree := Function.update g.slabFree b (slabSlots s.size b) }
        live := by
  have hshape := hinv.shape
  have hne : b ≠ s.cpuSlab := by
    rintro rfl
    rcases hshape.cpu with hcpu | ⟨hzero, -⟩
    · exact hb hcpu
    · omega
  have hcpuFree := hinv.rep.cpuChain.eq_zero_iff.mp hcpu
  have hpartials := hinv.rep.partialChain.eq_zero_iff.mp hlist
  -- the page of the new slab is apart from those of the others
  have hread : ∀ c ∈ g.slabs, ∀ a n, c ≤ a → a + n ≤ c + 4096 →
      readLE (formatSlab s b mem) a n = readLE mem a n := by
    intro c hc a n h1 h2
    refine readLE_congr fun x h3 h4 => formatSlab_of_outside hshape.size_ge hshape.size_le ?_
    have hdvd := (hshape.page c hc).1
    have hcb : c ≠ b := ne_of_mem_of_not_mem hc hb
    omega
  refine ⟨hshape.addSlab hb hpage hne, ⟨?_, ?_, ?_, ?_⟩⟩
  · rw [hcpu, hcpuFree]
    rfl
  · intro c hc
    dsimp only
    by_cases hcb : c = b
    · subst hcb
      rw [Function.update_self]
      exact formatSlab_chain hshape.size_ge hshape.size_le hpage.2.2
    · have hc' := (List.mem_cons.mp hc).resolve_left hcb
      rw [Function.update_of_ne hcb]
      refine hinv.rep.slabChain_of hshape hc' (hread c hc' c 8 le_rfl (by omega)) fun a _ ha => ?_
      have hbounds := slot_bounds (hshape.slabFree_slot hc' ha)
      have hsize := hshape.size_ge
      simp only [slabHdr] at hbounds
      exact hread c hc' a 8 (by omega) (by omega)
  · rw [hlist, hpartials]
    rfl
  · intro c hc
    by_cases hcb : c = b
    · subst hcb
      have hnone : liveOf live c = [] := by
        refine List.eq_nil_iff_forall_not_mem.mpr fun o ho => hb ?_
        obtain ⟨hlive, rfl⟩ := mem_liveOf.mp ho
        exact hshape.live_slab o hlive
      rw [hnone]
      exact (formatSlab_header hpage.2.2).2
    · have hc' := (List.mem_cons.mp hc).resolve_left hcb
      rw [hread c hc' (c + slabInuse) 2 (by omega) (by simp only [slabInuse]; omega)]
      exact hinv.rep.inuse c hc'

/-- A full cache has nothing at hand. -/
theorem SlabInv.needsFrame_iff {s : KmemCache} {mem : ByteMem} {g : SlabGhost} {live : List ℕ}
    (hinv : SlabInv s mem g live) : s.NeedsFrame ↔ g.Full s.cpuSlab := by
  have hcpu := hinv.rep.cpuChain.eq_zero_iff
  have hlist := hinv.rep.partialChain.eq_zero_iff
  have hshape := hinv.shape
  rw [KmemCache.NeedsFrame, hcpu, hlist]
  constructor
  · rintro ⟨hcpuFree, hpartials⟩ b hb
    simp only [SlabGhost.freeOf, hcpuFree, ite_self, List.append_nil]
    by_contra hne
    by_cases hbc : b = s.cpuSlab
    · exact hne (hbc ▸ hshape.cpu_slabFree)
    · have hmem := (hshape.mem_partials b).mpr
        ⟨hb, hbc, by have := (hshape.page b hb).2.1; omega, hne⟩
      rw [hpartials] at hmem
      cases hmem
  · intro hfull
    constructor
    · rcases hshape.cpu with hmem | ⟨-, hnil⟩
      · have hnil := hfull _ hmem
        simp only [SlabGhost.freeOf, if_true, List.append_eq_nil_iff] at hnil
        exact hnil.2
      · exact hnil
    · refine List.eq_nil_iff_forall_not_mem.mpr fun b hb => ?_
      obtain ⟨hslab, -, -, hne⟩ := (hshape.mem_partials b).mp hb
      exact hne (List.append_eq_nil_iff.mp (hfull b hslab)).1

/-- What `kmem_cache_alloc` may do: reuse a free slot, take a frame because no slot is free, or
fail because there is no frame either. -/
inductive SlabAlloc (F : PageSource P) (hhdm : ℕ) (s : KmemCache) (h : Heap P) (g : SlabGhost) :
    ℕ → KmemCache → Heap P → SlabGhost → Prop
  | reuse {obj : ℕ} {s' : KmemCache} {mem' : ByteMem} {g' : SlabGhost} :
      obj ≠ 0 → ¬ s.NeedsFrame → g'.slabs = g.slabs → SlabAlloc F hhdm s h g obj s' ⟨mem', h.pages⟩ g'
  | grow {obj : ℕ} {s' : KmemCache} {mem' : ByteMem} {g' : SlabGhost} :
      obj ≠ 0 → s.NeedsFrame → (F.allocPage h.pages).1 ≠ 0 →
      g'.slabs = (hhdm + (F.allocPage h.pages).1) :: g.slabs →
      SlabAlloc F hhdm s h g obj s' ⟨mem', (F.allocPage h.pages).2⟩ g'
  | fail : s.NeedsFrame → (F.allocPage h.pages).1 = 0 →
      SlabAlloc F hhdm s h g 0 s ⟨h.mem, (F.allocPage h.pages).2⟩ g

/-- Handing over a detached slab with free slots restores the invariant. -/
theorem adoptSlab_spec {b : ℕ} (hshape : SlabShape s.size s.cpuSlab b g live)
    (hrep : SlabRep s h.mem g live) (hb : b ∈ g.slabs) (hcpu : b ≠ s.cpuSlab)
    (hempty : g.cpuFree = []) (hne : g.slabFree b ≠ []) :
    ∃ obj s' mem' g', adoptSlab b s h = some (obj, s', ⟨mem', h.pages⟩) ∧ obj ≠ 0 ∧ obj ∉ live ∧
      SlabInv s' mem' g' (obj :: live) ∧ g'.slabs = g.slabs ∧ SameCache s s' ∧
      ∀ x, ¬ MetaByte s.size g.slabs live x → mem' x = h.mem x := by
  obtain ⟨a, rest, hhead, ha, hfree, hinv⟩ := hrep.adopt hshape hb hcpu hempty hne
  subst hhead
  refine ⟨_, _, _, _, adoptSlab_eq s ha, ha, ?_, hinv, rfl, ⟨rfl, rfl, rfl⟩, fun x hx => ?_⟩
  · refine hshape.not_live_of_free hb (List.mem_append_left _ ?_)
    rw [hfree]
    exact List.mem_cons_self
  · exact (hshape.writeCell_frame rfl (c := .inuse b) hb (by simp) hx _ _).trans
      (hshape.writeCell_frame rfl (c := .freelist b) hb (by simp) hx _ _)

/-- The bytes of a page without live objects are not those of live objects. -/
theorem SlabInv.metaByte_newSlab {mem : ByteMem} (hinv : SlabInv s mem g live) {b x : ℕ}
    (hb : b ∉ g.slabs) (hdvd : 4096 ∣ b) (hx : b ≤ x ∧ x < b + 4096) :
    MetaByte s.size (b :: g.slabs) live x := by
  refine ⟨b, List.mem_cons_self, hx, fun o ho hin => ?_⟩
  have hslab := hinv.shape.live_slab o ho
  have hbounds := slot_bounds (hinv.shape.live_slot ho)
  have hne : pageOf o ≠ b := fun heq => hb (heq ▸ hslab)
  simp only [pageOf, slabHdr] at hbounds hne
  omega

/-- `kmem_cache_alloc` returns a slot that was not live, or `0`; no assertion fails, and no live
object is touched. -/
theorem kmemCacheAlloc_spec (hF : F.LawfulPage Ok inUse limit) (hmap : DirectMap hhdm limit)
    (hok : Ok h.pages) (hinv : SlabInv s h.mem g live)
    (hheld : SlabsHeld hhdm (inUse h.pages) g.slabs) :
    ∃ obj s' h' g', kmemCacheAlloc F hhdm s h = some (obj, s', h') ∧
      SlabAlloc F hhdm s h g obj s' h' g' ∧ SameCache s s' ∧
      (obj ≠ 0 → obj ∉ live ∧ SlabInv s' h'.mem g' (obj :: live)) ∧
      ∀ x, ¬ MetaByte s.size g'.slabs live x → h'.mem x = h.mem x := by
  have hshape := hinv.shape
  by_cases hcpu : s.cpuFreelist = 0
  · have hcpuFree := hinv.rep.cpuChain.eq_zero_iff.mp hcpu
    rw [kmemCacheAlloc, if_neg (by simpa using hcpu), refill]
    by_cases hlist : s.partialSlab = 0
    · have hneeds : s.NeedsFrame := ⟨hcpu, hlist⟩
      rw [if_pos hlist, allocNewSlab]
      obtain ⟨hdvd, hlimit⟩ := hF.allocPage_addr _ hok
      by_cases hframe : (F.allocPage h.pages).1 = 0
      · refine ⟨0, s, _, g, ?_, .fail hneeds hframe, ⟨rfl, rfl, rfl⟩, fun h0 => absurd rfl h0,
          fun x _ => rfl⟩
        simp only [hframe, if_true]
      · have hfresh := hF.allocPage_fresh _ hok hframe
        have haligned := hmap.aligned
        have hfits := hmap.fits
        have hslab : (hhdm + (F.allocPage h.pages).1) % wordSize = hhdm + (F.allocPage h.pages).1 :=
          Nat.mod_eq_of_lt (by omega)
        have hslots := slotsPerSlab_pos (by have := hshape.size_ge; omega) hshape.size_le
        have hb : hhdm + (F.allocPage h.pages).1 ∉ g.slabs := by
          intro hb
          obtain ⟨f, hf, heq⟩ := hheld _ hb
          obtain rfl : (F.allocPage h.pages).1 = f := by omega
          exact hfresh hf
        have hpage : 4096 ∣ hhdm + (F.allocPage h.pages).1 ∧ 0 < hhdm + (F.allocPage h.pages).1 ∧
            hhdm + (F.allocPage h.pages).1 + 4096 ≤ wordSize := by omega
        obtain ⟨hshape', hrep'⟩ := hinv.addSlab hb hpage hcpu hlist
        have hne : hhdm + (F.allocPage h.pages).1 ≠ s.cpuSlab := by
          rintro heq
          rcases hshape.cpu with hmem | ⟨hzero, -⟩
          · exact hb (heq ▸ hmem)
          · omega
        obtain ⟨obj, s', mem', g', heq, hobj, hlive, hinv', hslabs, hsame, hkeep⟩ := adoptSlab_spec
          (s := { s with objPerSlab := slotsPerSlab s.size })
          (h := ⟨formatSlab s (hhdm + (F.allocPage h.pages).1) h.mem, (F.allocPage h.pages).2⟩)
          hshape' hrep' List.mem_cons_self hne hcpuFree (by
            simp only [Function.update_self]
            intro hnil
            have hlen := congrArg List.length hnil
            simp only [slabSlots, List.length_map, List.length_range, List.length_nil] at hlen
            omega)
        refine ⟨obj, s', _, g', ?_, .grow hobj hneeds hframe hslabs, hsame, fun _ => ⟨hlive, hinv'⟩, ?_⟩
        · simp only [hframe, if_false, hslab, hslots.ne', hpage.2.1.ne', heq]
        · intro x hx
          rw [hslabs] at hx
          refine (hkeep x hx).trans (formatSlab_of_outside hshape.size_ge hshape.size_le ?_)
          by_contra hin
          exact hx (hinv.metaByte_newSlab hb hpage.1 (by omega))
    · rw [if_neg hlist]
      obtain ⟨rest, hpartials, hshape', hrep'⟩ := hinv.popPartial hlist
      have hmem := (hshape.mem_partials s.partialSlab).mp
        (by rw [hpartials]; exact List.mem_cons_self)
      obtain ⟨obj, s', mem', g', heq, hobj, hlive, hinv', hslabs, hsame, hkeep⟩ := adoptSlab_spec
        (s := { s with partialSlab := readCell h.mem (.next s.partialSlab) })
        (h := ⟨writeCell h.mem (.next s.partialSlab) 0, h.pages⟩)
        hshape' hrep' hmem.1 hmem.2.1 hcpuFree hmem.2.2.2
      refine ⟨obj, s', _, g', heq, .reuse hobj (fun h0 => hlist h0.2) hslabs, ⟨hsame.1, hsame.2.1, hsame.2.2⟩,
        fun _ => ⟨hlive, hinv'⟩, ?_⟩
      intro x hx
      rw [hslabs] at hx
      exact (hkeep x hx).trans
        (hshape.writeCell_frame rfl (c := .next s.partialSlab) hmem.1 (by simp) hx _ _)
  · obtain ⟨rest, hcpuFree, hinv'⟩ := hinv.takeCpu hcpu
    obtain ⟨hslab, -⟩ := hshape.cpuFree_slot (a := s.cpuFreelist)
      (by rw [hcpuFree]; exact List.mem_cons_self)
    have heq : kmemCacheAlloc F hhdm s h =
        some (s.cpuFreelist, { s with cpuFreelist := getFp h.mem s.cpuFreelist },
          ⟨writeCell h.mem (.inuse s.cpuSlab) (readCell h.mem (.inuse s.cpuSlab) + 1), h.pages⟩) :=
      if_pos hcpu
    have hfree : s.cpuFreelist ∈ g.freeOf s.cpuSlab s.cpuSlab := by
      rw [SlabGhost.freeOf, if_pos rfl, hcpuFree]
      exact List.mem_append_right _ List.mem_cons_self
    refine ⟨_, _, _, { g with cpuFree := rest }, heq,
      .reuse hcpu (fun h0 => hcpu h0.1) rfl, ⟨rfl, rfl, rfl⟩, ?_, ?_⟩
    · exact fun _ => ⟨hshape.not_live_of_free hslab hfree, hinv'⟩
    · exact fun x hx => hshape.writeCell_frame rfl (c := .inuse s.cpuSlab) hslab (by simp) hx _ _

end Routines

end Flos.Mm
