import Flos.Mm.SlabInv

/-!
# Specifications of the slab routines

Each routine is a few stores into cells, and each store is one step of the representation. From
these the specifications of `kmem_cache_alloc` and `kmem_cache_free` follow: they keep the
invariant, no assertion fails, and the bytes of objects that stay live are not touched.
-/

namespace Flos.Mm

open Flos.Lib

/-- A byte of a slab's page outside the live objects. -/
def MetaByte (size : ℕ) (slabs live : List ℕ) (x : ℕ) : Prop :=
  ∃ b ∈ slabs, (b ≤ x ∧ x < b + 4096) ∧ ∀ o ∈ live, ¬ (o ≤ x ∧ x < o + size)

/-- Live objects of other pages are elsewhere. -/
theorem metaByte_of_slot_free {size x b : ℕ} {slabs live : List ℕ} (hb : b ∈ slabs)
    (hx : b ≤ x ∧ x < b + 4096) (hlive : ∀ o ∈ live, o ∈ slabSlots size b → ¬ (o ≤ x ∧ x < o + size))
    (hslot : ∀ o ∈ live, o ∈ slabSlots size (pageOf o)) (hdvd : 4096 ∣ b) :
    MetaByte size slabs live x := by
  refine ⟨b, hb, hx, fun o ho hin => ?_⟩
  by_cases hpage : pageOf o = b
  · exact hlive o ho (hpage ▸ hslot o ho) hin
  · obtain ⟨h1, h2⟩ := slot_bounds (hslot o ho)
    simp only [pageOf, slabHdr] at hpage h1 h2
    omega

section Cells

variable {size cpuSlab detached : ℕ} {g : SlabGhost} {live : List ℕ}

/-- The header of a slab lies outside the live objects. -/
theorem SlabShape.metaByte_header (h : SlabShape size cpuSlab detached g live) {b x : ℕ}
    (hb : b ∈ g.slabs) (hx : b ≤ x ∧ x < b + slabHdr) : MetaByte size g.slabs live x := by
  simp only [slabHdr] at hx
  refine metaByte_of_slot_free hb (by omega) (fun o _ ho hin => ?_)
    (fun o ho => h.live_slot ho) (h.page b hb).1
  have := (slot_bounds ho).1
  simp only [slabHdr] at this
  omega

/-- A slot that is not live lies outside the live objects. -/
theorem SlabShape.metaByte_slot (h : SlabShape size cpuSlab detached g live) {b a x : ℕ}
    (hb : b ∈ g.slabs) (ha : a ∈ slabSlots size b) (hlive : a ∉ live)
    (hx : a ≤ x ∧ x < a + size) : MetaByte size g.slabs live x := by
  have hbounds := slot_bounds ha
  simp only [slabHdr] at hbounds
  refine metaByte_of_slot_free hb (by omega) (fun o ho hslot hin => ?_)
    (fun o ho => h.live_slot ho) (h.page b hb).1
  rcases slot_apart hslot ha (ne_of_mem_of_not_mem ho hlive) with hap | hap <;> omega

/-- The cells of a slab and of its free slots. -/
def SlabShape.Cell (_ : SlabShape size cpuSlab detached g live) : SlabCell → Prop
  | .freelist b | .next b | .inuse b => b ∈ g.slabs
  | .link a => ∃ b ∈ g.slabs, a ∈ slabSlots size b

/-- The cells of a cache are cells. -/
theorem SlabShape.Cell.ok {h : SlabShape size cpuSlab detached g live} {c : SlabCell}
    (hc : h.Cell c) : c.Ok size := by
  cases c with
  | freelist b => exact (h.page b hc).1
  | next b => exact (h.page b hc).1
  | inuse b => exact (h.page b hc).1
  | link a =>
    obtain ⟨b, hb, ha⟩ := hc
    rw [SlabCell.Ok, slot_pageOf (by have := h.size_ge; omega) (h.page b hb).1 ha]
    exact ha

/-- A store to a cell of the cache changes none of its other cells. -/
theorem SlabShape.readCell_write (h : SlabShape size cpuSlab detached g live) {c d : SlabCell}
    (hc : h.Cell c) (hd : h.Cell d) (hne : d ≠ c) (mem : ByteMem) (v : ℕ) :
    readCell (writeCell mem c v) d = readCell mem d :=
  readCell_writeCell_of_ne h.size_ge hc.ok hd.ok hne

end Cells

/-! ## Steps of the representation

In each of them `hread` says that the cells that are not stored to keep their values. -/

section Steps

variable {size cpuSlab detached : ℕ} {g : SlabGhost} {live : List ℕ} {s : KmemCache}
  {mem mem' : ByteMem}

/-- The links of a slab's freelist are cells. -/
theorem SlabShape.cell_slabFree (h : SlabShape size cpuSlab detached g live) {b a : ℕ}
    (hb : b ∈ g.slabs) (ha : a ∈ g.slabFree b) : h.Cell (.link a) :=
  ⟨b, hb, h.slabFree_slot hb ha⟩

/-- The links of the CPU's freelist are cells. -/
theorem SlabShape.cell_cpuFree (h : SlabShape size cpuSlab detached g live) {a : ℕ}
    (ha : a ∈ g.cpuFree) : h.Cell (.link a) :=
  ⟨cpuSlab, h.cpuFree_slot ha⟩

/-- The links between slabs with free slots are cells. -/
theorem SlabShape.cell_partials (h : SlabShape size cpuSlab detached g live) {b : ℕ}
    (hb : b ∈ g.partials) : h.Cell (.next b) :=
  ((h.mem_partials b).mp hb).1

/-- The freelist of a slab survives when its head and its links keep their values. -/
theorem SlabRep.slabChain_of (h : SlabShape size cpuSlab detached g live)
    (hrep : SlabRep s mem g live) {b : ℕ} (hb : b ∈ g.slabs)
    (hhead : readCell mem' (.freelist b) = readCell mem (.freelist b))
    (hread : ∀ a, h.Cell (.link a) → a ∈ g.slabFree b →
      readCell mem' (.link a) = readCell mem (.link a)) :
    LinkChain mem' 0 (readLE mem' b 8) (g.slabFree b) := by
  change readLE mem' b 8 = readLE mem b 8 at hhead
  rw [hhead]
  exact linkChain_links (hrep.slabChain b hb) fun a ha => hread a (h.cell_slabFree hb ha) ha

/-- The list of slabs with free slots survives when its links keep their values. -/
theorem SlabRep.partialChain_of (h : SlabShape size cpuSlab detached g live)
    (hrep : SlabRep s mem g live)
    (hread : ∀ b, h.Cell (.next b) → b ∈ g.partials →
      readCell mem' (.next b) = readCell mem (.next b)) :
    LinkChain mem' slabNext s.partialSlab g.partials :=
  linkChain_nexts hrep.partialChain fun b hb => hread b (h.cell_partials hb) hb

/-- An invariant state that differs in bytes of live objects, or elsewhere, is invariant. -/
theorem SlabInv.congr (h : SlabInv s mem g live)
    (hsame : ∀ x, MetaByte s.size g.slabs live x → mem' x = mem x) : SlabInv s mem' g live := by
  have hshape := h.shape
  have hheader : ∀ b ∈ g.slabs, ∀ o n, o + n ≤ slabHdr → readLE mem' (b + o) n = readLE mem (b + o) n :=
    fun b hb o n hle => readLE_congr fun x h1 h2 => hsame x (hshape.metaByte_header hb (by omega))
  have hlink : ∀ a, hshape.Cell (.link a) → a ∉ live →
      readCell mem' (.link a) = readCell mem (.link a) := by
    rintro a ⟨b, hb, ha⟩ hlive
    have := hshape.size_ge
    refine readLE_congr fun x h1 h2 => hsame x (hshape.metaByte_slot hb ha hlive ?_)
    simp only [SlabCell.addr, SlabCell.width] at h1 h2
    omega
  refine ⟨hshape, ⟨?_, ?_, ?_, ?_⟩⟩
  · refine linkChain_links h.rep.cpuChain fun a ha => hlink a (hshape.cell_cpuFree ha) ?_
    exact hshape.not_live_of_free (hshape.cpuFree_slot ha).1
      (List.mem_append_right _ (by rwa [if_pos rfl]))
  · intro b hb
    refine h.rep.slabChain_of hshape hb (hheader b hb 0 8 (by decide)) fun a hcell ha => hlink a hcell ?_
    exact hshape.not_live_of_free hb (List.mem_append_left _ ha)
  · exact h.rep.partialChain_of hshape fun b hb _ => hheader b hb slabNext 8 (by decide)
  · intro b hb
    rw [hheader b hb slabInuse 2 (by decide)]
    exact h.rep.inuse b hb

/-- The CPU's freelist gives its head away. -/
theorem SlabInv.takeCpu (h : SlabInv s mem g live) (hne : s.cpuFreelist ≠ 0) :
    ∃ rest, g.cpuFree = s.cpuFreelist :: rest ∧
      SlabInv { s with cpuFreelist := getFp mem s.cpuFreelist }
        (writeCell mem (.inuse s.cpuSlab) (readCell mem (.inuse s.cpuSlab) + 1))
        { g with cpuFree := rest } (s.cpuFreelist :: live) := by
  obtain ⟨rest, hcpu, hchain⟩ := linkChain_getFp h.rep.cpuChain hne
  have hshape := h.shape
  obtain ⟨hslab, hslot⟩ := hshape.cpuFree_slot (a := s.cpuFreelist)
    (by rw [hcpu]; exact List.mem_cons_self)
  have hpage := slot_pageOf (by have := hshape.size_ge; omega) (hshape.page _ hslab).1 hslot
  have hcell : hshape.Cell (.inuse s.cpuSlab) := hslab
  have hread : ∀ d, hshape.Cell d → d ≠ .inuse s.cpuSlab →
      readCell (writeCell mem (.inuse s.cpuSlab) (readCell mem (.inuse s.cpuSlab) + 1)) d =
        readCell mem d :=
    fun d hd hdne => hshape.readCell_write hcell hd hdne mem _
  have hpartials := h.rep.partialChain_of hshape fun b hb _ => hread (.next b) hb (by simp)
  refine ⟨rest, hcpu, hshape.takeCpu hcpu, ⟨?_, ?_, hpartials, ?_⟩⟩
  · exact linkChain_links hchain fun a ha =>
      hread (.link a) (hshape.cell_cpuFree (by rw [hcpu]; exact List.mem_cons_of_mem _ ha)) (by simp)
  · exact fun b hb => h.rep.slabChain_of hshape hb (hread (.freelist b) hb (by simp))
      fun a ha _ => hread (.link a) ha (by simp)
  · intro b hb
    have hcount := h.rep.inuse b hb
    change readCell _ (.inuse b) = _
    rw [liveOf_cons, hpage]
    by_cases hbc : s.cpuSlab = b
    · subst hbc
      have hlt := hshape.liveOf_length_lt hb
      change readCell mem (.inuse s.cpuSlab) = _ at hcount
      rw [if_pos rfl, hcount, readCell_writeCell_self hlt, List.length_cons]
    · rw [if_neg hbc, hread (.inuse b) hb (by simpa using Ne.symm hbc)]
      exact hcount

/-- The decrement of a 16-bit counter that is not zero. -/
theorem inuse_decrement {mem : ByteMem} {b n : ℕ} (hn : readCell mem (.inuse b) = n + 1) :
    readCell (writeCell mem (.inuse b) (readCell mem (.inuse b) + (2 ^ 16 - 1))) (.inuse b) = n := by
  have hlt : readCell mem (.inuse b) < 256 ^ 2 := readLE_lt _ _ _
  rw [readCell_writeCell, hn]
  simp only [SlabCell.width]
  omega

/-- Slots are addresses. -/
theorem SlabShape.slot_lt (h : SlabShape size cpuSlab detached g live) {b a : ℕ}
    (hb : b ∈ g.slabs) (ha : a ∈ slabSlots size b) : 0 < a ∧ a < wordSize := by
  have hpage := h.page b hb
  have hbounds := slot_bounds ha
  have hsize := h.size_ge
  simp only [slabHdr] at hbounds
  omega

/-- The head of the CPU's freelist is an address. -/
theorem SlabInv.cpuFreelist_lt (h : SlabInv s mem g live) : s.cpuFreelist < wordSize := by
  refine h.rep.cpuChain.head_lt (by decide) fun a ha => ?_
  obtain ⟨hb, hslot⟩ := h.shape.cpuFree_slot ha
  exact (h.shape.slot_lt hb hslot).2

/-- The head of a slab's freelist is an address. -/
theorem SlabInv.freelist_lt (h : SlabInv s mem g live) {b : ℕ} (hb : b ∈ g.slabs) :
    readCell mem (.freelist b) < wordSize :=
  (h.rep.slabChain b hb).head_lt (by decide) fun _ ha =>
    (h.shape.slot_lt hb (h.shape.slabFree_slot hb ha)).2

/-- The head of the list of slabs with free slots is an address. -/
theorem SlabInv.partialSlab_lt (h : SlabInv s mem g live) : s.partialSlab < wordSize := by
  refine h.rep.partialChain.head_lt (by decide) fun b hb => ?_
  have := h.shape.page b ((h.shape.mem_partials b).mp hb).1
  omega

/-- The number of live objects in a slab when one of them dies. -/
theorem liveOf_erase_length {o : ℕ} (ho : o ∈ live) (b : ℕ) :
    (liveOf live b).length =
      (liveOf (live.erase o) b).length + if pageOf o = b then 1 else 0 := by
  rw [(liveOf_erase ho b).length_eq, liveOf_cons]
  split
  · rw [List.length_cons]
  · rfl

/-- A live object of the CPU's slab goes back to the CPU's freelist. -/
theorem SlabInv.giveCpu (h : SlabInv s mem g live) {a : ℕ} (ha : a ∈ live)
    (hpage : pageOf a = s.cpuSlab) :
    SlabInv { s with cpuFreelist := a }
      (writeCell (writeCell mem (.inuse s.cpuSlab) (readCell mem (.inuse s.cpuSlab) + (2 ^ 16 - 1)))
        (.link a) s.cpuFreelist)
      { g with cpuFree := a :: g.cpuFree } (live.erase a) := by
  have hshape := h.shape
  have hslab : s.cpuSlab ∈ g.slabs := hpage ▸ hshape.live_slab a ha
  have hslot : a ∈ slabSlots s.size s.cpuSlab := hpage ▸ hshape.live_slot ha
  have hcount : hshape.Cell (.inuse s.cpuSlab) := hslab
  have hlink : hshape.Cell (.link a) := ⟨s.cpuSlab, hslab, hslot⟩
  generalize hmem : writeCell (writeCell mem (.inuse s.cpuSlab) _) _ _ = mem'
  have hread : ∀ d, hshape.Cell d → d ≠ .inuse s.cpuSlab → d ≠ .link a →
      readCell mem' d = readCell mem d := by
    intro d hd h1 h2
    rw [← hmem, hshape.readCell_write hlink hd h2, hshape.readCell_write hcount hd h1]
  have hfree : ∀ {b x}, b ∈ g.slabs → x ∈ g.freeOf s.cpuSlab b → x ≠ a := by
    rintro b x hb hx rfl
    exact hshape.not_live_of_free hb hx ha
  have hpartials := h.rep.partialChain_of hshape fun b hb _ => hread (.next b) hb (by simp) (by simp)
  refine ⟨hshape.giveCpu ha hpage, ⟨?_, ?_, hpartials, ?_⟩⟩
  · refine h.rep.cpuChain.push (hshape.slot_lt hslab hslot).1.ne' (fun x hx => ?_) ?_
    · have hne := hfree hslab (List.mem_append_right _ (by rwa [if_pos rfl]))
      exact hread (.link x) (hshape.cell_cpuFree hx) (by simp) (by simpa using hne)
    · rw [← hmem]
      exact readCell_writeCell_self h.cpuFreelist_lt
  · intro b hb
    refine h.rep.slabChain_of hshape hb (hread (.freelist b) hb (by simp) (by simp)) ?_
    intro x hcell hx
    have hne := hfree hb (List.mem_append_left _ hx)
    exact hread (.link x) hcell (by simp) (by simpa using hne)
  · intro b hb
    have hlen := h.rep.inuse b hb
    change readCell _ (.inuse b) = _ at hlen
    rw [liveOf_erase_length ha b, hpage] at hlen
    change readCell _ (.inuse b) = _
    by_cases hbc : s.cpuSlab = b
    · subst hbc
      rw [if_pos rfl] at hlen
      rw [← hmem, hshape.readCell_write hlink hcount (by simp), inuse_decrement hlen]
    · rw [if_neg hbc] at hlen
      rw [hread (.inuse b) hb (by simpa using Ne.symm hbc) (by simp), hlen, Nat.add_zero]

/-- A live object of another slab goes back to the freelist of its slab. The slab joins the list
of slabs with free slots if its freelist was empty. -/
theorem SlabInv.giveSlab (h : SlabInv s mem g live) {a b : ℕ} (ha : a ∈ live) (hpage : pageOf a = b)
    (hb : b ≠ s.cpuSlab) :
    let mem' := writeCell (writeCell (writeCell mem
        (.inuse b) (readCell mem (.inuse b) + (2 ^ 16 - 1)))
      (.link a) (readCell mem (.freelist b))) (.freelist b) a
    let slabFree := Function.update g.slabFree b (a :: g.slabFree b)
    (readCell mem (.freelist b) = 0 →
      SlabInv { s with partialSlab := b } (writeCell mem' (.next b) s.partialSlab)
        { g with slabFree := slabFree, partials := b :: g.partials } (live.erase a)) ∧
    (readCell mem (.freelist b) ≠ 0 →
      SlabInv s mem' { g with slabFree := slabFree } (live.erase a)) := by
  intro mem' slabFree
  have hshape := h.shape
  have hslab : b ∈ g.slabs := hpage ▸ hshape.live_slab a ha
  have hslot : a ∈ slabSlots s.size b := hpage ▸ hshape.live_slot ha
  have hpos := hshape.slot_lt hslab hslot
  have hcount : hshape.Cell (.inuse b) := hslab
  have hhead : hshape.Cell (.freelist b) := hslab
  have hnext : hshape.Cell (.next b) := hslab
  have hlink : hshape.Cell (.link a) := ⟨b, hslab, hslot⟩
  have hread : ∀ d, hshape.Cell d → d ≠ .inuse b → d ≠ .link a → d ≠ .freelist b →
      readCell mem' d = readCell mem d := by
    intro d hd h1 h2 h3
    rw [hshape.readCell_write hhead hd h3, hshape.readCell_write hlink hd h2,
      hshape.readCell_write hcount hd h1]
  have hreadHead : readCell mem' (.freelist b) = a := readCell_writeCell_self hpos.2
  have hreadLink : readCell mem' (.link a) = readCell mem (.freelist b) := by
    rw [hshape.readCell_write hhead hlink (by simp)]
    exact readCell_writeCell_self (h.freelist_lt hslab)
  have hreadCount : ∀ c ∈ g.slabs,
      readCell mem' (.inuse c) = (liveOf (live.erase a) c).length := by
    intro c hc
    have hlen := h.rep.inuse c hc
    change readCell _ (.inuse c) = _ at hlen
    rw [liveOf_erase_length ha c, hpage] at hlen
    by_cases hbc : b = c
    · subst hbc
      rw [if_pos rfl] at hlen
      rw [hshape.readCell_write hhead hcount (by simp),
        hshape.readCell_write hlink hcount (by simp), inuse_decrement hlen]
    · rw [if_neg hbc] at hlen
      rw [hread (.inuse c) hc (by simpa using Ne.symm hbc) (by simp) (by simp), hlen, Nat.add_zero]
  have hfree : ∀ {c x}, c ∈ g.slabs → x ∈ g.freeOf s.cpuSlab c → x ≠ a := by
    rintro c x hc hx rfl
    exact hshape.not_live_of_free hc hx ha
  have hlinks : ∀ {c x}, c ∈ g.slabs → x ∈ g.freeOf s.cpuSlab c →
      readCell mem' (.link x) = readCell mem (.link x) := by
    intro c x hc hx
    exact hread (.link x) ⟨c, hc, hshape.free_slot hc hx⟩ (by simp) (by simpa using hfree hc hx)
      (by simp)
  have hcpuChain : LinkChain mem' 0 s.cpuFreelist g.cpuFree :=
    linkChain_links h.rep.cpuChain fun x hx =>
      hlinks (hshape.cpuFree_slot hx).1 (List.mem_append_right _ (by rwa [if_pos rfl]))
  have hslabChain : ∀ c ∈ g.slabs, LinkChain mem' 0 (readCell mem' (.freelist c)) (slabFree c) := by
    intro c hc
    have hold := linkChain_links (h.rep.slabChain c hc) fun x hx =>
      hlinks hc (List.mem_append_left _ hx)
    by_cases hcb : c = b
    · subst hcb
      simp only [slabFree, Function.update_self, hreadHead]
      refine ⟨rfl, hpos.1.ne', ?_⟩
      change LinkChain mem' 0 (readCell mem' (.link a)) _
      rw [hreadLink]
      exact hold
    · simp only [slabFree, Function.update_of_ne hcb]
      rw [hread (.freelist c) hc (by simp) (by simp) (by simpa using hcb)]
      exact hold
  have hpartialChain : LinkChain mem' slabNext s.partialSlab g.partials :=
    h.rep.partialChain_of hshape fun c hc _ => hread (.next c) hc (by simp) (by simp) (by simp)
  have hempty := (h.rep.slabChain b hslab).eq_zero_iff
  have hshape' := hshape.giveSlab ha hpage hb
  constructor
  · intro hfull
    rw [if_pos (hempty.mp hfull)] at hshape'
    -- the store to the slab's link touches none of the other cells
    have hread' : ∀ d, hshape.Cell d → d ≠ .next b →
        readCell (writeCell mem' (.next b) s.partialSlab) d = readCell mem' d :=
      fun d hd hne => hshape.readCell_write hnext hd hne mem' _
    have hnotin : b ∉ g.partials := fun hmem =>
      ((hshape.mem_partials b).mp hmem).2.2.2 (hempty.mp hfull)
    refine ⟨hshape', ⟨?_, ?_, ?_, ?_⟩⟩
    · exact linkChain_links hcpuChain fun x hx => hread' (.link x) (hshape.cell_cpuFree hx) (by simp)
    · intro c hc
      have hchain := hslabChain c hc
      rw [← hread' (.freelist c) hc (by simp)] at hchain
      refine linkChain_links hchain fun x hx => hread' (.link x) ?_ (by simp)
      by_cases hcb : c = b
      · subst hcb
        simp only [slabFree, Function.update_self] at hx
        rcases List.mem_cons.mp hx with rfl | hx
        · exact hlink
        · exact hshape.cell_slabFree hc hx
      · simp only [slabFree, Function.update_of_ne hcb] at hx
        exact hshape.cell_slabFree hc hx
    · refine hpartialChain.push (hshape.page b hslab).2.1.ne' (fun c hc => ?_) ?_
      · exact hread' (.next c) (hshape.cell_partials hc)
          (by simpa using ne_of_mem_of_not_mem hc hnotin)
      · exact readCell_writeCell_self h.partialSlab_lt
    · intro c hc
      change readCell _ (.inuse c) = _
      rw [hread' (.inuse c) hc (by simp), hreadCount c hc]
  · intro hnotfull
    rw [if_neg fun hnil => hnotfull (hempty.mpr hnil)] at hshape'
    exact ⟨hshape', ⟨hcpuChain, hslabChain, hpartialChain, hreadCount⟩⟩

/-- A slab is taken off the list of slabs with free slots. -/
theorem SlabInv.popPartial (h : SlabInv s mem g live) (hne : s.partialSlab ≠ 0) :
    ∃ rest, g.partials = s.partialSlab :: rest ∧
      SlabShape s.size s.cpuSlab s.partialSlab { g with partials := rest } live ∧
      SlabRep { s with partialSlab := readCell mem (.next s.partialSlab) }
        (writeCell mem (.next s.partialSlab) 0) { g with partials := rest } live := by
  obtain ⟨rest, hpartials, hchain⟩ := h.rep.partialChain.of_ne_zero hne
  have hshape := h.shape
  have hslab : s.partialSlab ∈ g.slabs :=
    ((hshape.mem_partials _).mp (by rw [hpartials]; exact List.mem_cons_self)).1
  have hnodup := hshape.partials_nodup
  rw [hpartials, List.nodup_cons] at hnodup
  have hcell : hshape.Cell (.next s.partialSlab) := hslab
  have hread : ∀ d, hshape.Cell d → d ≠ .next s.partialSlab →
      readCell (writeCell mem (.next s.partialSlab) 0) d = readCell mem d :=
    fun d hd hdne => hshape.readCell_write hcell hd hdne mem 0
  refine ⟨rest, hpartials, hshape.popPartial hpartials, ⟨?_, ?_, ?_, ?_⟩⟩
  · exact linkChain_links h.rep.cpuChain fun x hx => hread (.link x) (hshape.cell_cpuFree hx) (by simp)
  · exact fun b hb => h.rep.slabChain_of hshape hb (hread (.freelist b) hb (by simp))
      fun x hx _ => hread (.link x) hx (by simp)
  · refine linkChain_nexts hchain fun b hb => hread (.next b) ?_ ?_
    · exact hshape.cell_partials (by rw [hpartials]; exact List.mem_cons_of_mem _ hb)
    · simpa using ne_of_mem_of_not_mem hb hnodup.1
  · intro b hb
    exact (hread (.inuse b) hb (by simp)).trans (h.rep.inuse b hb)

/-- The detached slab becomes the CPU's slab, and the head of its freelist is given away. -/
theorem SlabRep.adopt {b : ℕ} (hshape : SlabShape s.size s.cpuSlab b g live)
    (hrep : SlabRep s mem g live) (hb : b ∈ g.slabs) (hcpu : b ≠ s.cpuSlab)
    (hempty : g.cpuFree = []) (hne : g.slabFree b ≠ []) :
    ∃ a rest, readCell mem (.freelist b) = a ∧ a ≠ 0 ∧ g.slabFree b = a :: rest ∧
      SlabInv { s with cpuFreelist := getFp mem a, cpuSlab := b }
        (writeCell (writeCell mem (.freelist b) 0) (.inuse b) (readCell mem (.inuse b) + 1))
        { g with slabFree := Function.update g.slabFree b [], cpuFree := rest } (a :: live) := by
  have hchain : LinkChain mem 0 (readCell mem (.freelist b)) (g.slabFree b) :=
    hrep.slabChain b hb
  obtain ⟨rest, hfree, hrest⟩ :=
    linkChain_getFp hchain fun h0 => hne (hchain.eq_zero_iff.mp h0)
  generalize readCell mem (.freelist b) = a at *
  have hslot : a ∈ slabSlots s.size b := hshape.slabFree_slot hb (by rw [hfree]; exact List.mem_cons_self)
  have hpage := slot_pageOf (by have := hshape.size_ge; omega) (hshape.page b hb).1 hslot
  have hhead : hshape.Cell (.freelist b) := hb
  have hcount : hshape.Cell (.inuse b) := hb
  generalize hmem : writeCell (writeCell mem (.freelist b) 0) _ _ = mem'
  have hread : ∀ d, hshape.Cell d → d ≠ .freelist b → d ≠ .inuse b →
      readCell mem' d = readCell mem d := by
    intro d hd h1 h2
    rw [← hmem, hshape.readCell_write hcount hd h2, hshape.readCell_write hhead hd h1]
  have hpartials := hrep.partialChain_of hshape fun c hc _ => hread (.next c) hc (by simp) (by simp)
  refine ⟨a, rest, rfl, (hshape.slot_lt hb hslot).1.ne', hfree, hshape.adopt hb hcpu hempty hfree,
    ⟨?_, ?_, hpartials, ?_⟩⟩
  · refine linkChain_links hrest fun x hx => hread (.link x) ?_ (by simp) (by simp)
    exact hshape.cell_slabFree hb (by rw [hfree]; exact List.mem_cons_of_mem _ hx)
  · intro c hc
    dsimp only
    by_cases hcb : c = b
    · subst hcb
      rw [Function.update_self]
      change readCell mem' (.freelist c) = 0
      rw [← hmem, hshape.readCell_write hcount hhead (by simp)]
      exact readCell_writeCell_self (by simp [SlabCell.width])
    · rw [Function.update_of_ne hcb]
      exact hrep.slabChain_of hshape hc (hread (.freelist c) hc (by simpa using hcb) (by simp))
        fun x hx _ => hread (.link x) hx (by simp) (by simp)
  · intro c hc
    have hlen := hrep.inuse c hc
    change readCell mem (.inuse c) = _ at hlen
    change readCell mem' (.inuse c) = _
    rw [liveOf_cons, hpage]
    by_cases hcb : b = c
    · subst hcb
      have hlt := hshape.liveOf_length_lt hc
      rw [if_pos rfl, ← hmem, hlen, readCell_writeCell_self hlt, List.length_cons]
    · rw [if_neg hcb, hread (.inuse c) hc (by simp) (by simpa using Ne.symm hcb), hlen]

end Steps

end Flos.Mm
