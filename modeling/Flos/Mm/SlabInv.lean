import Mathlib.Data.List.Perm.Basic
import Flos.Mm.Slab

/-!
# The representation invariant of a cache

A ghost record says which slabs a cache has, which of them are on its list, and what is on each
freelist; the live objects are a ghost list. The shape part of the invariant places every slot
exactly once; the representation part ties the ghost record to the fields and links in memory.
Memory is read through the header fields of the slabs and the first words of the free slots
only, so that writes elsewhere, and in particular into live objects, keep the invariant.
-/

namespace Flos.Mm

open Flos.Lib

/-- The page of an address. -/
def pageOf (a : ℕ) : ℕ := a / 4096 * 4096

/-- The slots of the slab at `b`. -/
def slabSlots (size b : ℕ) : List ℕ :=
  (List.range (slotsPerSlab size)).map fun i => b + slabHdr + i * size

/-- The slabs of a cache, its list of slabs with free slots, and the freelists. -/
structure SlabGhost where
  slabs : List ℕ
  partials : List ℕ
  slabFree : ℕ → List ℕ
  cpuFree : List ℕ

/-- The free slots of a slab: its own freelist, and the CPU's if that was taken from it. -/
def SlabGhost.freeOf (g : SlabGhost) (cpuSlab b : ℕ) : List ℕ :=
  g.slabFree b ++ if b = cpuSlab then g.cpuFree else []

/-- The live objects in the slab at `b`. -/
def liveOf (live : List ℕ) (b : ℕ) : List ℕ := live.filter fun o => pageOf o = b

/-- Every slot of every slab is live or free, exactly once, and the list of slabs with free slots
is complete but for the slab of the CPU and a slab that is being handed over. -/
structure SlabShape (size cpuSlab detached : ℕ) (g : SlabGhost) (live : List ℕ) : Prop where
  size_ge : 8 ≤ size
  size_le : size + slabHdr ≤ 4096
  nodup : g.slabs.Nodup
  page : ∀ b ∈ g.slabs, 4096 ∣ b ∧ 0 < b ∧ b + 4096 ≤ wordSize
  cpu : cpuSlab ∈ g.slabs ∨ cpuSlab = 0 ∧ g.cpuFree = []
  place : ∀ b ∈ g.slabs, (slabSlots size b).Perm (liveOf live b ++ g.freeOf cpuSlab b)
  live_slab : ∀ o ∈ live, pageOf o ∈ g.slabs
  cpu_slabFree : g.slabFree cpuSlab = []
  partials_nodup : g.partials.Nodup
  mem_partials : ∀ b, b ∈ g.partials ↔
    b ∈ g.slabs ∧ b ≠ cpuSlab ∧ b ≠ detached ∧ g.slabFree b ≠ []

/-- The ghost record is what the cache and the memory represent. -/
structure SlabRep (s : KmemCache) (mem : ByteMem) (g : SlabGhost) (live : List ℕ) : Prop where
  cpuChain : LinkChain mem 0 s.cpuFreelist g.cpuFree
  slabChain : ∀ b ∈ g.slabs, LinkChain mem 0 (readLE mem b 8) (g.slabFree b)
  partialChain : LinkChain mem slabNext s.partialSlab g.partials
  inuse : ∀ b ∈ g.slabs, readLE mem (b + slabInuse) 2 = (liveOf live b).length

/-- The invariant of a cache. -/
structure SlabInv (s : KmemCache) (mem : ByteMem) (g : SlabGhost) (live : List ℕ) : Prop where
  shape : SlabShape s.size s.cpuSlab 0 g live
  rep : SlabRep s mem g live

/-! ## Slots -/

/-- The slots of a slab, by index. -/
theorem mem_slabSlots {size b a : ℕ} :
    a ∈ slabSlots size b ↔ ∃ i < slotsPerSlab size, a = b + slabHdr + i * size := by
  simp only [slabSlots, List.mem_map, List.mem_range, eq_comm]

/-- All slots fit behind the header. -/
theorem slotsPerSlab_mul_le (size : ℕ) : slotsPerSlab size * size ≤ 4096 - slabHdr :=
  Nat.div_mul_le_self _ _

/-- A slab has a slot when its objects fit. -/
theorem slotsPerSlab_pos {size : ℕ} (hpos : 0 < size) (hfit : size + slabHdr ≤ 4096) :
    0 < slotsPerSlab size := by
  simp only [slabHdr] at hfit
  exact Nat.div_pos (by simp only [pageSize, slabHdr]; omega) hpos

/-- A slot lies in its page, behind the header. -/
theorem slot_bounds {size b a : ℕ} (h : a ∈ slabSlots size b) :
    b + slabHdr ≤ a ∧ a + size ≤ b + 4096 := by
  obtain ⟨i, hi, rfl⟩ := mem_slabSlots.mp h
  have hlast : (i + 1) * size ≤ slotsPerSlab size * size := Nat.mul_le_mul_right size hi
  have hall := slotsPerSlab_mul_le size
  rw [Nat.add_mul, one_mul] at hlast
  simp only [slabHdr] at hall ⊢
  omega

/-- The page of a slot is its slab. -/
theorem slot_pageOf {size b a : ℕ} (hpos : 0 < size) (hb : 4096 ∣ b) (h : a ∈ slabSlots size b) :
    pageOf a = b := by
  obtain ⟨h1, h2⟩ := slot_bounds h
  simp only [pageOf]
  omega

/-- Different slots of a slab do not overlap. -/
theorem slot_apart {size b a c : ℕ} (ha : a ∈ slabSlots size b) (hc : c ∈ slabSlots size b)
    (hne : a ≠ c) : a + size ≤ c ∨ c + size ≤ a := by
  obtain ⟨i, -, rfl⟩ := mem_slabSlots.mp ha
  obtain ⟨j, -, rfl⟩ := mem_slabSlots.mp hc
  rcases Nat.lt_trichotomy i j with hij | rfl | hij
  · left
    have hle := Nat.mul_le_mul_right size hij
    rw [Nat.succ_mul] at hle
    omega
  · exact absurd rfl hne
  · right
    have hle := Nat.mul_le_mul_right size hij
    rw [Nat.succ_mul] at hle
    omega

/-- A slab lists each slot once. -/
theorem slabSlots_nodup {size : ℕ} (hpos : 0 < size) (b : ℕ) : (slabSlots size b).Nodup := by
  refine List.Nodup.map (fun i j hij => ?_) List.nodup_range
  exact Nat.eq_of_mul_eq_mul_right hpos (by omega)

/-- Membership among the live objects of a slab. -/
theorem mem_liveOf {live : List ℕ} {b o : ℕ} : o ∈ liveOf live b ↔ o ∈ live ∧ pageOf o = b := by
  simp [liveOf]

/-- A new live object counts for its own slab only. -/
theorem liveOf_cons (live : List ℕ) (o b : ℕ) :
    liveOf (o :: live) b = if pageOf o = b then o :: liveOf live b else liveOf live b := by
  simp [liveOf, List.filter_cons]

/-- The live objects of a slab before one of them dies. -/
theorem liveOf_erase {live : List ℕ} {o : ℕ} (ho : o ∈ live) (b : ℕ) :
    (liveOf live b).Perm (liveOf (o :: live.erase o) b) :=
  (List.perm_cons_erase ho).filter _

namespace SlabShape

variable {size cpuSlab detached : ℕ} {g : SlabGhost} {live : List ℕ}
  (h : SlabShape size cpuSlab detached g live)

include h

/-- A live object is a slot of its page. -/
theorem live_slot {o : ℕ} (ho : o ∈ live) : o ∈ slabSlots size (pageOf o) :=
  (h.place _ (h.live_slab o ho)).mem_iff.mpr
    (List.mem_append_left _ (mem_liveOf.mpr ⟨ho, rfl⟩))

/-- A free object is a slot of its slab. -/
theorem free_slot {b a : ℕ} (hb : b ∈ g.slabs) (ha : a ∈ g.freeOf cpuSlab b) :
    a ∈ slabSlots size b :=
  (h.place b hb).mem_iff.mpr (List.mem_append_right _ ha)

/-- An object on the freelist of a slab is a slot of it. -/
theorem slabFree_slot {b a : ℕ} (hb : b ∈ g.slabs) (ha : a ∈ g.slabFree b) :
    a ∈ slabSlots size b :=
  h.free_slot hb (List.mem_append_left _ ha)

/-- An object on the freelist of the CPU is a slot of the CPU's slab. -/
theorem cpuFree_slot {a : ℕ} (ha : a ∈ g.cpuFree) :
    cpuSlab ∈ g.slabs ∧ a ∈ slabSlots size cpuSlab := by
  rcases h.cpu with hcpu | ⟨-, hcpu⟩
  · exact ⟨hcpu, h.free_slot hcpu (List.mem_append_right _ (by rwa [if_pos rfl]))⟩
  · rw [hcpu] at ha
    cases ha

/-- The places of the slots of a slab are all different. -/
theorem places_nodup {b : ℕ} (hb : b ∈ g.slabs) :
    (liveOf live b ++ g.freeOf cpuSlab b).Nodup :=
  (h.place b hb).nodup_iff.mp (slabSlots_nodup (by have := h.size_ge; omega) b)

/-- No free object is live. -/
theorem not_live_of_free {b a : ℕ} (hb : b ∈ g.slabs) (ha : a ∈ g.freeOf cpuSlab b) :
    a ∉ live := by
  intro hlive
  have hpage := slot_pageOf (by have := h.size_ge; omega) (h.page b hb).1 (h.free_slot hb ha)
  exact List.disjoint_of_nodup_append (h.places_nodup hb) (mem_liveOf.mpr ⟨hlive, hpage⟩) ha

/-- Every object is live once. -/
theorem live_nodup : live.Nodup := by
  rw [List.nodup_iff_count_le_one]
  intro o
  by_cases ho : o ∈ live
  · have hcount : live.count o = (liveOf live (pageOf o)).count o :=
      (List.count_filter (by simp)).symm
    rw [hcount]
    exact List.nodup_iff_count_le_one.mp (h.places_nodup (h.live_slab o ho)).of_append_left o
  · rw [List.count_eq_zero_of_not_mem ho]
    exact Nat.zero_le 1

/-- The number of live objects of a slab is a 16-bit number, with room for one more. -/
theorem liveOf_length_lt {b : ℕ} (hb : b ∈ g.slabs) : (liveOf live b).length + 1 < 2 ^ 16 := by
  have hlen := (h.place b hb).length_eq
  have hall := slotsPerSlab_mul_le size
  have hmul : slotsPerSlab size * 8 ≤ slotsPerSlab size * size := Nat.mul_le_mul_left _ h.size_ge
  simp only [slabSlots, List.length_map, List.length_range, List.length_append, slabHdr] at hlen hall
  omega

end SlabShape

/-! ## The cells that the invariant reads -/

/-- A header field of a slab, or the link in a free slot. -/
inductive SlabCell
  | freelist (b : ℕ)
  | next (b : ℕ)
  | inuse (b : ℕ)
  | link (a : ℕ)
  deriving DecidableEq

/-- The address of a cell. -/
def SlabCell.addr : SlabCell → ℕ
  | .freelist b => b
  | .next b => b + slabNext
  | .inuse b => b + slabInuse
  | .link a => a

/-- The width of a cell in bytes. -/
def SlabCell.width : SlabCell → ℕ
  | .inuse _ => 2
  | _ => 8

/-- A header field of a page, or the link of a slot. -/
def SlabCell.Ok (size : ℕ) : SlabCell → Prop
  | .freelist b | .next b | .inuse b => 4096 ∣ b
  | .link a => a ∈ slabSlots size (pageOf a)

/-- Different cells do not overlap. -/
theorem SlabCell.apart {size : ℕ} (hsize : 8 ≤ size) {c d : SlabCell} (hc : c.Ok size)
    (hd : d.Ok size) (hne : c ≠ d) : c.addr + c.width ≤ d.addr ∨ d.addr + d.width ≤ c.addr := by
  have hslot : ∀ {a : ℕ}, SlabCell.Ok size (.link a) →
      a / 4096 * 4096 + 32 ≤ a ∧ a + size ≤ a / 4096 * 4096 + 4096 := fun h => slot_bounds h
  cases c <;> cases d <;>
    simp only [SlabCell.addr, SlabCell.width, slabNext, slabInuse, ne_eq, SlabCell.freelist.injEq,
      SlabCell.next.injEq, SlabCell.inuse.injEq, SlabCell.link.injEq] at hne ⊢
  case link.link a a' =>
    have ha := hslot hc
    have ha' := hslot hd
    by_cases hpage : pageOf a = pageOf a'
    · have hc' : a ∈ slabSlots size (pageOf a') := hpage ▸ hc
      have := slot_apart hc' hd hne
      omega
    · simp only [pageOf] at hpage
      omega
  case link.freelist a b => have ha := hslot hc; simp only [SlabCell.Ok] at hd; omega
  case link.next a b => have ha := hslot hc; simp only [SlabCell.Ok] at hd; omega
  case link.inuse a b => have ha := hslot hc; simp only [SlabCell.Ok] at hd; omega
  case freelist.link b a => have ha := hslot hd; simp only [SlabCell.Ok] at hc; omega
  case next.link b a => have ha := hslot hd; simp only [SlabCell.Ok] at hc; omega
  case inuse.link b a => have ha := hslot hd; simp only [SlabCell.Ok] at hc; omega
  all_goals simp only [SlabCell.Ok] at hc hd; omega

/-- The value of a cell. -/
def readCell (mem : ByteMem) (c : SlabCell) : ℕ := readLE mem c.addr c.width

/-- Store a value in a cell. -/
def writeCell (mem : ByteMem) (c : SlabCell) (v : ℕ) : ByteMem := writeLE mem c.addr c.width v

/-- A cell holds what fits into it of what was stored. -/
theorem readCell_writeCell {mem : ByteMem} {c : SlabCell} {v : ℕ} :
    readCell (writeCell mem c v) c = v % 256 ^ c.width :=
  readLE_writeLE

/-- A cell holds what was stored in it. -/
theorem readCell_writeCell_self {mem : ByteMem} {c : SlabCell} {v : ℕ} (hv : v < 256 ^ c.width) :
    readCell (writeCell mem c v) c = v :=
  readLE_writeLE_self hv

/-- A store changes no other cell. -/
theorem readCell_writeCell_of_ne {size : ℕ} (hsize : 8 ≤ size) {mem : ByteMem} {c d : SlabCell}
    {v : ℕ} (hc : c.Ok size) (hd : d.Ok size) (hne : d ≠ c) :
    readCell (writeCell mem c v) d = readCell mem d :=
  readLE_writeLE_of_disjoint (SlabCell.apart hsize hd hc hne)

/-- A non-null head of a freelist is its first object, whose link heads the rest. -/
theorem linkChain_getFp {mem : ByteMem} {p : ℕ} {l : List ℕ} (h : LinkChain mem 0 p l)
    (hp : p ≠ 0) : ∃ rest, l = p :: rest ∧ LinkChain mem 0 (getFp mem p) rest := by
  obtain ⟨rest, hl, hrest⟩ := h.of_ne_zero hp
  rw [Nat.add_zero] at hrest
  exact ⟨rest, hl, hrest⟩

/-- A freelist keeps its links when their cells keep their values. -/
theorem linkChain_links {mem mem' : ByteMem} {p : ℕ} {l : List ℕ} (h : LinkChain mem 0 p l)
    (hsame : ∀ a ∈ l, readCell mem' (.link a) = readCell mem (.link a)) : LinkChain mem' 0 p l :=
  h.congr hsame

/-- A list of slabs keeps its links when their cells keep their values. -/
theorem linkChain_nexts {mem mem' : ByteMem} {p : ℕ} {l : List ℕ}
    (h : LinkChain mem slabNext p l)
    (hsame : ∀ b ∈ l, readCell mem' (.next b) = readCell mem (.next b)) :
    LinkChain mem' slabNext p l :=
  h.congr hsame

/-- The order of the live objects does not matter. -/
theorem SlabInv.perm {s : KmemCache} {mem : ByteMem} {g : SlabGhost} {live live' : List ℕ}
    (h : SlabInv s mem g live) (hperm : live.Perm live') : SlabInv s mem g live' := by
  have hlive : ∀ b, (liveOf live b).Perm (liveOf live' b) := fun b => hperm.filter _
  obtain ⟨hshape, hrep⟩ := h
  refine ⟨⟨hshape.size_ge, hshape.size_le, hshape.nodup, hshape.page, hshape.cpu, fun b hb => ?_,
    fun o ho => hshape.live_slab o (hperm.mem_iff.mpr ho), hshape.cpu_slabFree,
    hshape.partials_nodup, hshape.mem_partials⟩,
    ⟨hrep.cpuChain, hrep.slabChain, hrep.partialChain, fun b hb => ?_⟩⟩
  · exact (hshape.place b hb).trans ((hlive b).append_right _)
  · rw [hrep.inuse b hb, (hlive b).length_eq]

/-! ## Steps of the shape -/

namespace SlabShape

variable {size cpuSlab detached : ℕ} {g : SlabGhost} {live : List ℕ}

/-- The CPU's freelist gives its head away. -/
theorem takeCpu {a : ℕ} {rest : List ℕ} (h : SlabShape size cpuSlab detached g live)
    (hcpu : g.cpuFree = a :: rest) :
    SlabShape size cpuSlab detached { g with cpuFree := rest } (a :: live) := by
  obtain ⟨hslab, hslot⟩ := h.cpuFree_slot (a := a) (by rw [hcpu]; exact List.mem_cons_self)
  have hpage := slot_pageOf (by have := h.size_ge; omega) (h.page _ hslab).1 hslot
  refine ⟨h.size_ge, h.size_le, h.nodup, h.page, .inl hslab, ?_, ?_, h.cpu_slabFree,
    h.partials_nodup, h.mem_partials⟩
  · intro b hb
    have hplace := h.place b hb
    simp only [SlabGhost.freeOf, hcpu, liveOf_cons, hpage] at hplace ⊢
    by_cases hbc : b = cpuSlab
    · subst hbc
      simp only [if_true] at hplace ⊢
      rw [List.perm_iff_count] at hplace ⊢
      intro x
      rw [hplace x]
      simp only [List.count_append, List.count_cons]
      omega
    · rw [if_neg (Ne.symm hbc)]
      rwa [if_neg hbc] at hplace ⊢
  · intro o ho
    rcases List.mem_cons.mp ho with rfl | ho
    · rwa [hpage]
    · exact h.live_slab o ho

/-- A live object of the CPU's slab goes back to the CPU's freelist. -/
theorem giveCpu {a : ℕ} (h : SlabShape size cpuSlab detached g live) (ha : a ∈ live)
    (hpage : pageOf a = cpuSlab) :
    SlabShape size cpuSlab detached { g with cpuFree := a :: g.cpuFree } (live.erase a) := by
  have hslab : cpuSlab ∈ g.slabs := hpage ▸ h.live_slab a ha
  refine ⟨h.size_ge, h.size_le, h.nodup, h.page, .inl hslab, ?_, ?_, h.cpu_slabFree,
    h.partials_nodup, h.mem_partials⟩
  · intro b hb
    have hplace := (h.place b hb).trans ((liveOf_erase ha b).append_right _)
    simp only [SlabGhost.freeOf, liveOf_cons, hpage] at hplace ⊢
    by_cases hbc : b = cpuSlab
    · subst hbc
      simp only [if_true] at hplace ⊢
      rw [List.perm_iff_count] at hplace ⊢
      intro x
      rw [hplace x]
      simp only [List.count_append, List.count_cons]
      omega
    · rw [if_neg (Ne.symm hbc)] at hplace
      rwa [if_neg hbc] at hplace ⊢
  · exact fun o ho => h.live_slab o (List.mem_of_mem_erase ho)

/-- A live object of another slab goes back to the freelist of its slab, which joins the list of
slabs with free slots if it had none. -/
theorem giveSlab {a b : ℕ} (h : SlabShape size cpuSlab 0 g live) (ha : a ∈ live)
    (hpage : pageOf a = b) (hb : b ≠ cpuSlab) :
    SlabShape size cpuSlab 0
      { g with
        slabFree := Function.update g.slabFree b (a :: g.slabFree b)
        partials := if g.slabFree b = [] then b :: g.partials else g.partials }
      (live.erase a) := by
  have hslab : b ∈ g.slabs := hpage ▸ h.live_slab a ha
  have hpos := (h.page b hslab).2.1
  refine ⟨h.size_ge, h.size_le, h.nodup, h.page, h.cpu, ?_, ?_, ?_, ?_, ?_⟩
  · intro c hc
    have hplace := (h.place c hc).trans ((liveOf_erase ha c).append_right _)
    simp only [SlabGhost.freeOf, liveOf_cons, hpage] at hplace ⊢
    by_cases hcb : c = b
    · subst hcb
      rw [if_neg hb, if_pos rfl] at hplace
      rw [if_neg hb, Function.update_self]
      rw [List.perm_iff_count] at hplace ⊢
      intro x
      rw [hplace x]
      simp only [List.count_append, List.count_cons]
      omega
    · rw [if_neg (Ne.symm hcb)] at hplace
      rwa [Function.update_of_ne hcb]
  · exact fun o ho => h.live_slab o (List.mem_of_mem_erase ho)
  · dsimp only
    rw [Function.update_of_ne (Ne.symm hb)]
    exact h.cpu_slabFree
  · dsimp only
    split
    next hempty =>
      refine List.nodup_cons.mpr ⟨fun hmem => ?_, h.partials_nodup⟩
      exact ((h.mem_partials b).mp hmem).2.2.2 hempty
    next => exact h.partials_nodup
  · intro c
    have hmem := h.mem_partials c
    by_cases hcb : c = b
    · subst hcb
      simp only [Function.update_self, ne_eq, reduceCtorEq, not_false_eq_true, and_true, hslab, hb,
        true_and]
      split
      next => exact ⟨fun _ => by omega, fun _ => List.mem_cons_self⟩
      next hne => exact ⟨fun _ => by omega, fun _ => hmem.mpr ⟨hslab, hb, by omega, hne⟩⟩
    · simp only [Function.update_of_ne hcb]
      split
      next => rw [List.mem_cons, or_iff_right hcb, hmem]
      next => exact hmem

/-- A slab is taken off the list of slabs with free slots. -/
theorem popPartial {b : ℕ} {rest : List ℕ} (h : SlabShape size cpuSlab 0 g live)
    (hpartials : g.partials = b :: rest) :
    SlabShape size cpuSlab b { g with partials := rest } live := by
  have hnodup := h.partials_nodup
  rw [hpartials, List.nodup_cons] at hnodup
  refine ⟨h.size_ge, h.size_le, h.nodup, h.page, h.cpu, h.place, h.live_slab, h.cpu_slabFree,
    hnodup.2, ?_⟩
  intro c
  have hmem := h.mem_partials c
  rw [hpartials, List.mem_cons] at hmem
  by_cases hcb : c = b
  · subst hcb
    simp [hnodup.1]
  · rw [or_iff_right hcb] at hmem
    dsimp only
    rw [hmem]
    refine and_congr_right fun hc => and_congr_right fun _ => and_congr_left fun _ => ?_
    exact iff_of_true (by have := (h.page c hc).2.1; omega) hcb

/-- A new slab joins the cache with all its slots free. -/
theorem addSlab {b : ℕ} (h : SlabShape size cpuSlab 0 g live) (hb : b ∉ g.slabs)
    (hpage : 4096 ∣ b ∧ 0 < b ∧ b + 4096 ≤ wordSize) (hcpu : b ≠ cpuSlab) :
    SlabShape size cpuSlab b
      { g with slabs := b :: g.slabs, slabFree := Function.update g.slabFree b (slabSlots size b) }
      live := by
  refine ⟨h.size_ge, h.size_le, List.nodup_cons.mpr ⟨hb, h.nodup⟩, ?_, ?_, ?_, ?_, ?_,
    h.partials_nodup, ?_⟩
  · intro c hc
    rcases List.mem_cons.mp hc with rfl | hc
    · exact hpage
    · exact h.page c hc
  · exact h.cpu.imp_left (List.mem_cons_of_mem _)
  · intro c hc
    simp only [SlabGhost.freeOf]
    rcases List.mem_cons.mp hc with rfl | hc
    · have hnone : liveOf live c = [] := by
        refine List.eq_nil_iff_forall_not_mem.mpr fun o ho => hb ?_
        obtain ⟨hlive, hpage⟩ := mem_liveOf.mp ho
        exact hpage ▸ h.live_slab o hlive
      rw [hnone, Function.update_self, if_neg hcpu, List.nil_append, List.append_nil]
    · rw [Function.update_of_ne (ne_of_mem_of_not_mem hc hb)]
      exact h.place c hc
  · exact fun o ho => List.mem_cons_of_mem _ (h.live_slab o ho)
  · dsimp only
    rw [Function.update_of_ne (Ne.symm hcpu)]
    exact h.cpu_slabFree
  · intro c
    have hmem := h.mem_partials c
    dsimp only
    by_cases hcb : c = b
    · subst hcb
      simp only [ne_eq, not_true, false_and, and_false, iff_false]
      exact fun hc => hb (hmem.mp hc).1
    · rw [hmem, Function.update_of_ne hcb, List.mem_cons, or_iff_right hcb]
      refine and_congr_right fun hc => and_congr_right fun _ => and_congr_left fun _ => ?_
      exact iff_of_true (by have := (h.page c hc).2.1; omega) hcb

/-- The detached slab becomes the CPU's slab; the head of its freelist is given away and the rest
becomes the CPU's freelist. -/
theorem adopt {b a : ℕ} {rest : List ℕ} (h : SlabShape size cpuSlab b g live) (hb : b ∈ g.slabs)
    (hcpu : b ≠ cpuSlab) (hempty : g.cpuFree = []) (hfree : g.slabFree b = a :: rest) :
    SlabShape size b 0 { g with slabFree := Function.update g.slabFree b [], cpuFree := rest }
      (a :: live) := by
  have hslot : a ∈ slabSlots size b := h.slabFree_slot hb (by rw [hfree]; exact List.mem_cons_self)
  have hpage := slot_pageOf (by have := h.size_ge; omega) (h.page b hb).1 hslot
  refine ⟨h.size_ge, h.size_le, h.nodup, h.page, .inl hb, ?_, ?_, Function.update_self _ _ _,
    h.partials_nodup, ?_⟩
  · intro c hc
    have hplace := h.place c hc
    simp only [SlabGhost.freeOf, hempty, ite_self, List.append_nil, liveOf_cons, hpage] at hplace ⊢
    by_cases hcb : c = b
    · subst hcb
      rw [hfree] at hplace
      simp only [if_true, Function.update_self, List.nil_append]
      rw [List.perm_iff_count] at hplace ⊢
      intro x
      rw [hplace x]
      simp only [List.count_append, List.count_cons]
      omega
    · rw [if_neg (Ne.symm hcb), if_neg hcb, List.append_nil, Function.update_of_ne hcb]
      exact hplace
  · intro o ho
    rcases List.mem_cons.mp ho with rfl | ho
    · rwa [hpage]
    · exact h.live_slab o ho
  · intro c
    have hmem := h.mem_partials c
    dsimp only
    by_cases hcb : c = b
    · subst hcb
      simp [hmem]
    · rw [hmem, Function.update_of_ne hcb]
      constructor
      · rintro ⟨hc, -, -, hne⟩
        have := (h.page c hc).2.1
        exact ⟨hc, hcb, by omega, hne⟩
      · rintro ⟨hc, -, -, hne⟩
        refine ⟨hc, ?_, hcb, hne⟩
        rintro rfl
        exact hne h.cpu_slabFree

end SlabShape

end Flos.Mm
