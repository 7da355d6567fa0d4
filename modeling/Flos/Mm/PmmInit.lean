import Flos.Mm.Pmm

/-!
# Boot-time initialisation of the frame bitmap

Three passes over the boot memory map: the highest USABLE address fixes the number of
managed frames, the first USABLE entry that is large enough receives the bitmap, and the
pages of every USABLE entry outside the bitmap are freed one by one. The final theorem
describes the set of free frames that results, for every map a boot loader may hand over.
-/

namespace Flos.Mm

/-- The first pass: the highest end address of a USABLE entry. -/
def highestAddr : List MemoryMapEntry → ℕ → ℕ
  | [], highest => highest
  | e :: rest, highest =>
    if e.type ≠ .usable then highestAddr rest highest
    else
      let top := (e.base + e.length) % wordSize
      highestAddr rest (if top > highest then top else highest)

/-- `ULONG_MAX`, the mark for "no home found". -/
abbrev ulongMax : ℕ := 2 ^ 64 - 1

/-- The second pass: the base of the first USABLE entry of at least `size` bytes. -/
def bitmapHome (size : ℕ) : List MemoryMapEntry → ℕ
  | [] => ulongMax
  | e :: rest => if e.type = .usable ∧ e.length ≥ size then e.base else bitmapHome size rest

/-- The page loop over one entry, with at most `n` iterations left. -/
def freeEntryPages (bitmapPhys stop : ℕ) : (n addr : ℕ) → Pmm → Pmm
  | 0, _, s => s
  | n + 1, addr, s =>
    if addr < stop then
      let s :=
        if addr ≥ bitmapPhys ∧ addr < (bitmapPhys + s.bitmap.size) % wordSize then s
        else pmmFreePage s addr
      freeEntryPages bitmapPhys stop n (addr + pageSize) s
    else s

/-- The third pass: free the pages of every USABLE entry that do not hold the bitmap. -/
def freeUsableEntries (bitmapPhys : ℕ) : List MemoryMapEntry → Pmm → Pmm
  | [], s => s
  | e :: rest, s =>
    if e.type ≠ .usable then freeUsableEntries bitmapPhys rest s
    else
      let start := alignUp e.base pageSize
      let stop := alignDown ((e.base + e.length) % wordSize) pageSize
      freeUsableEntries bitmapPhys rest
        (freeEntryPages bitmapPhys stop ((stop - start) / pageSize) start s)

/-- The size of the bitmap for a number of frames, rounded up to whole pages. -/
def bitmapBytes (totalPages : ℕ) : ℕ := alignUp ((totalPages + 7) / 8) pageSize

/-- `memset(map, 0xFF, size)` on the bytes behind the bitmap pointer. -/
def fillOnes (size : ℕ) (mem : ℤ → BitVec 8) : ℤ → BitVec 8 :=
  fun i => if 0 ≤ i ∧ i < size then 0xFF#8 else mem i

/-- `init_bitmap_pmm`. The kernel halts (`none`) when no USABLE entry can hold the bitmap;
`mem` is what the memory chosen for the bitmap contains beforehand. -/
def initBitmapPmm (map : MemoryMap) (mem : ℤ → BitVec 8) : Option Pmm :=
  let highest := highestAddr map.entries 0
  let totalPages := bytesToPages highest
  let size := bitmapBytes totalPages
  let bitmapPhys := bitmapHome size map.entries
  if bitmapPhys = ulongMax then none
  else
    let s := freeUsableEntries bitmapPhys map.entries
      { maxAddressable := highest
        bitmap := { size := size, base := bitmapPhys, map := fillOnes size mem }
        totalPages := totalPages
        cachedIndex := 0 }
    some { s with bitmap := bitmapSetBit s.bitmap 0 }

/-- What the boot loader guarantees of a memory map, and what the manager needs of it.

USABLE entries are page-aligned and share no byte with another entry; the end of each lies
below `2 ^ 31` pages; and one of them has room for the bitmap. -/
structure MemoryMap.Bootable (m : MemoryMap) : Prop where
  aligned : ∀ e ∈ m.entries, e.type = .usable → 4096 ∣ e.base ∧ 4096 ∣ e.length
  apart : m.entries.Pairwise fun a b => a.type = .usable ∨ b.type = .usable →
    ∀ x, ¬ ((a.base ≤ x ∧ x < a.base + a.length) ∧ (b.base ≤ x ∧ x < b.base + b.length))
  small : ∀ e ∈ m.entries, e.type = .usable → (e.base + e.length) / 4096 < 2 ^ 31
  room : ∃ e ∈ m.entries, e.type = .usable ∧
    bitmapBytes (bytesToPages (highestAddr m.entries 0)) ≤ e.length

/-- Frame `p` holds a part of the bitmap. -/
def Pmm.BitmapFrame (s : Pmm) (p : ℕ) : Prop :=
  s.bitmap.base < (p + 1) * 4096 ∧ p * 4096 < s.bitmap.base + s.bitmap.size

/-- Every USABLE end address is at most the computed maximum. -/
theorem le_highestAddr {entries : List MemoryMapEntry} {highest : ℕ} :
    highest ≤ highestAddr entries highest ∧
      ∀ e ∈ entries, e.type = .usable →
        (e.base + e.length) % wordSize ≤ highestAddr entries highest := by
  induction entries generalizing highest with
  | nil => exact ⟨Nat.le_refl _, by simp⟩
  | cons a rest ih =>
    unfold highestAddr
    split
    · next hskip =>
      refine ⟨ih.1, fun e he husable => ?_⟩
      rcases List.mem_cons.mp he with rfl | he
      · exact absurd husable hskip
      · exact ih.2 e he husable
    · dsimp only
      generalize hmax : (if (a.base + a.length) % wordSize > highest then
        (a.base + a.length) % wordSize else highest) = next
      have hnext : highest ≤ next ∧ (a.base + a.length) % wordSize ≤ next := by
        rw [← hmax]
        split <;> omega
      have hrest := @ih next
      refine ⟨hnext.1.trans hrest.1, fun e he husable => ?_⟩
      rcases List.mem_cons.mp he with rfl | he
      · exact hnext.2.trans hrest.1
      · exact hrest.2 e he husable

/-- The computed maximum is below every bound on the start value and the end addresses. -/
theorem highestAddr_lt {entries : List MemoryMapEntry} {highest bound : ℕ} (h : highest < bound)
    (hall : ∀ e ∈ entries, e.type = .usable → (e.base + e.length) % wordSize < bound) :
    highestAddr entries highest < bound := by
  induction entries generalizing highest with
  | nil => exact h
  | cons a rest ih =>
    have hrest := fun e he => hall e (List.mem_cons_of_mem _ he)
    unfold highestAddr
    split
    · exact ih h hrest
    · next husable =>
      refine ih ?_ hrest
      have := hall a List.mem_cons_self (not_not.mp husable)
      split <;> omega

/-- The home that was found is the base of a USABLE entry with enough room. -/
theorem bitmapHome_mem {size : ℕ} {entries : List MemoryMapEntry}
    (h : bitmapHome size entries ≠ ulongMax) :
    ∃ e ∈ entries, e.type = .usable ∧ size ≤ e.length ∧ bitmapHome size entries = e.base := by
  induction entries with
  | nil => exact absurd rfl h
  | cons a rest ih =>
    unfold bitmapHome at h ⊢
    split
    · next hfit => exact ⟨a, List.mem_cons_self, hfit.1, hfit.2, rfl⟩
    · next hskip =>
      rw [if_neg hskip] at h
      obtain ⟨e, he, hrest⟩ := ih h
      exact ⟨e, List.mem_cons_of_mem _ he, hrest⟩

/-- A home is found when an aligned USABLE entry has room. -/
theorem bitmapHome_ne {size : ℕ} {entries : List MemoryMapEntry}
    (haligned : ∀ e ∈ entries, e.type = .usable → 4096 ∣ e.base)
    (hroom : ∃ e ∈ entries, e.type = .usable ∧ size ≤ e.length) :
    bitmapHome size entries ≠ ulongMax := by
  induction entries with
  | nil => obtain ⟨e, he, _⟩ := hroom; simp at he
  | cons a rest ih =>
    unfold bitmapHome
    split
    · next hfit =>
      have := haligned a List.mem_cons_self hfit.1
      simp only [ulongMax]
      omega
    · next hskip =>
      refine ih (fun e he => haligned e (List.mem_cons_of_mem _ he)) ?_
      obtain ⟨e, he, husable, hsize⟩ := hroom
      rcases List.mem_cons.mp he with rfl | he
      · exact absurd ⟨husable, hsize⟩ hskip
      · exact ⟨e, he, husable, hsize⟩

/-- The page loop moves nothing but bits, and a cursor at zero stays there. -/
theorem freeEntryPages_layout (bitmapPhys stop n addr : ℕ) (s : Pmm) :
    SameLayout s (freeEntryPages bitmapPhys stop n addr s) ∧
      (freeEntryPages bitmapPhys stop n addr s).cachedIndex ≤ s.cachedIndex := by
  induction n generalizing addr s with
  | zero => exact ⟨SameLayout.refl s, Nat.le_refl _⟩
  | succ n ih =>
    unfold freeEntryPages
    split
    · dsimp only
      split
      · exact ih _ _
      · have hfree := pmmFreePage_layout s addr
        have hrest := ih (addr + pageSize) (pmmFreePage s addr)
        exact ⟨hfree.1.trans hrest.1, hrest.2.trans hfree.2⟩
    · exact ⟨SameLayout.refl s, Nat.le_refl _⟩

/-- The third pass moves nothing but bits, and a cursor at zero stays there. -/
theorem freeUsableEntries_layout (bitmapPhys : ℕ) (entries : List MemoryMapEntry) (s : Pmm) :
    SameLayout s (freeUsableEntries bitmapPhys entries s) ∧
      (freeUsableEntries bitmapPhys entries s).cachedIndex ≤ s.cachedIndex := by
  induction entries generalizing s with
  | nil => exact ⟨SameLayout.refl s, Nat.le_refl _⟩
  | cons e rest ih =>
    unfold freeUsableEntries
    split
    · exact ih s
    · have hentry := freeEntryPages_layout bitmapPhys
        (alignDown ((e.base + e.length) % wordSize) pageSize)
        ((alignDown ((e.base + e.length) % wordSize) pageSize - alignUp e.base pageSize) / pageSize)
        (alignUp e.base pageSize) s
      have hrest := ih (freeEntryPages bitmapPhys
        (alignDown ((e.base + e.length) % wordSize) pageSize)
        ((alignDown ((e.base + e.length) % wordSize) pageSize - alignUp e.base pageSize) / pageSize)
        (alignUp e.base pageSize) s)
      exact ⟨hentry.1.trans hrest.1, hrest.2.trans hentry.2⟩

/-- The page loop frees the managed pages from `k` up to `k + n`, the bitmap's own excepted. -/
theorem freeEntryPages_freeSet {bitmapPhys size n k : ℕ} {s : Pmm} (hsmall : s.totalPages < 2 ^ 31)
    (hsize : s.bitmap.size = size) (hnowrap : bitmapPhys + size < wordSize) :
    (freeEntryPages bitmapPhys ((k + n) * 4096) n (k * 4096) s).freeSet =
      s.freeSet ∪ {p | p < s.totalPages ∧ k ≤ p ∧ p < k + n ∧
        ¬ (bitmapPhys ≤ p * 4096 ∧ p * 4096 < bitmapPhys + size)} := by
  induction n generalizing k s with
  | zero =>
    ext p
    simp only [freeEntryPages, Pmm.mem_freeSet, Set.mem_union, Set.mem_ofPred_eq]
    constructor
    · exact Or.inl
    · rintro (h | ⟨_, _, _, _⟩)
      · exact h
      · omega
  | succ n ih =>
    have hnext : k * 4096 + pageSize = (k + 1) * 4096 := by simp only [pageSize]; omega
    have hstop : (k + (n + 1)) * 4096 = (k + 1 + n) * 4096 := by omega
    unfold freeEntryPages
    rw [if_pos (by omega), hsize, Nat.mod_eq_of_lt hnowrap, hnext, hstop]
    dsimp only
    split
    · next hkeep =>
      rw [ih hsmall hsize]
      ext p
      simp only [Set.mem_union, Pmm.mem_freeSet, Set.mem_ofPred_eq]
      refine or_congr_right ?_
      constructor
      · rintro ⟨hp, hlow, hhigh, hout⟩
        exact ⟨hp, by omega, by omega, hout⟩
      · rintro ⟨hp, hlow, hhigh, hout⟩
        refine ⟨hp, ?_, by omega, hout⟩
        by_contra hlt
        obtain rfl : p = k := by omega
        exact hout hkeep
    · next hfree =>
      have hlayout := (pmmFreePage_layout s (k * 4096)).1
      rw [ih (by rw [hlayout.totalPages]; exact hsmall) (by rw [hlayout.size]; exact hsize),
        pmmFreePage_freeSet hsmall, hlayout.totalPages]
      ext p
      simp only [Set.mem_union, Pmm.mem_freeSet, Set.mem_ofPred_eq, or_assoc]
      refine or_congr_right ?_
      rw [Nat.mul_div_cancel _ (by decide)]
      constructor
      · rintro (⟨rfl, hp⟩ | ⟨hp, hlow, hhigh, hout⟩)
        · exact ⟨hp, by omega, by omega, hfree⟩
        · exact ⟨hp, by omega, by omega, hout⟩
      · rintro ⟨hp, hlow, hhigh, hout⟩
        by_cases hpk : p = k
        · exact Or.inl ⟨hpk, hp⟩
        · exact Or.inr ⟨hp, by omega, by omega, hout⟩

/-- The third pass frees the managed pages of the USABLE entries, the bitmap's own excepted. -/
theorem freeUsableEntries_freeSet {bitmapPhys size : ℕ} {entries : List MemoryMapEntry} {s : Pmm}
    (hsmall : s.totalPages < 2 ^ 31) (hsize : s.bitmap.size = size)
    (hnowrap : bitmapPhys + size < wordSize)
    (haligned : ∀ e ∈ entries, e.type = .usable → 4096 ∣ e.base ∧ 4096 ∣ e.length)
    (hword : ∀ e ∈ entries, e.type = .usable → e.base + e.length < wordSize) :
    (freeUsableEntries bitmapPhys entries s).freeSet =
      s.freeSet ∪ {p | p < s.totalPages ∧
        (∃ e ∈ entries, e.type = .usable ∧ e.base ≤ p * 4096 ∧
          (p + 1) * 4096 ≤ e.base + e.length) ∧
        ¬ (bitmapPhys ≤ p * 4096 ∧ p * 4096 < bitmapPhys + size)} := by
  induction entries generalizing s with
  | nil => simp [freeUsableEntries]
  | cons e rest ih =>
    have haligned' := fun a ha => haligned a (List.mem_cons_of_mem _ ha)
    have hword' := fun a ha => hword a (List.mem_cons_of_mem _ ha)
    unfold freeUsableEntries
    split
    · next hskip =>
      rw [ih hsmall hsize haligned' hword']
      simp [hskip]
    · next husable =>
      have husable := not_not.mp husable
      obtain ⟨⟨k, hk⟩, ⟨n, hn⟩⟩ := haligned e List.mem_cons_self husable
      have hlt := hword e List.mem_cons_self husable
      have hstart : alignUp e.base pageSize = k * 4096 := by
        rw [alignUp_page_of_dvd (by omega) ⟨k, hk⟩, hk, Nat.mul_comm]
      have hstop : alignDown ((e.base + e.length) % wordSize) pageSize = (k + n) * 4096 := by
        rw [Nat.mod_eq_of_lt hlt, alignDown_page hlt]
        omega
      have hcount : ((k + n) * 4096 - k * 4096) / pageSize = n := by simp only [pageSize]; omega
      dsimp only
      have hlayout := (freeEntryPages_layout bitmapPhys ((k + n) * 4096) n (k * 4096) s).1
      rw [hstart, hstop, hcount,
        ih (by rw [hlayout.totalPages]; exact hsmall) (by rw [hlayout.size]; exact hsize)
          haligned' hword',
        freeEntryPages_freeSet hsmall hsize hnowrap, hlayout.totalPages, Set.union_assoc]
      congr 1
      ext p
      simp only [Set.mem_union, Set.mem_ofPred_eq, List.mem_cons, exists_eq_or_imp, husable,
        true_and]
      constructor
      · rintro (⟨hp, hlow, hhigh, hout⟩ | ⟨hp, hex, hout⟩)
        · exact ⟨hp, Or.inl ⟨by omega, by omega⟩, hout⟩
        · exact ⟨hp, Or.inr hex, hout⟩
      · rintro ⟨hp, ⟨hlow, hhigh⟩ | hex, hout⟩
        · exact Or.inl ⟨hp, by omega, by omega, hout⟩
        · exact Or.inr ⟨hp, hex, hout⟩

/-- The number of bytes reserved for the bitmap covers every managed frame. -/
theorem le_bitmapBytes {total : ℕ} (hsmall : total < 2 ^ 31) :
    total ≤ 8 * bitmapBytes total ∧ bitmapBytes total < 2 ^ 30 := by
  rw [bitmapBytes, alignUp_page_of_lt (by simp only [wordSize]; omega)]
  omega

/-- After the fill, every managed frame is marked used. -/
theorem fillOnes_used {size total : ℕ} (htotal : total ≤ 8 * size) (hsmall : total < 2 ^ 31)
    (base : ℕ) (mem : ℤ → BitVec 8) {p : ℕ} (hp : p < total) :
    bitmapCheckBit ⟨size, base, fillOnes size mem⟩ (toInt p) = true := by
  rw [bitmapCheckBit_toInt _ (by omega)]
  have hbyte : (0 : ℤ) ≤ ((p / 8 : ℕ) : ℤ) ∧ ((p / 8 : ℕ) : ℤ) < size :=
    ⟨Int.natCast_nonneg _, by omega⟩
  have hall : ∀ k < 8, (0xFF#8).getLsbD k = true := by decide
  simp only [fillOnes, if_pos hbyte]
  exact hall _ (Nat.mod_lt _ (by decide))

section Bootable

variable {m : MemoryMap} (hm : m.Bootable)

include hm

/-- The end of a USABLE entry is a 64-bit address. -/
theorem MemoryMap.Bootable.lt_wordSize {e : MemoryMapEntry} (he : e ∈ m.entries)
    (husable : e.type = .usable) : e.base + e.length < wordSize := by
  have := hm.small e he husable
  simp only [wordSize]
  omega

/-- A bootable map has fewer than `2 ^ 31` frames. -/
theorem MemoryMap.Bootable.totalPages_lt :
    bytesToPages (highestAddr m.entries 0) < 2 ^ 31 := by
  have hlt : highestAddr m.entries 0 < 2 ^ 31 * 4096 := by
    refine highestAddr_lt (by decide) fun e he husable => ?_
    rw [Nat.mod_eq_of_lt (hm.lt_wordSize he husable)]
    have := hm.small e he husable
    omega
  simp only [bytesToPages, pageSize]
  omega

/-- A frame of a USABLE entry is managed. -/
theorem MemoryMap.Bootable.usable_lt {p : ℕ} (hp : m.UsableFrame p) :
    p < bytesToPages (highestAddr m.entries 0) := by
  obtain ⟨e, he, husable, _, hhigh⟩ := hp
  have htop := (@le_highestAddr m.entries 0).2 e he husable
  rw [Nat.mod_eq_of_lt (hm.lt_wordSize he husable)] at htop
  simp only [bytesToPages, pageSize]
  omega

/-- The home of the bitmap lies inside one USABLE entry. -/
theorem MemoryMap.Bootable.home :
    ∃ e ∈ m.entries, e.type = .usable ∧
      bitmapBytes (bytesToPages (highestAddr m.entries 0)) ≤ e.length ∧
      bitmapHome (bitmapBytes (bytesToPages (highestAddr m.entries 0))) m.entries = e.base :=
  bitmapHome_mem (bitmapHome_ne (fun e he husable => (hm.aligned e he husable).1) hm.room)

/-- A bootable map initialises the frame manager. -/
theorem initBitmapPmm_isSome (mem : ℤ → BitVec 8) : ∃ s, initBitmapPmm m mem = some s := by
  have hhome := bitmapHome_ne (fun e he husable => (hm.aligned e he husable).1) hm.room
  simp only [initBitmapPmm, if_neg hhome]
  exact ⟨_, rfl⟩

/-- The state left by the initialisation.

Exactly the frames that lie wholly in a USABLE entry are free, except frame 0 and the frames
that hold the bitmap. -/
theorem initBitmapPmm_spec {mem : ℤ → BitVec 8} {s : Pmm} (h : initBitmapPmm m mem = some s) :
    s.totalPages = bytesToPages (highestAddr m.entries 0) ∧ s.cachedIndex = 0 ∧
      s.bitmap.size = bitmapBytes s.totalPages ∧
      s.bitmap.base = bitmapHome (bitmapBytes s.totalPages) m.entries ∧
      s.freeSet = {p | p ≠ 0 ∧ m.UsableFrame p ∧ ¬ s.BitmapFrame p} := by
  have htotal := hm.totalPages_lt
  obtain ⟨e, he, husable, hroom, hhome⟩ := hm.home
  have hbytes := le_bitmapBytes htotal
  have hmanaged := fun p => hm.usable_lt (p := p)
  simp only [initBitmapPmm] at h
  generalize bytesToPages (highestAddr m.entries 0) = total at *
  split at h
  · contradiction
  · have hword := hm.lt_wordSize he husable
    -- The fill leaves every managed frame used, so the third pass starts from no free frame.
    set start : Pmm :=
      { maxAddressable := highestAddr m.entries 0
        bitmap := { size := bitmapBytes total, base := bitmapHome (bitmapBytes total) m.entries,
                    map := fillOnes (bitmapBytes total) mem }
        totalPages := total
        cachedIndex := 0 } with hstart
    have hempty : start.freeSet = ∅ := by
      refine Set.eq_empty_of_forall_notMem fun p ⟨hp, hclear⟩ => ?_
      have hused := fillOnes_used hbytes.1 htotal (bitmapHome (bitmapBytes total) m.entries) mem hp
      simp [Pmm.isClear, hstart, hused] at hclear
    have hlayout := freeUsableEntries_layout (bitmapHome (bitmapBytes total) m.entries) m.entries start
    have hnowrap : bitmapHome (bitmapBytes total) m.entries + bitmapBytes total < wordSize := by
      rw [hhome]
      exact (Nat.add_le_add_left hroom _).trans_lt hword
    have hfree := freeUsableEntries_freeSet (s := start) htotal rfl hnowrap hm.aligned
      fun e he => hm.lt_wordSize he
    set filled := freeUsableEntries (bitmapHome (bitmapBytes total) m.entries) m.entries start
    obtain rfl := Option.some.inj h
    refine ⟨hlayout.1.totalPages, Nat.le_zero.mp hlayout.2, ?_, ?_, ?_⟩
    · rw [hlayout.1.totalPages]
      exact hlayout.1.size
    · rw [hlayout.1.totalPages]
      exact hlayout.1.base
    · change (filled.takeFrame 0).freeSet = _
      rw [takeFrame_freeSet (by rw [hlayout.1.totalPages]; exact htotal) (by decide), hfree, hempty]
      ext p
      simp only [Set.empty_union, Set.mem_sdiff, Set.mem_ofPred_eq, Set.mem_singleton_iff]
      obtain ⟨k, hk⟩ := (hm.aligned e he husable).1
      have hbase : filled.bitmap.base = e.base := hlayout.1.base.trans hhome
      have hsize : filled.bitmap.size = bitmapBytes total := hlayout.1.size
      have hregion : (e.base < (p + 1) * 4096 ∧ p * 4096 < e.base + bitmapBytes total) ↔
          e.base ≤ p * 4096 ∧ p * 4096 < e.base + bitmapBytes total := by omega
      simp only [Pmm.BitmapFrame, bitmapSetBit_base, bitmapSetBit_size, hbase, hsize, hhome, hregion]
      constructor
      · rintro ⟨⟨_, husable, hout⟩, hp⟩
        exact ⟨hp, husable, hout⟩
      · rintro ⟨hp, husable, hout⟩
        exact ⟨⟨hmanaged p husable, husable, hout⟩, hp⟩

end Bootable

end Flos.Mm
