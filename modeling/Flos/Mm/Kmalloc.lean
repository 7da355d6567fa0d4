import Flos.Lib.Bisect
import Flos.Mm.SlabRuns

/-!
# The kernel heap

`kmalloc` puts a header before each block. Small blocks come from one of the caches of fixed
sizes, large ones are runs of frames in the direct map; the header says which, so that `kfree`
can give the block back.
-/

namespace Flos.Mm

open Flos.Lib

/-- The caches and the memory of the heap. -/
structure Kmalloc (P : Type*) where
  caches : ℕ → KmemCache
  heap : Heap P

/-- `kmalloc_sizes`. -/
def kmallocSizes : List ℕ :=
  [8, 16, 24, 32, 40, 48, 56, 64, 80, 96, 112, 128, 160, 192, 224, 256, 320, 384, 448, 512, 640,
    768, 896, 1024, 2048, 3072]

/-- `sizeof(alloc_header_t)`. -/
abbrev allocHeaderSize : ℕ := 16

/-- The offset of the union of `size` and `slab_idx` behind `type`; the union is packed. -/
abbrev allocHeaderData : ℕ := 4

/-- `SLAB_BACKED`. -/
abbrev slabBacked : ℕ := 0

/-- `PAGE_BACKED`. -/
abbrev pageBacked : ℕ := 1

/-- `init_kmalloc`; `pool` gives the addresses of the caches. -/
def initKmalloc (pool : ℕ → ℕ) (i : ℕ) : KmemCache :=
  kmemCacheCreate (pool i) (kmallocSizes.getD i 0)

/-- `kmalloc_index`: the first size class that is large enough, or `-1`. -/
def kmallocIndex (size : ℕ) : ℤ :=
  bisect (fun mid => decide (size ≤ kmallocSizes.getD mid.toNat 0)) 26 0 25 (-1)

/-- The size of a block with its header. -/
def kmallocTotal (size : ℕ) : ℕ := alignUp ((size + allocHeaderSize) % wordSize) 16

/-- The number of pages of a large block, an `int`. -/
def kmallocPages (total : ℕ) : ℤ :=
  (BitVec.ofNat 32 ((total + pageSize - 1) % wordSize / pageSize)).toInt

section Operations

variable {P : Type*} (F : PageSource P) (hhdm : ℕ)

/-- `kmalloc`: the block, or `0`; `none` is a failed assertion of the slab code. -/
def kmalloc (size : ℕ) (k : Kmalloc P) : Option (ℕ × Kmalloc P) :=
  if size = 0 then some (0, k)
  else
    let total := kmallocTotal size
    let idx := kmallocIndex total
    if 0 ≤ idx then
      match kmemCacheAlloc F hhdm (k.caches idx.toNat) k.heap with
      | none => none
      | some (hdr, cache, heap) =>
        let caches := Function.update k.caches idx.toNat cache
        if hdr = 0 then some (0, ⟨caches, heap⟩)
        else
          let mem := writeLE heap.mem hdr 4 slabBacked
          let mem := writeLE mem (hdr + allocHeaderData) 8 idx.toNat
          some ((hdr + allocHeaderSize) % wordSize, ⟨caches, ⟨mem, heap.pages⟩⟩)
    else
      let pages := (kmallocPages total % wordSize).toNat
      let r := F.allocPages k.heap.pages pages
      if r.1 = 0 then some (0, ⟨k.caches, ⟨k.heap.mem, r.2⟩⟩)
      else
        let hdr := (hhdm + r.1) % wordSize
        if hdr = 0 then some (0, ⟨k.caches, ⟨k.heap.mem, r.2⟩⟩)
        else
          let mem := writeLE k.heap.mem hdr 4 pageBacked
          let mem := writeLE mem (hdr + allocHeaderData) 8 pages
          some ((hdr + allocHeaderSize) % wordSize, ⟨k.caches, ⟨mem, r.2⟩⟩)

/-- `kfree`. -/
def kfree (ptr : ℕ) (k : Kmalloc P) : Kmalloc P :=
  if ptr = 0 then k
  else
    let hdr := (ptr + (wordSize - allocHeaderSize)) % wordSize
    let type := readLE k.heap.mem hdr 4
    let data := readLE k.heap.mem (hdr + allocHeaderData) 8
    if type = slabBacked then
      let r := kmemCacheFree (k.caches data) hdr k.heap
      ⟨Function.update k.caches data r.1, r.2⟩
    else if type = pageBacked then
      let phys := (hdr + (wordSize - hhdm)) % wordSize
      ⟨k.caches, ⟨k.heap.mem, F.freePages k.heap.pages phys data⟩⟩
    else k

end Operations

/-! ## Size classes -/

/-- Where a block of a size comes from: a cache, or a run of frames. -/
inductive Backing
  | slab (idx : ℕ)
  | pages (n : ℕ)
  deriving DecidableEq, Repr

/-- The part of `kmalloc` that decides where a block comes from. -/
def kmallocBacking (size : ℕ) : Backing :=
  if 0 ≤ kmallocIndex (kmallocTotal size) then .slab (kmallocIndex (kmallocTotal size)).toNat
  else .pages (kmallocPages (kmallocTotal size) % wordSize).toNat

/-- The sizes of blocks that fit the 32-bit page count. -/
def KmallocSize (size : ℕ) : Prop := 0 < size ∧ size < 2 ^ 42

/-- The size of a block with its header is the next multiple of 16. -/
theorem kmallocTotal_eq {size : ℕ} (h : KmallocSize size) :
    kmallocTotal size = (size + 31) / 16 * 16 := by
  obtain ⟨hpos, hlt⟩ := h
  rw [kmallocTotal, show (16 : ℕ) = 2 ^ 4 from rfl, alignUp_two_pow _ 4 (by decide)]
  simp only [wordSize, allocHeaderSize]
  omega

/-- The size classes grow. -/
theorem kmallocSizes_mono {i j : ℕ} (hij : i ≤ j) (hj : j < 26) :
    kmallocSizes.getD i 0 ≤ kmallocSizes.getD j 0 := by
  have hall : ∀ j < 26, ∀ i < j + 1, kmallocSizes.getD i 0 ≤ kmallocSizes.getD j 0 := by decide
  exact hall j hj i (by omega)

/-- `kmalloc_index` finds the smallest class that is large enough. -/
theorem kmallocIndex_cases (total : ℕ) :
    (kmallocIndex total = -1 ∧ ∀ i < 26, kmallocSizes.getD i 0 < total) ∨
      ∃ idx < 26, kmallocIndex total = (idx : ℕ) ∧ total ≤ kmallocSizes.getD idx 0 ∧
        ∀ i < idx, kmallocSizes.getD i 0 < total := by
  have hmono : ∀ i j : ℤ, 0 ≤ i → i ≤ j → j ≤ 25 →
      decide (total ≤ kmallocSizes.getD i.toNat 0) = true →
      decide (total ≤ kmallocSizes.getD j.toNat 0) = true := by
    intro i j h1 h2 h3 hi
    have hle := kmallocSizes_mono (i := i.toNat) (j := j.toNat) (by omega) (by omega)
    simp only [decide_eq_true_eq] at hi ⊢
    omega
  rcases bisect_spec (-1) (show (25 : ℤ) < 0 + (26 : ℕ) by decide) hmono with ⟨heq, hnone⟩ | ⟨h1, h2, h3, h4⟩
  · refine .inl ⟨heq, fun i hi => ?_⟩
    simpa using hnone i (by omega) (by omega)
  · refine .inr ⟨(kmallocIndex total).toNat, ?_, ?_, of_decide_eq_true h3, fun i hi => ?_⟩
    · simp only [kmallocIndex]
      omega
    · simp only [kmallocIndex]
      omega
    · simp only [kmallocIndex] at hi
      simpa using h4 i (by omega) (by omega)

/-- A class that is the first to fit a multiple of 16 from 32 on keeps slots aligned: the classes
8, 24, 40 and 56 are never the first. -/
theorem kmallocSizes_aligned {total idx : ℕ} (hidx : idx < 26) (hdvd : 16 ∣ total)
    (hle : 32 ≤ total) (hfit : total ≤ kmallocSizes.getD idx 0)
    (hfirst : ∀ i < idx, kmallocSizes.getD i 0 < total) : 16 ∣ kmallocSizes.getD idx 0 := by
  have hclasses : ∀ idx < 26, 16 ∣ kmallocSizes.getD idx 0 ∨ idx = 0 ∨
      kmallocSizes.getD (idx - 1) 0 + 8 = kmallocSizes.getD idx 0 ∧
        16 ∣ kmallocSizes.getD (idx - 1) 0 := by decide
  rcases hclasses idx hidx with h | rfl | ⟨hprev, hdvd'⟩
  · exact h
  · simp only [kmallocSizes, List.getD_cons_zero] at hfit
    omega
  · by_cases hzero : idx = 0
    · subst hzero
      simp only [kmallocSizes, List.getD_cons_zero] at hfit
      omega
    · have := hfirst (idx - 1) (by omega)
      omega

/-- Every class fits a page behind the slab header, and is its own rounding. -/
theorem initKmalloc_size (pool : ℕ → ℕ) {i : ℕ} (hi : i < 26) :
    kmallocSizes.getD i 0 ≤ 4096 - slabHdr ∧
      (initKmalloc pool i).size = kmallocSizes.getD i 0 := by
  have hall : ∀ i < 26, kmallocSizes.getD i 0 ≤ 4096 - slabHdr ∧
      8 ≤ kmallocSizes.getD i 0 ∧ alignUp (kmallocSizes.getD i 0) 8 = kmallocSizes.getD i 0 := by
    decide
  obtain ⟨h1, h2, h3⟩ := hall i hi
  refine ⟨h1, ?_⟩
  simp only [initKmalloc, kmemCacheCreate]
  rw [if_neg (by omega), h3]

/-- What a block with its header takes: a slot of an aligned class, or a run of pages. -/
theorem kmallocBacking_cases {size : ℕ} (h : KmallocSize size) :
    (∃ idx < 26, kmallocIndex (kmallocTotal size) = (idx : ℕ) ∧ kmallocBacking size = .slab idx ∧
      size + allocHeaderSize ≤ kmallocSizes.getD idx 0 ∧ 16 ∣ kmallocSizes.getD idx 0) ∨
    ∃ n, ¬ 0 ≤ kmallocIndex (kmallocTotal size) ∧
      (kmallocPages (kmallocTotal size) % wordSize).toNat = n ∧ kmallocBacking size = .pages n ∧
      0 < n ∧ n < 2 ^ 31 ∧ size + allocHeaderSize ≤ n * 4096 := by
  have htotal := kmallocTotal_eq h
  obtain ⟨hpos, hlt⟩ := h
  rcases kmallocIndex_cases (kmallocTotal size) with ⟨heq, -⟩ | ⟨idx, hidx, heq, hfit, hfirst⟩
  · have hn : kmallocPages (kmallocTotal size) = ((kmallocTotal size + 4095) / 4096 : ℕ) := by
      simp only [kmallocPages, pageSize, wordSize, htotal]
      rw [BitVec.toInt_ofNat', Int.bmod_eq_of_le] <;> omega
    refine .inr ⟨(kmallocTotal size + 4095) / 4096, by rw [heq]; decide, ?_, ?_, ?_, ?_, ?_⟩
    · rw [hn]
      simp only [wordSize]
      omega
    · rw [kmallocBacking, if_neg (by rw [heq]; decide), hn]
      simp only [wordSize]
      congr 1
      omega
    all_goals simp only [allocHeaderSize, htotal]; omega
  · refine .inl ⟨idx, hidx, heq, ?_, ?_, ?_⟩
    · rw [kmallocBacking, heq, if_pos (by omega), Int.toNat_natCast]
    · simp only [allocHeaderSize]
      omega
    · exact kmallocSizes_aligned hidx (by rw [htotal]; exact Nat.dvd_mul_left _ _) (by omega) hfit
        hfirst

/-- A size that a cache serves: the class is aligned and has room for the header. -/
theorem kmallocBacking_slab {size i : ℕ} (h : KmallocSize size)
    (hbacking : kmallocBacking size = .slab i) :
    i < 26 ∧ kmallocIndex (kmallocTotal size) = (i : ℕ) ∧
      size + allocHeaderSize ≤ kmallocSizes.getD i 0 ∧ 16 ∣ kmallocSizes.getD i 0 := by
  rcases kmallocBacking_cases h with ⟨idx, hlt, hidx, heq, hrest⟩ | ⟨n, -, -, heq, -⟩
  · obtain rfl : idx = i := by simpa using heq.symm.trans hbacking
    exact ⟨hlt, hidx, hrest⟩
  · rw [hbacking] at heq
    cases heq

/-- A size that takes whole pages: they have room for the header, and their number is an `int`. -/
theorem kmallocBacking_pages {size n : ℕ} (h : KmallocSize size)
    (hbacking : kmallocBacking size = .pages n) :
    ¬ 0 ≤ kmallocIndex (kmallocTotal size) ∧
      (kmallocPages (kmallocTotal size) % wordSize).toNat = n ∧ 0 < n ∧ n < 2 ^ 31 ∧
      size + allocHeaderSize ≤ n * 4096 := by
  rcases kmallocBacking_cases h with ⟨idx, -, -, heq, -⟩ | ⟨m, hidx, hpages, heq, hrest⟩
  · rw [hbacking] at heq
    cases heq
  · obtain rfl : m = n := by simpa using heq.symm.trans hbacking
    exact ⟨hidx, hpages, hrest⟩

end Flos.Mm
