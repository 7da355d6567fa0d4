import Flos.Mm.KmallocRuns

/-!
# The room of a block

`kmalloc` adds a header to the size and rounds up, in 64 bits, and keeps the number of pages in an
`int`. Up to 8 TiB less a page both are exact. Larger sizes wrap or lose their upper bits, and a
block that is returned for one of them is too small.
-/

namespace Flos.Mm

open Flos.Lib

/-- The largest size whose page count fits an `int`. -/
abbrev maxBlockSize : ℕ := 2 ^ 43 - 4112

/-- The size with its header, rounded up: the sum wraps. -/
theorem kmallocTotal_wrap (size : ℕ) : kmallocTotal size = (size + 31) % wordSize / 16 * 16 := by
  rw [kmallocTotal, show (16 : ℕ) = 2 ^ 4 from rfl, alignUp_two_pow _ 4 (by decide)]
  simp only [wordSize, allocHeaderSize]
  omega

/-- The page count as `pmm_alloc_pages` receives it: the lower half of the word, with its sign. -/
theorem kmallocPages_toNat (total : ℕ) :
    (kmallocPages total % wordSize).toNat =
      if (total + 4095) % wordSize / 4096 % 2 ^ 32 < 2 ^ 31 then
        (total + 4095) % wordSize / 4096 % 2 ^ 32
      else wordSize - 2 ^ 32 + (total + 4095) % wordSize / 4096 % 2 ^ 32 := by
  simp only [kmallocPages, BitVec.toInt_ofNat', Int.bmod_def, pageSize, wordSize]
  split_ifs <;> omega

/-- The caches are those of `init_kmalloc`, each in order, and their slabs are frames in use. -/
structure HeapCaches (k : Kmalloc Pmm) : Prop where
  ok : k.heap.pages.Ok
  size : ∀ i < 26, (k.caches i).size = kmallocSizes.getD i 0
  slab : ∀ i < 26, ∃ g live, SlabInv (k.caches i) k.heap.mem g live ∧
    SlabsHeld hhdmOffset k.heap.pages.inUse g.slabs

/-- The caches are in order in every state of the heap. -/
theorem KmallocInv.heapCaches {limit : ℕ} {st : KmallocState Pmm} {g : KmallocGhost}
    (hinv : KmallocInv Pmm.Ok Pmm.inUse hhdmOffset limit st g) : HeapCaches st.k :=
  ⟨hinv.ok, hinv.size, fun i hi => ⟨_, _, hinv.slab i hi, hinv.slabsHeld hi⟩⟩

/-- The slot or the run of frames that `kmalloc` takes: its start and its length. -/
def BlockTaken (k : Kmalloc Pmm) (size start len : ℕ) : Prop :=
  match kmallocBacking size with
  | .slab i => ∃ cache heap,
      kmemCacheAlloc pmmSource hhdmOffset (k.caches i) k.heap = some (start, cache, heap) ∧
        len = (k.caches i).size
  | .pages n => ∃ phys pages, pmmAllocPages k.heap.pages n = (phys, pages) ∧
      start = hhdmOffset + phys ∧ len = n * 4096

variable {k k' : Kmalloc Pmm} {size ptr : ℕ}

/-- The slabs of a cache stay below the end of the direct map when it serves a request. -/
theorem SlabAlloc.slabs_lt {s s' : KmemCache} {h h' : Heap Pmm} {g g' : SlabGhost} {obj b : ℕ}
    (halloc : SlabAlloc pmmSource hhdmOffset s h g obj s' h' g') (hok : h.pages.Ok)
    (hheld : SlabsHeld hhdmOffset h.pages.inUse g.slabs) (hb : b ∈ g'.slabs) :
    b + 4096 ≤ hhdmOffset + 2 ^ 43 := by
  have hold : b ∈ g.slabs → b + 4096 ≤ hhdmOffset + 2 ^ 43 := by
    intro hb
    obtain ⟨f, ⟨hdvd, -, hlt, -⟩, rfl⟩ := hheld b hb
    have hsmall := hok.small
    omega
  cases halloc with
  | reuse _ _ heq => exact hold (heq ▸ hb)
  | fail => exact hold hb
  | grow _ _ _ heq =>
    rw [heq] at hb
    rcases List.mem_cons.mp hb with rfl | hb
    · have haddr := (pmmSource_lawful.allocPage_addr _ hok).2
      omega
    · exact hold hb

/-- A block from a cache: its pointer is behind the header, in the slot. -/
theorem kmalloc_slab_ptr (hk : HeapCaches k) {i : ℕ} (hi : i < 26) (hsize : size ≠ 0)
    (hidx : kmallocIndex (kmallocTotal size) = (i : ℕ))
    (hrun : kmalloc pmmSource hhdmOffset size k = some (ptr, k')) (hptr : ptr ≠ 0) :
    ∃ start, BlockTaken k size start (kmallocSizes.getD i 0) ∧ ptr = start + allocHeaderSize := by
  obtain ⟨g, live, hinv, hheld⟩ := hk.slab i hi
  obtain ⟨obj, s', h', g', heq, halloc, -, hlive, -⟩ :=
    kmemCacheAlloc_spec pmmSource_lawful.toLawfulPage directMap_hhdmOffset hk.ok hinv hheld
  rw [kmalloc, if_neg hsize] at hrun
  simp only [hidx, Int.natCast_nonneg, if_true, Int.toNat_natCast, heq] at hrun
  by_cases hobj : obj = 0
  · rw [if_pos hobj] at hrun
    cases hrun
    exact absurd rfl hptr
  · rw [if_neg hobj] at hrun
    obtain ⟨-, hinv'⟩ := hlive hobj
    have hbounds := slot_bounds (hinv'.shape.live_slot List.mem_cons_self)
    have hslab := halloc.slabs_lt hk.ok hheld (hinv'.shape.live_slab _ List.mem_cons_self)
    cases hrun
    refine ⟨obj, ?_, Nat.mod_eq_of_lt ?_⟩
    · simp only [BlockTaken, kmallocBacking, hidx, Int.natCast_nonneg, if_true, Int.toNat_natCast]
      exact ⟨s', h', heq, (hk.size i hi).symm⟩
    · simp only [allocHeaderSize, hhdmOffset, wordSize] at hslab ⊢
      omega

/-- A block of whole pages: its pointer is behind the header, at the start of the run. -/
theorem kmalloc_pages_ptr (hk : HeapCaches k) (hsize : size ≠ 0)
    (hidx : kmallocIndex (kmallocTotal size) = -1)
    (hrun : kmalloc pmmSource hhdmOffset size k = some (ptr, k')) (hptr : ptr ≠ 0) :
    ∃ start n, BlockTaken k size start (n * 4096) ∧ ptr = start + allocHeaderSize ∧ n < 2 ^ 31 ∧
      n = (kmallocTotal size + 4095) % wordSize / 4096 % 2 ^ 32 := by
  have hcount := kmallocPages_toNat (kmallocTotal size)
  rw [kmalloc, if_neg hsize] at hrun
  simp only [hidx, show ¬ (0 : ℤ) ≤ -1 by decide, if_false] at hrun
  generalize hn : (kmallocPages (kmallocTotal size) % wordSize).toNat = n at hrun hcount
  by_cases hphys : (pmmSource.allocPages k.heap.pages n).1 = 0
  · rw [if_pos hphys] at hrun
    cases hrun
    exact absurd rfl hptr
  · have hpos : 0 < n := by
      rcases Nat.eq_zero_or_pos n with rfl | hpos
      · exact absurd rfl hphys
      · exact hpos
    have haddr := (pmmSource_lawful.allocPages_addr _ n hk.ok hpos hphys).2
    have hhdr : (hhdmOffset + (pmmSource.allocPages k.heap.pages n).1) % wordSize =
        hhdmOffset + (pmmSource.allocPages k.heap.pages n).1 := by
      simp only [hhdmOffset, wordSize]
      omega
    rw [if_neg hphys, hhdr, if_neg (by simp only [hhdmOffset]; omega)] at hrun
    cases hrun
    have hint : n < 2 ^ 31 ∧ n = (kmallocTotal size + 4095) % wordSize / 4096 % 2 ^ 32 := by
      simp only [wordSize] at hcount ⊢
      split_ifs at hcount <;> omega
    refine ⟨hhdmOffset + (pmmSource.allocPages k.heap.pages n).1, n, ?_, Nat.mod_eq_of_lt ?_, hint⟩
    · simp only [BlockTaken, kmallocBacking, hidx, show ¬ (0 : ℤ) ≤ -1 by decide, if_false, hn]
      exact ⟨(pmmAllocPages k.heap.pages n).1, (pmmAllocPages k.heap.pages n).2, rfl, rfl, trivial⟩
    · simp only [allocHeaderSize, hhdmOffset, wordSize]
      omega

/-- A block has one start and one length. -/
theorem BlockTaken.unique {start len start' len' : ℕ} (h : BlockTaken k size start len)
    (h' : BlockTaken k size start' len') : start = start' ∧ len = len' := by
  unfold BlockTaken at h h'
  cases hbacking : kmallocBacking size with
  | slab i =>
    rw [hbacking] at h h'
    obtain ⟨_, _, heq, hlen⟩ := h
    obtain ⟨_, _, heq', hlen'⟩ := h'
    rw [heq] at heq'
    simp only [Option.some.injEq, Prod.mk.injEq] at heq'
    exact ⟨heq'.1, hlen.trans hlen'.symm⟩
  | pages n =>
    rw [hbacking] at h h'
    obtain ⟨_, _, heq, hstart, hlen⟩ := h
    obtain ⟨_, _, heq', hstart', hlen'⟩ := h'
    rw [heq] at heq'
    simp only [Prod.mk.injEq] at heq'
    exact ⟨by rw [hstart, hstart', heq'.1], hlen.trans hlen'.symm⟩

/-- The block that `kmalloc` returns has room for the size exactly up to 8 TiB less a page and the
header. -/
theorem kmalloc_hasRoom_iff (hk : HeapCaches k) (hlt : size < wordSize)
    (hrun : kmalloc pmmSource hhdmOffset size k = some (ptr, k')) (hptr : ptr ≠ 0) :
    (∃ start len, BlockTaken k size start len ∧ start ≤ ptr ∧ ptr + size ≤ start + len) ↔
      size ≤ maxBlockSize := by
  have hsize : size ≠ 0 := by
    rintro rfl
    rw [kmalloc, if_pos rfl] at hrun
    cases hrun
    exact hptr rfl
  have htotal := kmallocTotal_wrap size
  simp only [wordSize] at htotal hlt
  obtain ⟨start, len, htaken, hstart, hroom⟩ : ∃ start len, BlockTaken k size start len ∧
      ptr = start + allocHeaderSize ∧ (size + allocHeaderSize ≤ len ↔ size ≤ maxBlockSize) := by
    rcases kmallocIndex_cases (kmallocTotal size) with ⟨hidx, hnone⟩ | ⟨i, hi, hidx, hfit, -⟩
    · obtain ⟨start, n, htaken, hstart, hsmall, hn⟩ := kmalloc_pages_ptr hk hsize hidx hrun hptr
      refine ⟨start, n * 4096, htaken, hstart, ?_⟩
      have hlarge := hnone 25 (by decide)
      simp only [wordSize, kmallocSizes, List.getD_cons_succ, List.getD_cons_zero] at hn hlarge
      simp only [allocHeaderSize, maxBlockSize]
      omega
    · obtain ⟨start, htaken, hstart⟩ := kmalloc_slab_ptr hk hi hsize hidx hrun hptr
      have hclass : kmallocSizes.getD i 0 ≤ 3072 :=
        kmallocSizes_mono (show i ≤ 25 by omega) (by decide)
      refine ⟨start, _, htaken, hstart, ?_⟩
      simp only [allocHeaderSize, maxBlockSize]
      omega
  rw [← hroom]
  constructor
  · rintro ⟨start', len', htaken', -, hle⟩
    obtain ⟨rfl, rfl⟩ := htaken.unique htaken'
    omega
  · intro hle
    exact ⟨start, len, htaken, by omega, by omega⟩

/-- The heap of `init_kmalloc` before its first block. -/
theorem heapCaches_init {pool : ℕ → ℕ} {mem : ByteMem} {s : Pmm} (hok : s.Ok) :
    HeapCaches ⟨initKmalloc pool, ⟨mem, s⟩⟩ :=
  (show KmallocInv Pmm.Ok Pmm.inUse hhdmOffset (2 ^ 43) _ _ from kmallocInv_init pool hok).heapCaches

/-- On the small map a block of 5000 bytes has room in its two pages. -/
theorem kmalloc_hasRoom_sixFrameMap :
    ∃ s₀ k', initBitmapPmm sixFrameMap (fun _ => 0#8) = some s₀ ∧
      kmalloc pmmSource hhdmOffset 5000 ⟨initKmalloc id, ⟨fun _ => 0, s₀⟩⟩ =
        some (hhdmOffset + 0x1010, k') ∧
      ∃ start len, BlockTaken ⟨initKmalloc id, ⟨fun _ => 0, s₀⟩⟩ 5000 start len ∧
        start ≤ hhdmOffset + 0x1010 ∧ hhdmOffset + 0x1010 + 5000 ≤ start + len := by
  obtain ⟨s₀, hinit⟩ := initBitmapPmm_isSome sixFrameMap_bootable (fun _ => 0#8)
  have hptr : ((initBitmapPmm sixFrameMap (fun _ => 0#8)).bind fun s =>
      (kmalloc pmmSource hhdmOffset 5000 ⟨initKmalloc id, ⟨fun _ => 0, s⟩⟩).map Prod.fst) =
      some (hhdmOffset + 0x1010) := by decide +kernel
  rw [hinit, Option.bind_some] at hptr
  obtain ⟨⟨_, k'⟩, heq, rfl⟩ := Option.map_eq_some_iff.mp hptr
  exact ⟨s₀, k', hinit, heq, (kmalloc_hasRoom_iff
    (heapCaches_init (.of_init sixFrameMap_bootable hinit)) (by decide) heq (by decide)).mpr
    (by decide)⟩

/-- A request of `2^64 - 1` bytes wraps: it gets a slot of 16 bytes, all of which the header takes. -/
theorem kmalloc_wraps :
    ∃ s₀ k', initBitmapPmm sixFrameMap (fun _ => 0#8) = some s₀ ∧
      HeapCaches ⟨initKmalloc id, ⟨fun _ => 0, s₀⟩⟩ ∧
      kmalloc pmmSource hhdmOffset (2 ^ 64 - 1) ⟨initKmalloc id, ⟨fun _ => 0, s₀⟩⟩ =
        some (hhdmOffset + 0x1030, k') ∧
      BlockTaken ⟨initKmalloc id, ⟨fun _ => 0, s₀⟩⟩ (2 ^ 64 - 1) (hhdmOffset + 0x1020) 16 ∧
      ¬ ∃ start len, BlockTaken ⟨initKmalloc id, ⟨fun _ => 0, s₀⟩⟩ (2 ^ 64 - 1) start len ∧
        start ≤ hhdmOffset + 0x1030 ∧ hhdmOffset + 0x1030 + (2 ^ 64 - 1) ≤ start + len := by
  obtain ⟨s₀, hinit⟩ := initBitmapPmm_isSome sixFrameMap_bootable (fun _ => 0#8)
  have hptr : ((initBitmapPmm sixFrameMap (fun _ => 0#8)).bind fun s =>
      (kmalloc pmmSource hhdmOffset (2 ^ 64 - 1) ⟨initKmalloc id, ⟨fun _ => 0, s⟩⟩).map Prod.fst) =
      some (hhdmOffset + 0x1030) := by decide +kernel
  have hslot : ((initBitmapPmm sixFrameMap (fun _ => 0#8)).bind fun s =>
      (kmemCacheAlloc pmmSource hhdmOffset (initKmalloc id 1) ⟨fun _ => 0, s⟩).map Prod.fst) =
      some (hhdmOffset + 0x1020) := by decide +kernel
  have hbacking : kmallocBacking (2 ^ 64 - 1) = .slab 1 := by decide +kernel
  rw [hinit, Option.bind_some] at hptr hslot
  obtain ⟨⟨_, k'⟩, heq, rfl⟩ := Option.map_eq_some_iff.mp hptr
  obtain ⟨⟨_, cache, heap⟩, hslot, rfl⟩ := Option.map_eq_some_iff.mp hslot
  have htaken : BlockTaken ⟨initKmalloc id, ⟨fun _ => 0, s₀⟩⟩ (2 ^ 64 - 1) (hhdmOffset + 0x1020)
      16 := by
    rw [BlockTaken, hbacking]
    exact ⟨cache, heap, hslot, rfl⟩
  refine ⟨s₀, k', hinit, heapCaches_init (.of_init sixFrameMap_bootable hinit), heq, htaken, ?_⟩
  rintro ⟨start, len, htaken', -, hle⟩
  obtain ⟨rfl, rfl⟩ := htaken.unique htaken'
  exact absurd hle (by decide)


end Flos.Mm
