import Mathlib.Order.Interval.Set.Disjoint
import Flos.Mm.Firmware
import Flos.Mm.HugePages

/-!
# What the boot mappings reach

`init_pmap` maps every entry of the memory map, rounded to whole pages, at its own address and in the
direct map. Two entries can meet in one page. If the first of them ends a 2 MiB block there, its last page
is part of a huge page, and the mapping of the second one stops at its first step. Which entries are
entered at all can be computed from the memory map.
-/

namespace Flos.Mm

open Flos.Lib

namespace MemoryMapEntry

/-- The bytes of an entry. -/
def bytes (e : MemoryMapEntry) : Set ℕ := Set.Ico e.base (e.base + e.length)

/-- The address lies in a page of the entry. -/
def InPages (e : MemoryMapEntry) (x : ℕ) : Prop :=
  e.base / 4096 * 4096 ≤ x ∧ x < pageCeil (e.base + e.length)

/-- The 2 MiB block of the address lies in the pages of the entry. -/
def Blocks (e : MemoryMapEntry) (x : ℕ) : Prop :=
  HugeBlockIn (e.base / 4096 * 4096) (pageCeil (e.base + e.length) - e.base / 4096 * 4096) x

/-- The entry is not mapped. -/
def Skipped (e : MemoryMapEntry) : Prop := e.type = .badMemory ∨ e.type = .executableAndModules

instance (e : MemoryMapEntry) (x : ℕ) : Decidable (e.InPages x) :=
  inferInstanceAs (Decidable (_ ∧ _))

instance (e : MemoryMapEntry) (x : ℕ) : Decidable (e.Blocks x) :=
  inferInstanceAs (Decidable (HugeBlockIn _ _ _))

instance (e : MemoryMapEntry) : Decidable e.Skipped := inferInstanceAs (Decidable (_ ∨ _))

instance (k e : MemoryMapEntry) : Decidable (Disjoint k.bytes e.bytes) :=
  decidable_of_iff _ Set.Ico_disjoint_Ico.symm

variable {e k : MemoryMapEntry} {x : ℕ}

/-- Disjoint entries: one is empty, or they lie one behind the other. -/
theorem disjoint_bytes (h : Disjoint k.bytes e.bytes) :
    k.length = 0 ∨ e.length = 0 ∨ k.base + k.length ≤ e.base ∨ e.base + e.length ≤ k.base := by
  rw [bytes, bytes, Set.Ico_disjoint_Ico] at h
  omega

/-- A block that lies in an entry lies in no disjoint one. -/
theorem Blocks.not_blocks (h : Disjoint k.bytes e.bytes) (hk : k.Blocks x) : ¬ e.Blocks x := by
  have hdisjoint := disjoint_bytes h
  intro he
  simp only [Blocks, HugeBlockIn, pageCeil] at hk he
  omega

/-- Where the first page of an entry is not in a block of another one, none of its pages but the last
is. -/
theorem Blocks.last_page (h : Disjoint k.bytes e.bytes) (hk : k.Blocks x) (hx : e.InPages x)
    (hfirst : ¬ k.Blocks e.base) : pageCeil (e.base + e.length) ≤ x + 4096 := by
  have hdisjoint := disjoint_bytes h
  simp only [Blocks, HugeBlockIn, InPages, pageCeil] at hk hx hfirst ⊢
  omega

/-- An address of a block is in a page. -/
theorem Blocks.inPages (h : e.Blocks x) : e.InPages x := by
  simp only [Blocks, HugeBlockIn, InPages, pageCeil] at h ⊢
  omega

/-- Whether an address is in a block is a question about its page. -/
theorem Blocks.congr {y : ℕ} (h : e.Blocks x) (hxy : y / 4096 = x / 4096) : e.Blocks y := by
  have hblock : y / 2 ^ 21 = x / 2 ^ 21 := by omega
  rwa [Blocks, HugeBlockIn, hblock]

/-- The addresses of blocks are below the end of the pages. -/
theorem Blocks.lt {n : ℕ} (h : e.Blocks x) (hend : pageCeil (e.base + e.length) ≤ n) : x < n :=
  h.inPages.2.trans_le hend

/-- The bytes of an entry are in its pages. -/
theorem inPages_of_mem_bytes (h : x ∈ e.bytes) : e.InPages x := by
  obtain ⟨h1, h2⟩ := h
  simp only [InPages, pageCeil]
  omega

end MemoryMapEntry

/-- The entries that the boot mappings enter: those that are mapped and whose first page is in no 2 MiB
block of an entry that has been entered before. -/
def enteredEntries : (entered : List MemoryMapEntry) → List MemoryMapEntry → List MemoryMapEntry
  | entered, [] => entered
  | entered, e :: rest =>
    if e.Skipped ∨ ∃ k ∈ entered, k.Blocks e.base then enteredEntries entered rest
    else enteredEntries (entered ++ [e]) rest

/-- The end of an entry's pages. -/
theorem pageCeil_bounds {n : ℕ} (h : n ≤ 2 ^ 46) : 4096 ∣ pageCeil n ∧ pageCeil n ≤ 2 ^ 46 := by
  refine ⟨Nat.dvd_mul_left _ _, ?_⟩
  rw [pageCeil]
  omega

/-- The flags of the boot mappings. -/
abbrev bootFlags : ℕ := mmuFlagWrite ||| mmuFlagNoExec ||| mmuFlagHugeOk

section Range

variable {S : Type*} {A : KernelAlloc S} {Ok : S → Prop} {frames : S → Set ℕ} {root off start top : ℕ}
  {s : Machine S} (hA : A.LawfulPages Ok frames) (hs : PtState Ok frames root s)
  (hoff : off % 2 ^ 30 = 0) (hhalf : InOneHalf off (2 ^ 46 + 4096)) (hstart : 4096 ∣ start)
  (htop : 4096 ∣ top) (hle : top ≤ 2 ^ 46)

/-- The mapping of the physical addresses from `start` up to `top` at an offset. -/
def mapOffset (A : KernelAlloc S) (root off start top : ℕ) (s : Machine S) : ℕ × Machine S :=
  mapRangeLoop A root bootFlags (parseCommonFlags bootFlags) ((top - start) / 4096) (start + off) start
    (top - start) 0 s

include hA hs hoff hhalf hstart htop hle

/-- A range of which at most the last page is blocked, and then translated already, is mapped whole. -/
theorem mapOffset_enters (hlow : start ≤ 2 ^ 46)
    (hfree : ∀ x, start ≤ x → x + 4096 < top → ¬ Blocked s.mem root (x + off))
    (hlast : ∀ y, start ≤ y → y < top → Blocked s.mem root (y + off) → ∀ x, x / 4096 = y / 4096 →
      translate s.mem root (x + off) = some ⟨x, flagsAccess bootFlags⟩)
    (hsucc : ¬ Failed s (mapOffset A root off start top s).2) :
    PtState Ok frames root (mapOffset A root off start top s).2 ∧
      (∀ va, translate (mapOffset A root off start top s).2.mem root va =
        if off ≤ va ∧ start ≤ va - off ∧ va - off < top then
          some ⟨va - off, flagsAccess bootFlags⟩
        else translate s.mem root va) ∧
      ∀ va, Canonical va → (Blocked (mapOffset A root off start top s).2.mem root va ↔
        Blocked s.mem root va ∨ off ≤ va ∧ HugeBlockIn start (top - start) (va - off)) := by
  rw [mapOffset] at hsucc ⊢
  simp only [InOneHalf] at hhalf
  have hhalf' : InOneHalf (start + off) (top - start) := by
    simp only [InOneHalf]
    omega
  have hfree' : ∀ x, start + off ≤ x → x + 4096 < start + off + (top - start) →
      ¬ Blocked s.mem root x := by
    intro x h1 h2
    have hx := hfree (x - off) (by omega) (by omega)
    rwa [Nat.sub_add_cancel (by omega)] at hx
  obtain ⟨m, s', hrun, hm, hblocked⟩ := mapRangeLoop_blocked hA (show bootFlags &&& mmuFlagHugeOk ≠ 0 by decide)
    ((top - start) / 4096) 0 hs (by omega) hstart (by omega) (by omega) hhalf' (by omega) (by omega)
    hfree' hsucc
  obtain ⟨m', s'', hrun', -, hs', hover⟩ := mapRangeLoop_spec hA bootFlags ((top - start) / 4096)
    (start + off) start (top - start) 0 hs (by omega) hstart (by omega) (by omega) hhalf'
  obtain ⟨hmm, rfl⟩ := Prod.mk.inj (hrun.symm.trans hrun')
  obtain rfl : m = m' := by omega
  rw [hrun]
  refine ⟨hs', fun va => ?_, fun va hva => (hblocked va hva).trans (or_congr_right ?_)⟩
  · rw [hover va]
    by_cases hin : start + off ≤ va ∧ va < start + off + m
    · rw [if_pos hin, if_pos (by omega)]
      congr 2
      omega
    · rw [if_neg hin]
      split
      next hpages =>
        -- the last page was blocked
        obtain ⟨hva, hlo, hhi⟩ := hpages
        obtain ⟨hm, hend⟩ := hm.resolve_left (by omega)
        have htrans := hlast (start + m) (by omega) (by omega) (by rwa [Nat.add_right_comm]) (va - off)
          (by omega)
        rwa [Nat.sub_add_cancel hva] at htrans
      next => rfl
  · simp only [HugeBlockIn]
    omega

/-- A range whose first page is blocked is not mapped at all. -/
theorem mapOffset_stopped (hblocked : Blocked s.mem root (start + off))
    (hsmall : ¬ HugeBlockIn start (top - start) start)
    (hsucc : ¬ Failed s (mapOffset A root off start top s).2) :
    PtState Ok frames root (mapOffset A root off start top s).2 ∧
      (∀ va, translate (mapOffset A root off start top s).2.mem root va = translate s.mem root va) ∧
      ∀ va, Blocked (mapOffset A root off start top s).2.mem root va ↔ Blocked s.mem root va := by
  rw [mapOffset] at hsucc ⊢
  simp only [HugeBlockIn, InOneHalf] at hsmall hhalf
  by_cases hzero : top - start = 0
  · rw [hzero, mapRangeLoop_done]
    exact ⟨hs, fun _ => rfl, fun _ => Iff.rfl⟩
  obtain ⟨fuel, hfuel⟩ : ∃ n, (top - start) / 4096 = n + 1 := ⟨(top - start) / 4096 - 1, by omega⟩
  have hstep : mapStep A root bootFlags (parseCommonFlags bootFlags) (start + off) start (top - start) s =
      map A root (start + off) start (parseCommonFlags bootFlags) s := by
    rw [mapStep, if_pos (by decide), mapHugeOk, if_neg (by simp only [pageSize1G]; omega),
      if_neg (by simp only [pageSize2M]; omega)]
  rw [hfuel, mapRangeLoop_succ, if_neg hzero, hstep] at hsucc ⊢
  have hfail : ¬ Failed s (map A root (start + off) start (parseCommonFlags bootFlags) s).2 := by
    intro hfail
    refine hsucc (hfail.extend List.prefix_rfl ?_)
    split
    · exact List.prefix_rfl
    · exact (callInvariant_log A _).mapRangeLoop _ _ _ _ _ _ _ _ List.prefix_rfl
  obtain ⟨hsize, -, hsame⟩ := map_blocked hA bootFlags hs hstart (by omega) hfail
  obtain ⟨hs', hover⟩ := map_spec hA bootFlags hs (show 4096 ∣ start + off by omega) hstart (by omega)
    (by simp only [InOneHalf]; omega)
  rw [if_pos (hsize hblocked)]
  refine ⟨hs', fun va => ?_, hsame⟩
  rw [hover va, hsize hblocked, if_neg (by omega)]

end Range

section Entry

variable {S : Type*} {A : KernelAlloc S} {Ok : S → Prop} {frames : S → Set ℕ} {root off : ℕ}
  {e : MemoryMapEntry} {s : Machine S} (hA : A.LawfulPages Ok frames)

/-- The mapping of an entry at an offset. -/
def mapEntry (A : KernelAlloc S) (root off : ℕ) (e : MemoryMapEntry) (s : Machine S) : ℕ × Machine S :=
  pmapMapRange A root (e.base + off) e.base bootFlags e.length s

/-- The first address of an entry's pages, and how many bytes they have. -/
theorem mapEntry_eq (hoff : off % 2 ^ 30 = 0) (hhalf : InOneHalf off (2 ^ 46 + 4096))
    (hend : e.base + e.length ≤ 2 ^ 46) (s : Machine S) :
    mapEntry A root off e s =
      mapOffset A root off (e.base / 4096 * 4096) (pageCeil (e.base + e.length)) s := by
  simp only [InOneHalf] at hhalf
  have hvirt : e.base + off < wordSize := by
    simp only [wordSize]
    omega
  have hhalf' : InOneHalf (e.base + off) e.length := by
    simp only [InOneHalf]
    omega
  have hround := roundedLength_eq hvirt hhalf'
  have hstart : alignDown (e.base + off) pageSize = e.base / 4096 * 4096 + off := by
    rw [alignDown_page hvirt]
    omega
  have hphys : alignDown e.base pageSize = e.base / 4096 * 4096 :=
    alignDown_page (by simp only [wordSize]; omega)
  have hlen : roundedLength (e.base + off) e.length =
      pageCeil (e.base + e.length) - e.base / 4096 * 4096 := by
    rw [hround, pageCeil]
    omega
  rw [mapEntry, pmapMapRange, hlen, hstart, hphys, mapOffset]

/-- The two places where `init_pmap` maps physical memory. -/
def BootOffset (off : ℕ) : Prop := off = 0 ∨ off = hhdmOffset

/-- Both places are aligned to 1 GiB and have room for the memory. -/
theorem BootOffset.room (h : BootOffset off) : off % 2 ^ 30 = 0 ∧ InOneHalf off (2 ^ 46 + 4096) := by
  rcases h with rfl | rfl
  · exact ⟨by decide, .inl (by decide)⟩
  · exact ⟨by decide, .inr (by decide)⟩

/-- At an offset exactly the pages of some entries are translated, and exactly their blocks are blocked. -/
structure HalfMapped (root off : ℕ) (entered : List MemoryMapEntry) (s : Machine S) : Prop where
  translated : ∀ x < 2 ^ 46, translate s.mem root (x + off) =
    if ∃ k ∈ entered, k.InPages x then some ⟨x, flagsAccess bootFlags⟩ else none
  blocked : ∀ x < 2 ^ 46, Blocked s.mem root (x + off) ↔ ∃ k ∈ entered, k.Blocks x

/-- The memory of one place is canonical. -/
theorem BootOffset.canonical (h : BootOffset off) {x : ℕ} (hx : x < 2 ^ 46) : Canonical (x + off) := by
  simp only [Canonical]
  rcases h with rfl | rfl
  · omega
  · simp only [hhdmOffset]
    omega

/-- A mapping at one place does not touch the other. -/
theorem HalfMapped.frame {off' : ℕ} {entered : List MemoryMapEntry} {s' : Machine S}
    (hoff : BootOffset off) (hoff' : BootOffset off') (hne : off' ≠ off)
    (hend : e.base + e.length ≤ 2 ^ 46) (h : HalfMapped root off' entered s)
    (htrans : ∀ va, ¬ (off ≤ va ∧ e.InPages (va - off)) →
      translate s'.mem root va = translate s.mem root va)
    (hblocked : ∀ va, Canonical va → ¬ (off ≤ va ∧ e.InPages (va - off)) →
      (Blocked s'.mem root va ↔ Blocked s.mem root va)) :
    HalfMapped root off' entered s' := by
  obtain ⟨-, hle⟩ := pageCeil_bounds hend
  have hout : ∀ x < 2 ^ 46, ¬ (off ≤ x + off' ∧ e.InPages (x + off' - off)) := by
    rintro x hx ⟨h1, -, h2⟩
    rcases hoff with rfl | rfl <;> rcases hoff' with rfl | rfl
    · exact hne rfl
    · simp only [hhdmOffset] at h2
      omega
    · simp only [hhdmOffset] at h1
      omega
    · exact hne rfl
  refine ⟨fun x hx => (htrans _ (hout x hx)).trans (h.translated x hx), fun x hx => ?_⟩
  exact (hblocked _ (hoff'.canonical hx) (hout x hx)).trans (h.blocked x hx)

include hA

/-- An entry whose first page is in no block is entered. -/
theorem HalfMapped.enter {entered : List MemoryMapEntry} (hs : PtState Ok frames root s)
    (hoff : BootOffset off) (h : HalfMapped root off entered s)
    (hdisjoint : ∀ k ∈ entered, Disjoint k.bytes e.bytes)
    (hbound : ∀ k ∈ entered, k.base + k.length ≤ 2 ^ 46) (hend : e.base + e.length ≤ 2 ^ 46)
    (hfirst : ¬ ∃ k ∈ entered, k.Blocks e.base)
    (hsucc : ¬ Failed s (mapEntry A root off e s).2) :
    PtState Ok frames root (mapEntry A root off e s).2 ∧
      HalfMapped root off (entered ++ [e]) (mapEntry A root off e s).2 ∧
      ∀ off' entered', BootOffset off' → off' ≠ off → HalfMapped root off' entered' s →
        HalfMapped root off' entered' (mapEntry A root off e s).2 := by
  obtain ⟨halign, hroom⟩ := hoff.room
  obtain ⟨htop, hle⟩ := pageCeil_bounds hend
  have hbase : e.base / 4096 * 4096 ≤ 2 ^ 46 := (Nat.div_mul_le_self _ _).trans (by omega)
  have hfree : ∀ x, e.base / 4096 * 4096 ≤ x → x + 4096 < pageCeil (e.base + e.length) →
      ¬ Blocked s.mem root (x + off) := by
    intro x h1 h2 hx
    obtain ⟨k, hk, hkx⟩ := (h.blocked x (by omega)).mp hx
    have hlast := hkx.last_page (hdisjoint k hk) ⟨h1, by omega⟩ fun hb => hfirst ⟨k, hk, hb⟩
    omega
  have hlast : ∀ y, e.base / 4096 * 4096 ≤ y → y < pageCeil (e.base + e.length) →
      Blocked s.mem root (y + off) → ∀ x, x / 4096 = y / 4096 →
      translate s.mem root (x + off) = some ⟨x, flagsAccess bootFlags⟩ := by
    -- the page belongs to the block that is in the way
    intro y h1 h2 hy x hxy
    obtain ⟨k, hk, hky⟩ := (h.blocked y (by omega)).mp hy
    have hkx : k.Blocks x := hky.congr hxy
    have hlt : x < 2 ^ 46 := hkx.lt (pageCeil_bounds (hbound k hk)).2
    rw [h.translated x hlt, if_pos ⟨k, hk, hkx.inPages⟩]
  rw [mapEntry_eq halign hroom hend] at hsucc ⊢
  obtain ⟨hs', htrans, hblocked⟩ := mapOffset_enters hA hs halign hroom (Nat.dvd_mul_left _ _) htop hle
    hbase hfree hlast hsucc
  refine ⟨hs', ⟨fun x hx => ?_, fun x hx => ?_⟩, fun off' entered' hoff' hne h' => ?_⟩
  · rw [htrans, Nat.add_sub_cancel, h.translated x hx]
    simp only [List.mem_append, List.mem_singleton, or_and_right, exists_or, exists_eq_left]
    by_cases hin : e.InPages x
    · rw [if_pos ⟨Nat.le_add_left _ _, hin⟩, if_pos (.inr hin)]
    · rw [if_neg fun h => hin h.2]
      exact if_congr (or_iff_left hin).symm rfl rfl
  · rw [hblocked _ (hoff.canonical hx), h.blocked x hx, Nat.add_sub_cancel]
    simp only [Nat.le_add_left, true_and, List.mem_append, List.mem_singleton, or_and_right,
      exists_or, exists_eq_left]
    rfl
  · refine h'.frame hoff hoff' hne hend (fun va hva => ?_) fun va hcanon hva => ?_
    · rw [htrans]
      exact if_neg hva
    · rw [hblocked va hcanon]
      exact or_iff_left fun hin => hva ⟨hin.1, MemoryMapEntry.Blocks.inPages hin.2⟩

/-- An entry whose first page is in a block is not mapped. -/
theorem HalfMapped.stop {entered : List MemoryMapEntry} (hs : PtState Ok frames root s)
    (hoff : BootOffset off) (h : HalfMapped root off entered s)
    (hdisjoint : ∀ k ∈ entered, Disjoint k.bytes e.bytes)
    (hbound : ∀ k ∈ entered, k.base + k.length ≤ 2 ^ 46) (hend : e.base + e.length ≤ 2 ^ 46)
    (hfirst : ∃ k ∈ entered, k.Blocks e.base) (hsucc : ¬ Failed s (mapEntry A root off e s).2) :
    PtState Ok frames root (mapEntry A root off e s).2 ∧
      ∀ off' entered', HalfMapped root off' entered' s →
        HalfMapped root off' entered' (mapEntry A root off e s).2 := by
  obtain ⟨halign, hroom⟩ := hoff.room
  obtain ⟨htop, hle⟩ := pageCeil_bounds hend
  obtain ⟨k, hk, hfirst⟩ := hfirst
  have hsmall := hfirst.not_blocks (hdisjoint k hk)
  have hpage : k.Blocks (e.base / 4096 * 4096) := hfirst.congr (by omega)
  have hlt : e.base / 4096 * 4096 < 2 ^ 46 := hpage.lt (pageCeil_bounds (hbound k hk)).2
  rw [mapEntry_eq halign hroom hend] at hsucc ⊢
  obtain ⟨hs', htrans, hblocked⟩ := mapOffset_stopped hA hs halign hroom
    (show 4096 ∣ e.base / 4096 * 4096 from Nat.dvd_mul_left _ _) htop hle
    ((h.blocked _ hlt).mpr ⟨k, hk, hpage⟩) (fun hb => hsmall (MemoryMapEntry.Blocks.congr hb (by omega))) hsucc
  refine ⟨hs', fun off' entered' h' => ⟨fun x hx => ?_, fun x hx => ?_⟩⟩
  · rw [htrans]
    exact h'.translated x hx
  · rw [hblocked]
    exact h'.blocked x hx

end Entry

/-! ## The loop over the memory map -/

/-- After the loop the pages of certain entries are mapped at both places, and nothing else is. -/
structure BootMapped {S : Type*} (Ok : S → Prop) (frames : S → Set ℕ) (root : ℕ)
    (entered : List MemoryMapEntry) (s : Machine S) : Prop where
  state : PtState Ok frames root s
  identity : HalfMapped root 0 entered s
  direct : HalfMapped root hhdmOffset entered s

/-- The entries' bytes are disjoint from each other and lie below the end of the low half's memory. -/
structure EntriesApart (entries : List MemoryMapEntry) : Prop where
  disjoint : entries.Pairwise fun k e => Disjoint k.bytes e.bytes
  low : ∀ e ∈ entries, e.base + e.length ≤ 2 ^ 46

section Loop

variable {S : Type*} {A : KernelAlloc S} {Ok : S → Prop} {frames : S → Set ℕ} {root : ℕ}
  (hA : A.LawfulPages Ok frames)

include hA

/-- One entry is entered, unless a block of an earlier one is in the way. -/
theorem BootMapped.step {entered : List MemoryMapEntry} {e : MemoryMapEntry} {s : Machine S}
    (h : BootMapped Ok frames root entered s) (hdisjoint : ∀ k ∈ entered, Disjoint k.bytes e.bytes)
    (hbound : ∀ k ∈ entered, k.base + k.length ≤ 2 ^ 46) (hend : e.base + e.length ≤ 2 ^ 46)
    (hsucc : ¬ Failed s (mapEntry A root hhdmOffset e (mapEntry A root 0 e s).2).2) :
    BootMapped Ok frames root (if ∃ k ∈ entered, k.Blocks e.base then entered else entered ++ [e])
      (mapEntry A root hhdmOffset e (mapEntry A root 0 e s).2).2 := by
  have hlog : ∀ off s, s.log <+: (mapEntry A root off e s).2.log := fun off s =>
    (callInvariant_log A s.log).pmapMapRange _ _ _ _ _ List.prefix_rfl
  have hsucc₁ : ¬ Failed s (mapEntry A root 0 e s).2 :=
    fun hfail => hsucc (hfail.extend List.prefix_rfl (hlog _ _))
  have hsucc₂ : ¬ Failed (mapEntry A root 0 e s).2
      (mapEntry A root hhdmOffset e (mapEntry A root 0 e s).2).2 :=
    fun hfail => hsucc (hfail.extend (hlog _ _) List.prefix_rfl)
  split
  next hfirst =>
    obtain ⟨hs₁, hkeep₁⟩ := h.identity.stop hA h.state (.inl rfl) hdisjoint hbound hend hfirst hsucc₁
    obtain ⟨hs₂, hkeep₂⟩ := (hkeep₁ _ _ h.direct).stop hA hs₁ (.inr rfl) hdisjoint hbound hend hfirst
      hsucc₂
    exact ⟨hs₂, hkeep₂ _ _ (hkeep₁ _ _ h.identity), hkeep₂ _ _ (hkeep₁ _ _ h.direct)⟩
  next hfirst =>
    obtain ⟨hs₁, hid, hother₁⟩ := h.identity.enter hA h.state (.inl rfl) hdisjoint hbound hend hfirst
      hsucc₁
    have hdirect := hother₁ _ _ (.inr rfl) (by decide) h.direct
    obtain ⟨hs₂, hdir, hother₂⟩ := hdirect.enter hA hs₁ (.inr rfl) hdisjoint hbound hend hfirst hsucc₂
    exact ⟨hs₂, hother₂ _ _ (.inl rfl) (by decide) hid, hdir⟩

/-- The loop maps the pages of the entries that are entered. -/
theorem mapMemory_bootMapped (entries : List MemoryMapEntry) {entered : List MemoryMapEntry}
    {s : Machine S} (h : BootMapped Ok frames root entered s) (hapart : EntriesApart (entered ++ entries))
    (hsucc : ¬ Failed s (mapMemory A hhdmOffset root entries s)) :
    BootMapped Ok frames root (enteredEntries entered entries)
      (mapMemory A hhdmOffset root entries s) := by
  induction entries generalizing entered s with
  | nil => exact h
  | cons e rest ih =>
    rw [mapMemory] at hsucc ⊢
    rw [enteredEntries]
    have hsub : EntriesApart (entered ++ rest) :=
      ⟨hapart.disjoint.sublist (List.Sublist.append_left (List.sublist_cons_self _ _) _),
        fun k hk => hapart.low k (by grind)⟩
    by_cases hskip : e.type = .badMemory ∨ e.type = .executableAndModules
    · rw [if_pos hskip] at hsucc ⊢
      rw [if_pos (.inl hskip)]
      exact ih h hsub hsucc
    · have hend := hapart.low e (by simp)
      have hvirt : (e.base + hhdmOffset) % wordSize = e.base + hhdmOffset := by
        simp only [hhdmOffset, wordSize]
        omega
      rw [if_neg hskip] at hsucc ⊢
      simp only [hvirt] at hsucc ⊢
      have hlog := (callInvariant_log A s.log).pmapMapRange root (e.base + hhdmOffset) e.base bootFlags
        e.length ((callInvariant_log A s.log).pmapMapRange root e.base e.base bootFlags e.length
          List.prefix_rfl)
      have hrest := (callInvariant_log A _).mapMemory hhdmOffset root rest (List.prefix_refl
        (mapEntry A root hhdmOffset e (mapEntry A root 0 e s).2).2.log)
      have hstep := h.step hA
        (fun k hk => (List.pairwise_append.mp hapart.disjoint).2.2 k hk e List.mem_cons_self)
        (fun k hk => hapart.low k (List.mem_append_left _ hk)) hend
        fun hfail => hsucc (hfail.extend List.prefix_rfl hrest)
      have hsucc' := fun hfail => hsucc (Failed.extend hfail hlog List.prefix_rfl)
      by_cases hfirst : ∃ k ∈ entered, k.Blocks e.base
      · rw [if_pos hfirst] at hstep
        rw [if_pos (.inr hfirst)]
        exact ih hstep hsub hsucc'
      · rw [if_neg hfirst] at hstep
        rw [if_neg (show ¬ (e.Skipped ∨ _) from not_or.mpr ⟨hskip, hfirst⟩)]
        exact ih hstep (by rwa [List.append_assoc]) hsucc'

end Loop

section Boot

/-- An empty page table translates nothing. -/
theorem translate_of_empty {mem : ℕ → Fin 512 → ℕ} {root : ℕ} (hempty : ∀ i, mem root i = 0) (va : ℕ) :
    translate mem root va = none := by
  have hnone : tableEntry 0 = none := rfl
  rw [translate, pathOf, walkEntries, hempty, hnone]
  simp [decodeWalk]

variable {S : Type*} {A : KernelAlloc S} {Ok : S → Prop} {frames : S → Set ℕ}
  {objects : CacheName → S → Set ℕ} (hA : A.Lawful Ok frames objects)

/-- Every byte of the memory map that is to be mapped is translated to itself at both places. -/
def ReachesMemory (entries : List MemoryMapEntry) (root : ℕ) (s : Machine S) : Prop :=
  ∀ e ∈ entries, ¬ e.Skipped → ∀ x ∈ e.bytes,
    (∃ a, translate s.mem root x = some ⟨x, a⟩) ∧
      ∃ a, translate s.mem root (x + hhdmOffset) = some ⟨x, a⟩

include hA

/-- `init_pmap` maps the pages of the entries that its loop enters. -/
theorem initPmap_bootMapped {map : MemoryMap} {kernel : VmMap} {s s' : Machine S} (hok : Ok s.alloc)
    (hapart : EntriesApart map.entries)
    (hinit : initPmap A hhdmOffset map s = (some kernel, s')) (hsucc : ¬ Failed s s') :
    BootMapped Ok frames kernel.pageTable.pml4Phy (enteredEntries [] map.entries) s' := by
  rw [initPmap] at hinit
  rcases hcreate : vmMapCreate A none s with ⟨_ | space, s₁⟩
  all_goals rw [hcreate] at hinit
  · cases hinit
  · cases hinit
    obtain ⟨hstate, hempty⟩ := vmMapCreate_none_empty hA hok hcreate
    have hlog := (callInvariant_log A s.log).vmMapCreate hcreate List.prefix_rfl
    have hnone : ∀ off, HalfMapped kernel.pageTable.pml4Phy off [] s₁ := fun off =>
      ⟨fun x _ => by simpa using translate_of_empty hempty _, fun x _ => by
        simp [Blocked, (missingTables_of_empty hempty _).2]⟩
    exact mapMemory_bootMapped hA.toLawfulPages map.entries ⟨hstate, hnone _, hnone _⟩ hapart
      fun hfail => hsucc (hfail.extend hlog List.prefix_rfl)

/-- With disjoint entries and enough frames, `init_pmap` makes all of the memory map reachable exactly if
every byte is in a page of an entry that is entered. -/
theorem initPmap_reachesMemory_iff {map : MemoryMap} {kernel : VmMap} {s s' : Machine S}
    (hok : Ok s.alloc) (hapart : EntriesApart map.entries)
    (hinit : initPmap A hhdmOffset map s = (some kernel, s')) (hsucc : ¬ Failed s s') :
    ReachesMemory map.entries kernel.pageTable.pml4Phy s' ↔
      ∀ e ∈ map.entries, ¬ e.Skipped → ∀ x ∈ e.bytes,
        ∃ k ∈ enteredEntries [] map.entries, k.InPages x := by
  have hmapped := initPmap_bootMapped hA hok hapart hinit hsucc
  refine forall₄_congr fun e he _ x => forall_congr' fun hx => ?_
  have hlt : x < 2 ^ 46 := hx.2.trans_le (hapart.low e he)
  have hid : translate s'.mem kernel.pageTable.pml4Phy x = _ := hmapped.identity.translated x hlt
  rw [hid, hmapped.direct.translated x hlt]
  by_cases hin : ∃ k ∈ enteredEntries [] map.entries, k.InPages x
  · simp only [if_pos hin]
    exact iff_of_true ⟨⟨_, rfl⟩, _, rfl⟩ hin
  · simp only [if_neg hin]
    exact iff_of_false (fun h => by simp at h) hin

end Boot

/-- On a map with sixteen USABLE frames all of the memory map is reachable. -/
theorem initPmap_reachesMemory_sixteenFrameMap :
    ∃ s₀ kernel s', initBitmapPmm sixteenFrameMap (fun _ => 0#8) = some s₀ ∧
      initPmap kernelAllocators hhdmOffset sixteenFrameMap (bootMachine s₀) = (some kernel, s') ∧
      ReachesMemory sixteenFrameMap.entries kernel.pageTable.pml4Phy s' := by
  obtain ⟨s₀, hinit⟩ := initBitmapPmm_isSome sixteenFrameMap_bootable (fun _ => 0#8)
  have hconcrete : ((initBitmapPmm sixteenFrameMap (fun _ => 0#8)).bind fun pages =>
      let r := initPmap kernelAllocators hhdmOffset sixteenFrameMap (bootMachine pages)
      r.1.map fun _ => decide (Failed (bootMachine pages) r.2)) = some false := by
    decide +kernel
  rw [hinit, Option.bind_some] at hconcrete
  obtain ⟨kernel, hkernel, hsucc⟩ := Option.map_eq_some_iff.mp hconcrete
  have hreach := (initPmap_reachesMemory_iff kernelAllocators_lawful
    (bootMem_ok (Pmm.Ok.of_init sixteenFrameMap_bootable hinit)) ⟨by decide, by decide⟩
    (Prod.ext hkernel rfl) (of_decide_eq_false hsucc)).mpr fun e he _ x hx => ?_
  · exact ⟨s₀, kernel, _, hinit, Prod.ext hkernel rfl, hreach⟩
  · have hentered : enteredEntries [] sixteenFrameMap.entries = sixteenFrameMap.entries := by decide
    exact ⟨e, hentered ▸ he, MemoryMapEntry.inPages_of_mem_bytes hx⟩

/-- A boot map in which two reserved entries meet in the last page of a 2 MiB block. -/
def meetingMap : MemoryMap :=
  memmapInit [⟨0, 0x10000, .usable⟩, ⟨0x200000, 0x1FF800, .reserved⟩, ⟨0x3FF900, 0x1000, .reserved⟩]

/-- The map meets the boot loader's guarantees. -/
theorem meetingMap_bootable : meetingMap.Bootable := by
  refine ⟨?_, ?_, ?_, ?_⟩
  · simp [meetingMap, memmapInit]
  · simp only [meetingMap, memmapInit, List.take, List.pairwise_cons, List.mem_cons,
      List.not_mem_nil, or_false, forall_eq_or_imp, forall_eq, List.Pairwise.nil, and_true,
      false_imp_iff, implies_true]
    refine ⟨⟨?_, ?_⟩, ?_⟩
    all_goals
      intro _ x
      omega
  · simp [meetingMap, memmapInit]
  · exact ⟨⟨0, 0x10000, .usable⟩, by simp [meetingMap, memmapInit], rfl, by decide⟩

/-- The second of the two entries is not mapped: it starts in the huge page of the first one. -/
theorem initPmap_missesMemory :
    ∃ s₀ kernel s', initBitmapPmm meetingMap (fun _ => 0#8) = some s₀ ∧ EntriesApart meetingMap.entries ∧
      initPmap kernelAllocators hhdmOffset meetingMap (bootMachine s₀) = (some kernel, s') ∧
      ¬ Failed (bootMachine s₀) s' ∧
      ¬ ReachesMemory meetingMap.entries kernel.pageTable.pml4Phy s' := by
  obtain ⟨s₀, hinit⟩ := initBitmapPmm_isSome meetingMap_bootable (fun _ => 0#8)
  have hconcrete : ((initBitmapPmm meetingMap (fun _ => 0#8)).bind fun pages =>
      let r := initPmap kernelAllocators hhdmOffset meetingMap (bootMachine pages)
      r.1.map fun kernel => decide (¬ Failed (bootMachine pages) r.2 ∧
        translate r.2.mem kernel.pageTable.pml4Phy 0x400000 = none)) = some true := by
    decide +kernel
  rw [hinit, Option.bind_some] at hconcrete
  obtain ⟨kernel, hkernel, hcheck⟩ := Option.map_eq_some_iff.mp hconcrete
  obtain ⟨hsucc, hnone⟩ := of_decide_eq_true hcheck
  refine ⟨s₀, kernel, _, hinit, ⟨by decide, by decide⟩, Prod.ext hkernel rfl, hsucc, fun hreach => ?_⟩
  obtain ⟨⟨a, hsome⟩, -⟩ := hreach ⟨0x3FF900, 0x1000, .reserved⟩ (by decide) (by decide) 0x400000
    ⟨by decide, by decide⟩
  rw [hnone] at hsome
  cases hsome

end Flos.Mm
