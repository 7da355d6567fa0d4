import Flos.Lib.Words

/-!
# Page sizes, rounding macros and the boot memory map

Addresses and sizes are natural numbers below `2 ^ 64`; every sum that the code forms in
64 bits is reduced explicitly. The rounding macros mask exactly as in the source, and the
lemmas restate them as division for sums that do not wrap.
-/

namespace Flos.Mm

open Flos.Lib

/-- The number of 64-bit words. -/
abbrev wordSize : ℕ := 2 ^ 64

/-- `PAGE_SIZE`. -/
abbrev pageSize : ℕ := 0x1000

/-- `PAGE_SIZE_2M`. -/
abbrev pageSize2M : ℕ := 0x200000

/-- `PAGE_SIZE_1G`. -/
abbrev pageSize1G : ℕ := 0x40000000

/-- `BYTES_TO_PAGES`. -/
def bytesToPages (bytes : ℕ) : ℕ := bytes / pageSize

/-- `ALIGN_DOWN`: clear the bits below a power-of-two alignment. -/
def alignDown (addr align : ℕ) : ℕ := addr &&& (wordSize - align)

/-- `ALIGN_UP`: the sum wraps at 64 bits before the mask is applied. -/
def alignUp (addr align : ℕ) : ℕ := (addr + align - 1) % wordSize &&& (wordSize - align)

/-- Rounding a word down to a power of two is division and multiplication. -/
theorem alignDown_two_pow {addr k : ℕ} (hk : k ≤ 64) (ha : addr < wordSize) :
    alignDown addr (2 ^ k) = addr / 2 ^ k * 2 ^ k :=
  and_bitBlock_eq hk ha

/-- Rounding a word down to a page. -/
theorem alignDown_page {addr : ℕ} (ha : addr < wordSize) :
    alignDown addr pageSize = addr / 4096 * 4096 :=
  alignDown_two_pow (k := 12) (by decide) ha

/-- Rounding down to a page yields a multiple of the page size, also beyond the words. -/
theorem dvd_alignDown_page (addr : ℕ) : 4096 ∣ alignDown addr pageSize := by
  have hmask : wordSize - pageSize = bitBlock 12 64 := by decide
  rw [Nat.dvd_iff_mod_eq_zero, alignDown, hmask]
  apply Nat.eq_of_testBit_eq
  intro i
  rw [show 4096 = 2 ^ 12 from rfl, Nat.testBit_mod_two_pow, Nat.testBit_and,
    testBit_bitBlock (by decide)]
  by_cases hi : i < 12
  · simp [hi, Nat.not_le.mpr hi]
  · simp [hi]

/-- Rounding up keeps the low bits of the wrapped sum clear. -/
theorem alignUp_two_pow (addr k : ℕ) (hk : k ≤ 64) :
    alignUp addr (2 ^ k) = (addr + 2 ^ k - 1) % wordSize / 2 ^ k * 2 ^ k :=
  and_bitBlock_eq hk (Nat.mod_lt _ (by decide))

/-- Rounding up to a page, with the wrap of the source. -/
theorem alignUp_page (addr : ℕ) :
    alignUp addr pageSize = (addr + 4095) % wordSize / 4096 * 4096 :=
  alignUp_two_pow addr 12 (by decide)

/-- Rounding up to a page when the sum stays below `2 ^ 64`. -/
theorem alignUp_page_of_lt {addr : ℕ} (ha : addr + 4095 < wordSize) :
    alignUp addr pageSize = (addr + 4095) / 4096 * 4096 := by
  rw [alignUp_page, Nat.mod_eq_of_lt ha]

/-- Rounding up to a page always yields a multiple of the page size. -/
theorem dvd_alignUp_page (addr : ℕ) : 4096 ∣ alignUp addr pageSize := by
  rw [alignUp_page]
  exact Nat.dvd_mul_left _ _

/-- A rounded word is a word. -/
theorem alignUp_page_lt (addr : ℕ) : alignUp addr pageSize < wordSize := by
  rw [alignUp_page]
  exact (Nat.div_mul_le_self _ _).trans_lt (Nat.mod_lt _ (by decide))

/-- A page-aligned word is its own rounding. -/
theorem alignUp_page_of_dvd {addr : ℕ} (ha : addr < wordSize) (hd : 4096 ∣ addr) :
    alignUp addr pageSize = addr := by
  obtain ⟨k, rfl⟩ := hd
  simp only [wordSize] at ha
  rw [alignUp_page_of_lt (by simp only [wordSize]; omega)]
  omega

/-- The `MEMMAP_*` region types; any other code is kept as a number. -/
inductive MemmapType
  | usable
  | reserved
  | acpiReclaimable
  | acpiNvs
  | badMemory
  | bootloaderReclaimable
  | executableAndModules
  | framebuffer
  | reservedMapped
  | other (code : ℕ)
  deriving DecidableEq, Repr

/-- `memory_map_entry_t`. -/
structure MemoryMapEntry where
  base : ℕ
  length : ℕ
  type : MemmapType
  deriving DecidableEq, Repr

/-- `memory_map_t`: `memmap_init` keeps at most `MAX_MEMMAP_ENTRIES` entries. -/
structure MemoryMap where
  entries : List MemoryMapEntry
  count_le : entries.length ≤ 256

/-- `memmap_init`: copy the entries, cut at the table's capacity. -/
def memmapInit (entries : List MemoryMapEntry) : MemoryMap :=
  ⟨entries.take 256, (List.length_take_le _ _)⟩

/-- Frame `p` lies wholly in a USABLE entry. -/
def MemoryMap.UsableFrame (m : MemoryMap) (p : ℕ) : Prop :=
  ∃ e ∈ m.entries, e.type = .usable ∧ e.base ≤ p * 4096 ∧ (p + 1) * 4096 ≤ e.base + e.length

end Flos.Mm
