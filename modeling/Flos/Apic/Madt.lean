import Flos.Lib.Records

/-!
# The MADT parser

`parse_madt` and the functions it calls, over a table in memory. A pointer into the table is its offset
from the table's first byte. Beside the global `apic` the parser's state records the offset of every
byte it reads and the array element it stores to, whatever the index. An element past the end of an
array is a cell of its own here: where such a store lands is a matter of the layout of `apic`.
-/

namespace Flos.Apic

/-- `MAX_CPU`. -/
abbrev maxCpu : ℕ := 256

/-- `MAX_IOAPIC`. -/
abbrev maxIoapic : ℕ := 8

/-- `MAX_ISO`. -/
abbrev maxIso : ℕ := 32

/-- `struct apic_cpu`. -/
structure ApicCpu where
  apicUid : ℕ
  apicId : ℕ
  enabled : Bool
  deriving DecidableEq

/-- `struct ioapic_info`. -/
structure IoapicInfo where
  id : ℕ
  addr : ℕ
  gsiBase : ℕ
  deriving DecidableEq

/-- `struct apic_iso`. -/
structure ApicIso where
  sourceIrq : ℕ
  gsi : ℕ
  flags : ℕ
  deriving DecidableEq

/-- The arrays of `struct apic_info`. -/
inductive ApicArray
  | ioapic
  | iso
  | cpus
  deriving DecidableEq

/-- The length of an array. -/
def ApicArray.size : ApicArray → ℕ
  | .ioapic => maxIoapic
  | .iso => maxIso
  | .cpus => maxCpu

/-- `struct apic_info`, with its three counts as one function. -/
structure ApicInfo where
  ioapic : ℕ → IoapicInfo
  iso : ℕ → ApicIso
  cpus : ℕ → ApicCpu
  count : ApicArray → ℕ

/-- The global `apic` before `parse_madt`. -/
def ApicInfo.zero : ApicInfo :=
  ⟨fun _ => ⟨0, 0, 0⟩, fun _ => ⟨0, 0, 0⟩, fun _ => ⟨0, 0, false⟩, fun _ => 0⟩

/-- `struct acpi_madt` as presented: memory from its first byte on, and `hdr.length`. -/
structure Madt where
  byte : ℕ → UInt8
  length : ℕ

/-- The parser's state: the global `apic`, the offsets of the bytes read, and the elements stored. -/
structure Parse where
  apic : ApicInfo
  reads : List ℕ
  writes : List (ApicArray × ℕ)

/-- The little-endian number in the `n` bytes at `off`. -/
def Madt.field (t : Madt) (off : ℕ) : ℕ → ℕ
  | 0 => 0
  | n + 1 => (t.byte off).toNat + 256 * t.field (off + 1) n

/-- Note a load of the `n` bytes at `off`. -/
def Parse.load (off n : ℕ) (s : Parse) : Parse :=
  { s with reads := s.reads ++ List.range' off n }

/-- `apic.xs[apic.x_count++]`: the element is taken, and will be stored to. -/
def Parse.takeElem (arr : ApicArray) (s : Parse) : Parse :=
  { s with
    apic := { s.apic with
      count := fun a => if a = arr then s.apic.count arr + 1 else s.apic.count a }
    writes := s.writes ++ [(arr, s.apic.count arr)] }

/-- `sizeof(struct acpi_entry_hdr)`. -/
abbrev entryHdrSize : ℕ := 2

/-- `h->length`. -/
def Madt.entryLength (t : Madt) (h : ℕ) : ℕ := (t.byte (h + 1)).toNat

/-- `h->type`. -/
def Madt.entryType (t : Madt) (h : ℕ) : ℕ := (t.byte h).toNat

/-- `parse_lapic` and `parse_ioapic`: an entry that is long enough goes to the next element of its
array, while there is one. -/
def parseEntry (t : Madt) (entry size : ℕ) (arr : ApicArray) (store : ℕ → Parse → Parse) (s : Parse) :
    Parse :=
  let s := s.load (entry + 1) 1
  if t.entryLength entry < size then s
  else if arr.size ≤ s.apic.count arr then s
  else store (s.apic.count arr) (s.takeElem arr)

/-- `parse_lapic`. -/
def parseLapic (t : Madt) (lapic : ℕ) : Parse → Parse :=
  parseEntry t lapic 8 .cpus fun i s =>
    let s := ((s.load (lapic + 2) 1).load (lapic + 3) 1).load (lapic + 4) 4
    { s with apic := { s.apic with
      cpus := fun j => if j = i then
        ⟨t.field (lapic + 2) 1, t.field (lapic + 3) 1, t.field (lapic + 4) 4 % 2 ≠ 0⟩
      else s.apic.cpus j } }

/-- `parse_ioapic`. -/
def parseIoapic (t : Madt) (ioapic : ℕ) : Parse → Parse :=
  parseEntry t ioapic 12 .ioapic fun i s =>
    let s := ((s.load (ioapic + 2) 1).load (ioapic + 4) 4).load (ioapic + 8) 4
    { s with apic := { s.apic with
      ioapic := fun j => if j = i then
        ⟨t.field (ioapic + 2) 1, t.field (ioapic + 4) 4, t.field (ioapic + 8) 4⟩
      else s.apic.ioapic j } }

/-- `sizeof(struct acpi_madt_interrupt_source_override)`. -/
abbrev isoSize : ℕ := 10

/-- `iso->bus`. -/
def Madt.isoBus (t : Madt) (iso : ℕ) : ℕ := t.field (iso + 2) 1

/-- `parse_iso`. The GSI and the flags are cut to a byte by their fields in `struct apic_iso`. Behind the array
lies `iso_count`, so that an element stored there also overwrites the count, which is not modelled. -/
def parseIso (t : Madt) (iso : ℕ) (s : Parse) : Parse :=
  let s := s.load (iso + 1) 1
  if t.entryLength iso < isoSize then s
  else
    let s := s.load (iso + 2) 1
    if t.isoBus iso ≠ 0 then s
    -- the sibling parsers compare with `>=`
    else if s.apic.count .iso > maxIso then s
    else
      let i := s.apic.count .iso
      let s := s.takeElem .iso
      let s := ((s.load (iso + 3) 1).load (iso + 4) 4).load (iso + 8) 2
      { s with apic := { s.apic with
        iso := fun j => if j = i then
          ⟨t.field (iso + 3) 1, t.field (iso + 4) 4 % 256, t.field (iso + 8) 2 % 256⟩
        else s.apic.iso j } }

/-- The `switch` on `h->type`. -/
def parseByType (t : Madt) (h : ℕ) (s : Parse) : Parse :=
  match t.entryType h with
  | 0 => parseLapic t h s
  | 1 => parseIoapic t h s
  | 2 => parseIso t h s
  | _ => s

/-- The `while` loop of `parse_madt` from the entry at `ptr` on. Each turn moves by at least the size
of a header, so the loop ends. -/
def parseMadtLoop (t : Madt) (ptr : ℕ) (s : Parse) : Parse :=
  if _hheader : ptr + entryHdrSize ≤ t.length then
    let s := s.load (ptr + 1) 1
    if _hshort : t.entryLength ptr < entryHdrSize then s
    else if ptr + t.entryLength ptr > t.length then s
    else parseMadtLoop t (ptr + t.entryLength ptr) (parseByType t ptr (s.load ptr 1))
  else s
termination_by t.length - ptr
decreasing_by
  simp only [entryHdrSize] at *
  omega

/-- The offset of `madt->entries`. -/
abbrev entriesOffset : ℕ := 44

/-- `parse_madt`, behind the lookup of the table. -/
def parseMadt (t : Madt) : Parse := parseMadtLoop t entriesOffset ⟨ApicInfo.zero, [], []⟩

end Flos.Apic
