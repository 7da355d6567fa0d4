import Flos.Apic.MadtSafety
import Flos.Lib.ByteLists

/-!
# The MADT is decoded record by record

A table as a list of records, each laid out in bytes, and what the parser keeps of each. The arrays of
`apic` list the records of their kinds in table order. Every field arrives as it is in the record, but
for the GSI of an override: `struct apic_iso` holds its lowest byte only.
-/

namespace Flos.Apic

open Flos.Lib

/-- A record of another type, short enough for its length byte. -/
structure UnknownRecord where
  type : UInt8
  body : List UInt8
  type_gt : 2 < type.toNat
  body_lt : body.length < 254

/-- A record of the MADT. -/
inductive MadtRecord
  | lapic (uid id : UInt8) (flags : UInt32)
  | ioapic (id reserved : UInt8) (address gsiBase : UInt32)
  | iso (bus source : UInt8) (gsi : UInt32) (flags : UInt16)
  | unknown (record : UnknownRecord)

namespace MadtRecord

/-- The layout of a record: its type, its length and its fields. -/
def bytes : MadtRecord → List UInt8
  | lapic uid id flags => [0, 8, uid, id] ++ leBytes 4 flags.toNat
  | ioapic id reserved address gsiBase =>
    [1, 12, id, reserved] ++ leBytes 4 address.toNat ++ leBytes 4 gsiBase.toNat
  | iso bus source gsi flags => [2, 10, bus, source] ++ leBytes 4 gsi.toNat ++ leBytes 2 flags.toNat
  | unknown record => record.type :: UInt8.ofNat (record.body.length + 2) :: record.body

/-- The element of `cpus` for a record. -/
def cpu? : MadtRecord → Option ApicCpu
  | lapic uid id flags => some ⟨uid.toNat, id.toNat, flags.toNat % 2 ≠ 0⟩
  | _ => none

/-- The element of `ioapic` for a record. -/
def ioapic? : MadtRecord → Option IoapicInfo
  | ioapic id _ address gsiBase => some ⟨id.toNat, address.toNat, gsiBase.toNat⟩
  | _ => none

/-- The element of `iso` for a record, as `parse_iso` fills it. -/
def iso? : MadtRecord → Option ApicIso
  | iso bus source gsi flags =>
    if bus.toNat = 0 then some ⟨source.toNat, gsi.toNat % 256, flags.toNat % 256⟩ else none
  | _ => none

end MadtRecord

section Isa

variable {bus source : UInt8} {gsi : UInt32} {flags : UInt16}

/-- An override of the ISA bus is kept. -/
theorem MadtRecord.iso?_of_isa (h : bus.toNat = 0) : (iso bus source gsi flags).iso? =
    some ⟨source.toNat, gsi.toNat % 256, flags.toNat % 256⟩ := if_pos h

/-- An override of another bus is not. -/
theorem MadtRecord.iso?_of_not_isa (h : bus.toNat ≠ 0) : (iso bus source gsi flags).iso? = none :=
  if_neg h

end Isa

/-- What an override says: its source, its GSI, and the polarity and the trigger mode of its flags. -/
structure Override where
  source : ℕ
  gsi : ℕ
  polarity : ℕ
  trigger : ℕ
  deriving DecidableEq

/-- An element of `iso` as an override; `polarity` and `trigger` as in `parse_iso`. -/
def ApicIso.override (aiso : ApicIso) : Override :=
  ⟨aiso.sourceIrq, aiso.gsi, aiso.flags % 4, aiso.flags / 4 % 4⟩

/-- The override in a record of the ISA bus. -/
def MadtRecord.override? : MadtRecord → Option Override
  | iso bus source gsi flags =>
    if bus.toNat = 0 then some ⟨source.toNat, gsi.toNat, flags.toNat % 4, flags.toNat / 4 % 4⟩ else none
  | _ => none

/-- The table holds a list of records and nothing else. -/
structure Madt.Lists (t : Madt) (records : List MadtRecord) : Prop where
  spells : Spells t.byte entriesOffset (records.flatMap MadtRecord.bytes)
  length : t.length = entriesOffset + (records.flatMap MadtRecord.bytes).length

/-- The first `n` elements of an array. -/
def elems {α : Type*} (f : ℕ → α) (n : ℕ) : List α := (List.range n).map f

namespace ApicInfo

/-- The CPUs found. -/
def cpuList (a : ApicInfo) : List ApicCpu := elems a.cpus (a.count .cpus)

/-- The I/O APICs found. -/
def ioapicList (a : ApicInfo) : List IoapicInfo := elems a.ioapic (a.count .ioapic)

/-- The overrides found. -/
def isoList (a : ApicInfo) : List ApicIso := elems a.iso (a.count .iso)

/-- The arrays list what the parser keeps of some records, in their order. -/
structure Keeps (a : ApicInfo) (records : List MadtRecord) : Prop where
  cpus : a.cpuList = records.filterMap MadtRecord.cpu?
  ioapics : a.ioapicList = records.filterMap MadtRecord.ioapic?
  isos : a.isoList = records.filterMap MadtRecord.iso?

end ApicInfo

/-- The arrays have room for the records of their kinds. -/
structure FitsArrays (records : List MadtRecord) : Prop where
  cpus : (records.filterMap MadtRecord.cpu?).length ≤ maxCpu
  ioapics : (records.filterMap MadtRecord.ioapic?).length ≤ maxIoapic
  isos : (records.filterMap MadtRecord.iso?).length ≤ maxIso

/-- The first records of a list fit where all do. -/
theorem FitsArrays.of_append {records rest : List MadtRecord} (h : FitsArrays (records ++ rest)) :
    FitsArrays records := by
  constructor
  · exact ((List.sublist_append_left records rest).filterMap _).length_le.trans h.cpus
  · exact ((List.sublist_append_left records rest).filterMap _).length_le.trans h.ioapics
  · exact ((List.sublist_append_left records rest).filterMap _).length_le.trans h.isos

/-! ## One record -/

/-- An array with its next element stored. -/
theorem elems_store {α : Type*} (f : ℕ → α) (x : α) (n : ℕ) :
    elems (fun j => if j = n then x else f j) (n + 1) = elems f n ++ [x] := by
  have hold : ∀ j ∈ List.range n, (if j = n then x else f j) = f j :=
    fun j hj => if_neg (List.mem_range.mp hj).ne
  rw [elems, List.range_succ, List.map_append, List.map_congr_left hold, List.map_singleton,
    if_pos rfl, elems]

/-- A field of the table is the number in its bytes. -/
theorem Madt.field_eq_leNumber (t : Madt) (off n : ℕ) : t.field off n = leNumber t.byte off n := by
  induction n generalizing off with
  | zero => rfl
  | succ n ih => rw [Madt.field, ih, leNumber]

/-- A field of one byte. -/
theorem Madt.field_one {t : Madt} {off : ℕ} {b : UInt8} (h : t.byte off = b) :
    t.field off 1 = b.toNat := by
  rw [Madt.field, h, Madt.field, Nat.mul_zero, Nat.add_zero]

section Record

variable {t : Madt} {off : ℕ} {s : Parse} {done : List MadtRecord}

/-- `parse_lapic` and `parse_ioapic` store an entry that is long enough while there is an element. -/
theorem parseEntry_stores {size : ℕ} {arr : ApicArray} {store : ℕ → Parse → Parse}
    (hlong : size ≤ t.entryLength off) (hroom : s.apic.count arr < arr.size) :
    parseEntry t off size arr store s =
      store (s.apic.count arr) ((s.load (off + 1) 1).takeElem arr) := by
  rw [parseEntry]
  exact (if_neg (Nat.not_lt.mpr hlong)).trans (if_neg (Nat.not_le.mpr hroom))

/-- A LAPIC record becomes the next element of `cpus`. -/
theorem keeps_lapic {uid id : UInt8} {flags : UInt32}
    (hspells : Spells t.byte off (MadtRecord.lapic uid id flags).bytes)
    (hkeeps : s.apic.Keeps done) (hroom : s.apic.count .cpus < maxCpu) :
    (parseByType t off s).apic.Keeps (done ++ [.lapic uid id flags]) := by
  obtain ⟨htype, hlen, huid, hid, hflags⟩ := hspells
  have hflags' : t.field (off + 4) 4 = flags.toNat := by
    rw [t.field_eq_leNumber]
    exact leNumber_of_spells flags.toNat_lt hflags
  have htype' : t.entryType off = 0 := by rw [Madt.entryType, htype]; rfl
  have hlen' : t.entryLength off = 8 := by rw [Madt.entryLength, hlen]; rfl
  have hstep : parseByType t off s = parseLapic t off s := by simp only [parseByType, htype']
  rw [hstep, parseLapic, parseEntry_stores hlen'.ge hroom, Madt.field_one huid,
    Madt.field_one hid, hflags']
  constructor
  · rw [List.filterMap_append, ← hkeeps.cpus]
    exact elems_store _ _ _
  · rw [List.filterMap_append, ← hkeeps.ioapics]
    exact (List.append_nil _).symm
  · rw [List.filterMap_append, ← hkeeps.isos]
    exact (List.append_nil _).symm

/-- An I/O APIC record becomes the next element of `ioapic`. -/
theorem keeps_ioapic {id reserved : UInt8} {address gsiBase : UInt32}
    (hspells : Spells t.byte off (MadtRecord.ioapic id reserved address gsiBase).bytes)
    (hkeeps : s.apic.Keeps done) (hroom : s.apic.count .ioapic < maxIoapic) :
    (parseByType t off s).apic.Keeps (done ++ [.ioapic id reserved address gsiBase]) := by
  obtain ⟨hfront, hgsi⟩ := spells_append.mp hspells
  obtain ⟨htype, hlen, hid, -, haddress⟩ := hfront
  have haddress' : t.field (off + 4) 4 = address.toNat := by
    rw [t.field_eq_leNumber]
    exact leNumber_of_spells address.toNat_lt haddress
  have hgsi' : t.field (off + 8) 4 = gsiBase.toNat := by
    rw [t.field_eq_leNumber]
    refine leNumber_of_spells gsiBase.toNat_lt ?_
    simpa using hgsi
  have htype' : t.entryType off = 1 := by rw [Madt.entryType, htype]; rfl
  have hlen' : t.entryLength off = 12 := by rw [Madt.entryLength, hlen]; rfl
  have hstep : parseByType t off s = parseIoapic t off s := by simp only [parseByType, htype']
  rw [hstep, parseIoapic, parseEntry_stores hlen'.ge hroom, Madt.field_one hid, haddress', hgsi']
  constructor
  · rw [List.filterMap_append, ← hkeeps.cpus]
    exact (List.append_nil _).symm
  · rw [List.filterMap_append, ← hkeeps.ioapics]
    exact elems_store _ _ _
  · rw [List.filterMap_append, ← hkeeps.isos]
    exact (List.append_nil _).symm

/-- An override of the ISA bus becomes the next element of `iso`; one of another bus is left out. -/
theorem keeps_iso {bus source : UInt8} {gsi : UInt32} {flags : UInt16}
    (hspells : Spells t.byte off (MadtRecord.iso bus source gsi flags).bytes)
    (hkeeps : s.apic.Keeps done) (hroom : bus.toNat = 0 → s.apic.count .iso < maxIso) :
    (parseByType t off s).apic.Keeps (done ++ [.iso bus source gsi flags]) := by
  obtain ⟨hfront, hflags⟩ := spells_append.mp hspells
  obtain ⟨htype, hlen, hbus, hsource, hgsi⟩ := hfront
  have hgsi' : t.field (off + 4) 4 = gsi.toNat := by
    rw [t.field_eq_leNumber]
    exact leNumber_of_spells gsi.toNat_lt hgsi
  have hflags' : t.field (off + 8) 2 = flags.toNat := by
    rw [t.field_eq_leNumber]
    refine leNumber_of_spells flags.toNat_lt ?_
    simpa using hflags
  have htype' : t.entryType off = 2 := by rw [Madt.entryType, htype]; rfl
  have hlen' : t.entryLength off = 10 := by rw [Madt.entryLength, hlen]; rfl
  have hbus' : t.isoBus off = bus.toNat := Madt.field_one hbus
  have hstep : parseByType t off s = parseIso t off s := by simp only [parseByType, htype']
  rw [hstep, parseIso]
  dsimp only
  rw [if_neg (by rw [hlen']; decide), hbus']
  by_cases hzero : bus.toNat = 0
  · have hroom' : ¬ ((s.load (off + 1) 1).load (off + 2) 1).apic.count .iso > maxIso :=
      (hroom hzero).asymm
    rw [if_neg (not_not.mpr hzero), if_neg hroom', Madt.field_one hsource, hgsi', hflags']
    constructor
    · rw [List.filterMap_append, ← hkeeps.cpus]
      exact (List.append_nil _).symm
    · rw [List.filterMap_append, ← hkeeps.ioapics]
      exact (List.append_nil _).symm
    · rw [List.filterMap_append, ← hkeeps.isos, List.filterMap_cons_some (MadtRecord.iso?_of_isa hzero),
        List.filterMap_nil]
      exact elems_store _ _ _
  · rw [if_pos hzero]
    constructor
    · rw [List.filterMap_append, ← hkeeps.cpus]
      exact (List.append_nil _).symm
    · rw [List.filterMap_append, ← hkeeps.ioapics]
      exact (List.append_nil _).symm
    · rw [List.filterMap_append, ← hkeeps.isos, List.filterMap_cons_none (MadtRecord.iso?_of_not_isa hzero),
        List.filterMap_nil]
      exact (List.append_nil _).symm

/-- A record of another type is left out. -/
theorem keeps_unknown {record : UnknownRecord}
    (hspells : Spells t.byte off (MadtRecord.unknown record).bytes) (hkeeps : s.apic.Keeps done) :
    (parseByType t off s).apic.Keeps (done ++ [.unknown record]) := by
  have htype := record.type_gt
  have hstep : parseByType t off s = s := by
    have hentry : t.entryType off = record.type.toNat := congrArg UInt8.toNat hspells.1
    rw [parseByType]
    split <;> first | omega | rfl
  rw [hstep]
  constructor
  · rw [List.filterMap_append, hkeeps.cpus]
    exact (List.append_nil _).symm
  · rw [List.filterMap_append, hkeeps.ioapics]
    exact (List.append_nil _).symm
  · rw [List.filterMap_append, hkeeps.isos]
    exact (List.append_nil _).symm

/-- The number of elements used is the number of records kept. -/
theorem ApicInfo.Keeps.count (hkeeps : s.apic.Keeps done) :
    s.apic.count .cpus = (done.filterMap MadtRecord.cpu?).length ∧
      s.apic.count .ioapic = (done.filterMap MadtRecord.ioapic?).length ∧
      s.apic.count .iso = (done.filterMap MadtRecord.iso?).length := by
  rw [← hkeeps.cpus, ← hkeeps.ioapics, ← hkeeps.isos]
  simp only [ApicInfo.cpuList, ApicInfo.ioapicList, ApicInfo.isoList, elems, List.length_map,
    List.length_range, and_self]

/-- A record of any type is kept behind the ones before it, while there is room. -/
theorem keeps_parseByType {r : MadtRecord} (hspells : Spells t.byte off r.bytes)
    (hkeeps : s.apic.Keeps done) (hfits : FitsArrays (done ++ [r])) :
    (parseByType t off s).apic.Keeps (done ++ [r]) := by
  obtain ⟨hcpus, hioapics, hisos⟩ := hkeeps.count
  obtain ⟨hcpus', hioapics', hisos'⟩ := hfits
  rw [List.filterMap_append, List.length_append] at hcpus' hioapics' hisos'
  cases r with
  | lapic uid id flags =>
    refine keeps_lapic hspells hkeeps ?_
    have hone : ([.lapic uid id flags].filterMap MadtRecord.cpu?).length = 1 := rfl
    omega
  | ioapic id reserved address gsiBase =>
    refine keeps_ioapic hspells hkeeps ?_
    have hone : ([.ioapic id reserved address gsiBase].filterMap MadtRecord.ioapic?).length = 1 := rfl
    omega
  | iso bus source gsi flags =>
    refine keeps_iso hspells hkeeps fun hbus => ?_
    rw [List.filterMap_cons_some (MadtRecord.iso?_of_isa hbus), List.length_cons] at hisos'
    omega
  | unknown record => exact keeps_unknown hspells hkeeps

/-- The length byte of a record. -/
theorem entryLength_of_spells {r : MadtRecord} (hspells : Spells t.byte off r.bytes) :
    t.entryLength off = r.bytes.length ∧ entryHdrSize ≤ r.bytes.length := by
  cases r with
  | lapic => exact ⟨congrArg UInt8.toNat hspells.2.1, Nat.le_add_left 2 _⟩
  | ioapic => exact ⟨congrArg UInt8.toNat hspells.2.1, Nat.le_add_left 2 _⟩
  | iso => exact ⟨congrArg UInt8.toNat hspells.2.1, Nat.le_add_left 2 _⟩
  | unknown record =>
    have hlt := record.body_lt
    have hlen : t.entryLength off = (UInt8.ofNat (record.body.length + 2)).toNat :=
      congrArg UInt8.toNat hspells.2.1
    rw [hlen, UInt8.toNat_ofNat']
    simp only [MadtRecord.bytes, List.length_cons, entryHdrSize]
    omega

/-! ## The whole table -/

/-- The loop keeps the records that are left, in their order. -/
theorem keeps_parseMadtLoop {records : List MadtRecord}
    (hspells : Spells t.byte off (records.flatMap MadtRecord.bytes))
    (hlength : t.length = off + (records.flatMap MadtRecord.bytes).length)
    (hkeeps : s.apic.Keeps done) (hfits : FitsArrays (done ++ records)) :
    (parseMadtLoop t off s).apic.Keeps (done ++ records) := by
  induction records generalizing off s done with
  | nil =>
    have hend : ¬ off + entryHdrSize ≤ t.length := by
      rw [hlength]
      exact Nat.not_le.mpr (Nat.lt_add_of_pos_right (by decide))
    rw [parseMadtLoop, dif_neg hend, List.append_nil]
    exact hkeeps
  | cons r records ih =>
    rw [List.flatMap_cons] at hspells hlength
    obtain ⟨hfirst, hrest⟩ := spells_append.mp hspells
    obtain ⟨hlen, hheader⟩ := entryLength_of_spells hfirst
    rw [List.length_append] at hlength
    have hrecord : RecordFits t.entryLength entryHdrSize t.length off :=
      ⟨by omega, by rw [hlen]; exact hheader, by omega⟩
    rw [List.append_cons] at hfits ⊢
    rw [parseMadtLoop_fits t off s hrecord, hlen]
    exact ih hrest (by omega) (keeps_parseByType hfirst ⟨hkeeps.1, hkeeps.2, hkeeps.3⟩ hfits.of_append)
      hfits

end Record

/-- The arrays keep the records of a table, in table order. -/
theorem Madt.Lists.keeps {t : Madt} {records : List MadtRecord} (hlists : t.Lists records)
    (hfits : FitsArrays records) : (parseMadt t).apic.Keeps records :=
  @keeps_parseMadtLoop _ _ _ [] _ hlists.spells hlists.length ⟨rfl, rfl, rfl⟩ hfits

/-- What is kept of an override is what it says exactly when its GSI fits a byte. -/
theorem MadtRecord.iso?_cases (r : MadtRecord) : (r.iso? = none ∧ r.override? = none) ∨
    ∃ aiso o, r.iso? = some aiso ∧ r.override? = some o ∧ (aiso.override = o ↔ o.gsi < 256) := by
  cases r with
  | lapic => exact .inl ⟨rfl, rfl⟩
  | ioapic => exact .inl ⟨rfl, rfl⟩
  | unknown => exact .inl ⟨rfl, rfl⟩
  | iso bus source gsi flags =>
    by_cases hbus : bus.toNat = 0
    · refine .inr ⟨_, _, iso?_of_isa hbus, if_pos hbus, ?_⟩
      simp only [ApicIso.override, Override.mk.injEq, true_and]
      omega
    · exact .inl ⟨iso?_of_not_isa hbus, if_neg hbus⟩

/-- The overrides kept are those of the records exactly when their GSIs fit a byte. -/
theorem overrides_eq_iff (records : List MadtRecord) :
    (records.filterMap MadtRecord.iso?).map ApicIso.override =
        records.filterMap MadtRecord.override? ↔
      ∀ o ∈ records.filterMap MadtRecord.override?, o.gsi < 256 := by
  induction records with
  | nil => exact ⟨fun _ _ ho => absurd ho List.not_mem_nil, fun _ => rfl⟩
  | cons r records ih =>
    rcases r.iso?_cases with ⟨hiso, hover⟩ | ⟨aiso, o, hiso, hover, hsame⟩
    · rw [List.filterMap_cons_none hiso, List.filterMap_cons_none hover]
      exact ih
    · rw [List.filterMap_cons_some hiso, List.filterMap_cons_some hover, List.map_cons,
        List.cons.injEq, hsame, ih, List.forall_mem_cons]

/-- The MADT is decoded faithfully exactly when the GSI of every override of the ISA bus fits a
byte: then the arrays list the records of their kinds in table order, field by field. -/
theorem parseMadt_decodes_iff {t : Madt} {records : List MadtRecord} (hlists : t.Lists records)
    (hfits : FitsArrays records) :
    ((parseMadt t).apic.cpuList = records.filterMap MadtRecord.cpu? ∧
        (parseMadt t).apic.ioapicList = records.filterMap MadtRecord.ioapic? ∧
        (parseMadt t).apic.isoList.map ApicIso.override = records.filterMap MadtRecord.override?) ↔
      ∀ o ∈ records.filterMap MadtRecord.override?, o.gsi < 256 := by
  have hkeeps := hlists.keeps hfits
  rw [hkeeps.isos, overrides_eq_iff]
  exact ⟨fun h => h.2.2, fun h => ⟨hkeeps.cpus, hkeeps.ioapics, h⟩⟩

/-- A table that holds some records. -/
def Madt.ofRecords (records : List MadtRecord) : Madt :=
  ⟨fun off => (records.flatMap MadtRecord.bytes).getD (off - entriesOffset) 0,
    entriesOffset + (records.flatMap MadtRecord.bytes).length⟩

/-- It lists them. -/
theorem Madt.ofRecords_lists (records : List MadtRecord) : (Madt.ofRecords records).Lists records :=
  ⟨spells_getD entriesOffset [] _, rfl⟩

/-- A disabled CPU, a record of an unknown type, an I/O APIC, and the timer override of the PC. -/
def pcMadt : List MadtRecord :=
  [.lapic 0 3 0, .unknown ⟨9, [1, 2], by decide, by decide⟩, .ioapic 1 0 0xfec00000 24,
    .iso 0 0 2 13]

/-- They are decoded as they are. -/
theorem parseMadt_decodes_pcMadt :
    (parseMadt (Madt.ofRecords pcMadt)).apic.cpuList = [⟨0, 3, false⟩] ∧
      (parseMadt (Madt.ofRecords pcMadt)).apic.ioapicList = [⟨1, 0xfec00000, 24⟩] ∧
      (parseMadt (Madt.ofRecords pcMadt)).apic.isoList.map ApicIso.override = [⟨0, 2, 1, 3⟩] :=
  (parseMadt_decodes_iff (Madt.ofRecords_lists pcMadt) ⟨by decide, by decide, by decide⟩).mpr
    (by decide)

/-- An override to GSI 256 is kept as one to GSI 0. -/
theorem parseMadt_cutsGsi :
    (Madt.ofRecords [.iso 0 9 256 0]).Lists [.iso 0 9 256 0] ∧ FitsArrays [.iso 0 9 256 0] ∧
      (parseMadt (Madt.ofRecords [.iso 0 9 256 0])).apic.isoList.map ApicIso.override =
        [⟨9, 0, 0, 0⟩] ∧
      (parseMadt (Madt.ofRecords [.iso 0 9 256 0])).apic.isoList.map ApicIso.override ≠
        [MadtRecord.iso 0 9 256 0].filterMap MadtRecord.override? := by
  have hlists := Madt.ofRecords_lists [.iso 0 9 256 0]
  have hfits : FitsArrays [.iso 0 9 256 0] := ⟨by decide, by decide, by decide⟩
  have hlist : (parseMadt (Madt.ofRecords [.iso 0 9 256 0])).apic.isoList.map ApicIso.override =
      [⟨9, 0, 0, 0⟩] := by
    rw [(hlists.keeps hfits).isos]
    rfl
  refine ⟨hlists, hfits, hlist, ?_⟩
  rw [hlist]
  decide

end Flos.Apic
