import Flos.Apic.Madt

/-!
# The MADT parser stays inside its tables

What the parser reads, the elements it stores to and the counts it leaves. Two of the three arrays are
guarded by a comparison that fits their length. `parse_iso` takes one element more than there are, so
the parser stays inside exactly when the table holds no more override entries than `iso` does.
-/

namespace Flos.Apic

open Flos.Lib

/-- The parser has read and stored within bounds, and its counts fit the arrays. -/
structure StaysInside (t : Madt) (s : Parse) : Prop where
  reads : ∀ off ∈ s.reads, off < t.length
  writes : ∀ w ∈ s.writes, w.2 < w.1.size
  counts : ∀ arr, s.apic.count arr ≤ arr.size

/-- The offsets of the entries of a table. -/
def Madt.entries (t : Madt) : List ℕ :=
  recordOffsets t.entryLength entryHdrSize t.length entriesOffset

/-- An override entry that `parse_iso` keeps: long enough, and of the ISA bus. -/
def Madt.IsIso (t : Madt) (h : ℕ) : Prop :=
  t.entryType h = 2 ∧ isoSize ≤ t.entryLength h ∧ t.isoBus h = 0

instance (t : Madt) (h : ℕ) : Decidable (t.IsIso h) := inferInstanceAs (Decidable (_ ∧ _ ∧ _))

/-- The override entries of a table. -/
def Madt.isoEntries (t : Madt) : List ℕ := t.entries.filter fun h => t.IsIso h

namespace StaysInside

variable {t : Madt} {s s' : Parse} (h : StaysInside t s)

include h

/-- The elements themselves do not matter. -/
theorem congr (hreads : s'.reads = s.reads) (hwrites : s'.writes = s.writes)
    (hcount : s'.apic.count = s.apic.count) : StaysInside t s' := by
  constructor
  · rw [hreads]
    exact h.reads
  · rw [hwrites]
    exact h.writes
  · rw [hcount]
    exact h.counts

/-- A load inside the table. -/
theorem load {off n : ℕ} (hoff : off + n ≤ t.length) : StaysInside t (s.load off n) := by
  constructor
  · intro x hx
    cases List.mem_append.mp hx with
    | inl hold => exact h.reads x hold
    | inr hnew =>
      have hrange := List.mem_range'_1.mp hnew
      omega
  · exact h.writes
  · exact h.counts

/-- The next element of an array that is not full. -/
theorem takeElem {arr : ApicArray} (hroom : s.apic.count arr < arr.size) :
    StaysInside t (s.takeElem arr) := by
  constructor
  · exact h.reads
  · intro w hw
    cases List.mem_append.mp hw with
    | inl hold => exact h.writes w hold
    | inr hnew =>
      cases List.mem_singleton.mp hnew
      exact hroom
  · intro a
    simp only [Parse.takeElem]
    split
    next heq =>
      subst heq
      exact hroom
    next => exact h.counts a

end StaysInside

section Entry

variable {t : Madt} {entry : ℕ} {s : Parse}

/-- An entry that is long enough is stored to the next element, if there is one. -/
theorem parseEntry_inside {size : ℕ} {arr : ApicArray} {store : ℕ → Parse → Parse}
    (hheader : entry + entryHdrSize ≤ t.length)
    (hstore : ∀ i s, size ≤ t.entryLength entry → StaysInside t s → StaysInside t (store i s))
    (h : StaysInside t s) : StaysInside t (parseEntry t entry size arr store s) := by
  have hload : StaysInside t (s.load (entry + 1) 1) := h.load (by
    simp only [entryHdrSize] at hheader
    omega)
  unfold parseEntry
  dsimp only
  split
  next => exact hload
  next hlong =>
    split
    next => exact hload
    next hroom => exact hstore _ _ (Nat.not_lt.mp hlong) (hload.takeElem (Nat.not_le.mp hroom))

/-- An entry of another kind leaves the overrides alone. -/
theorem parseEntry_isoCount {size : ℕ} {arr : ApicArray} {store : ℕ → Parse → Parse}
    (harr : arr ≠ .iso) (hstore : ∀ i s, (store i s).apic.count = s.apic.count) (s : Parse) :
    (parseEntry t entry size arr store s).apic.count .iso = s.apic.count .iso := by
  unfold parseEntry
  dsimp only
  split
  next => rfl
  next =>
    split
    next => rfl
    next =>
      rw [hstore]
      exact if_neg harr.symm

/-- `parse_iso` counts an entry it keeps while its count is at most the length of the array. -/
theorem parseIso_isoCount (htype : t.entryType entry = 2) (s : Parse) :
    (parseIso t entry s).apic.count .iso =
      if t.IsIso entry ∧ s.apic.count .iso ≤ maxIso then s.apic.count .iso + 1
      else s.apic.count .iso := by
  unfold parseIso
  dsimp only
  split
  next hshort => exact (if_neg fun hiso => absurd hiso.1.2.1 (Nat.not_le.mpr hshort)).symm
  next hlong =>
    split
    next hbus => exact (if_neg fun hiso => hbus hiso.1.2.2).symm
    next hbus =>
      have hiso : t.IsIso entry := ⟨htype, Nat.not_lt.mp hlong, Classical.not_not.mp hbus⟩
      split
      next hfull => exact (if_neg fun hkeep => absurd hfull (Nat.not_lt.mpr hkeep.2)).symm
      next hroom => exact (if_pos ⟨hiso, Nat.not_lt.mp hroom⟩).symm

/-- `parse_iso` stays inside while an entry it keeps finds an element. -/
theorem parseIso_inside (hfit : entry + t.entryLength entry ≤ t.length)
    (hheader : entry + entryHdrSize ≤ t.length) (htype : t.entryType entry = 2)
    (hroom : t.IsIso entry → s.apic.count .iso < maxIso) (h : StaysInside t s) :
    StaysInside t (parseIso t entry s) := by
  have hload : StaysInside t (s.load (entry + 1) 1) := h.load (by
    simp only [entryHdrSize] at hheader
    omega)
  unfold parseIso
  dsimp only
  split
  next => exact hload
  next hlong =>
    simp only [isoSize] at hlong
    have hload' : StaysInside t ((s.load (entry + 1) 1).load (entry + 2) 1) :=
      hload.load (by omega)
    split
    next => exact hload'
    next hbus =>
      split
      next => exact hload'
      next =>
        have hiso : t.IsIso entry := ⟨htype, Nat.not_lt.mp hlong, Classical.not_not.mp hbus⟩
        have hroom' : ((s.load (entry + 1) 1).load (entry + 2) 1).apic.count .iso <
            ApicArray.iso.size := hroom hiso
        have htaken := hload'.takeElem hroom'
        exact (((htaken.load (by omega)).load (by omega)).load (by omega)).congr rfl rfl rfl

/-- The override count after an entry of any type. -/
theorem parseByType_isoCount (t : Madt) (entry : ℕ) (s : Parse) :
    (parseByType t entry s).apic.count .iso =
      if t.IsIso entry ∧ s.apic.count .iso ≤ maxIso then s.apic.count .iso + 1
      else s.apic.count .iso := by
  have hother : t.entryType entry ≠ 2 → (if t.IsIso entry ∧ s.apic.count .iso ≤ maxIso then
      s.apic.count .iso + 1 else s.apic.count .iso) = s.apic.count .iso :=
    fun hne => if_neg fun hiso => hne hiso.1.1
  unfold parseByType
  split
  next htype =>
    rw [hother (by omega)]
    unfold parseLapic
    apply parseEntry_isoCount
    · decide
    · exact fun _ _ => rfl
  next htype =>
    rw [hother (by omega)]
    unfold parseIoapic
    apply parseEntry_isoCount
    · decide
    · exact fun _ _ => rfl
  next htype => exact parseIso_isoCount htype s
  next htype _ _ hne => exact (hother hne).symm

/-- An entry of any type is parsed inside the table, while an override finds an element. -/
theorem parseByType_inside (hfits : RecordFits t.entryLength entryHdrSize t.length entry)
    (hroom : t.IsIso entry → s.apic.count .iso < maxIso) (h : StaysInside t s) :
    StaysInside t (parseByType t entry s) := by
  obtain ⟨hheader, -, hfit⟩ := hfits
  unfold parseByType
  split
  next =>
    apply parseEntry_inside hheader _ h
    intro i s hlong hs
    exact (((hs.load (by omega)).load (by omega)).load (by omega)).congr rfl rfl rfl
  next =>
    apply parseEntry_inside hheader _ h
    intro i s hlong hs
    exact (((hs.load (by omega)).load (by omega)).load (by omega)).congr rfl rfl rfl
  next htype => exact parseIso_inside hfit hheader htype hroom h
  next => exact h

end Entry

section Loop

variable (t : Madt) (ptr : ℕ) (s : Parse)

/-- The loop runs over the entries, one after the other. -/
theorem parseMadtLoop_fits (hfits : RecordFits t.entryLength entryHdrSize t.length ptr) :
    parseMadtLoop t ptr s = parseMadtLoop t (ptr + t.entryLength ptr)
      (parseByType t ptr ((s.load (ptr + 1) 1).load ptr 1)) := by
  obtain ⟨hheader, hlen, hend⟩ := hfits
  rw [parseMadtLoop, dif_pos hheader]
  exact (dif_neg (Nat.not_lt.mpr hlen)).trans (if_neg (Nat.not_lt.mpr hend))

/-- At the first entry that does not fit, at most its length byte is read. -/
theorem parseMadtLoop_not_fits (hfits : ¬ RecordFits t.entryLength entryHdrSize t.length ptr) :
    parseMadtLoop t ptr s = s ∨
      (ptr + entryHdrSize ≤ t.length ∧ parseMadtLoop t ptr s = s.load (ptr + 1) 1) := by
  rw [parseMadtLoop]
  by_cases hheader : ptr + entryHdrSize ≤ t.length
  · rw [dif_pos hheader]
    refine .inr ⟨hheader, ?_⟩
    by_cases hshort : t.entryLength ptr < entryHdrSize
    · exact dif_pos hshort
    · have hover : ptr + t.entryLength ptr > t.length := by
        by_contra hend
        exact hfits ⟨hheader, Nat.not_lt.mp hshort, Nat.not_lt.mp hend⟩
      exact (dif_neg hshort).trans (if_pos hover)
  · exact .inl (dif_neg hheader)

/-- The override count is that of the entries kept, up to one more than the array holds. -/
theorem parseMadtLoop_isoCount (hcount : s.apic.count .iso ≤ maxIso + 1) :
    (parseMadtLoop t ptr s).apic.count .iso =
      min (maxIso + 1) (s.apic.count .iso +
        ((recordOffsets t.entryLength entryHdrSize t.length ptr).filter fun h => t.IsIso h).length) := by
  fun_induction recordOffsets t.entryLength entryHdrSize t.length ptr generalizing s with
  | case1 ptr hfits ih =>
    have hstep := parseByType_isoCount t ptr ((s.load (ptr + 1) 1).load ptr 1)
    have hsame : ((s.load (ptr + 1) 1).load ptr 1).apic.count .iso = s.apic.count .iso := rfl
    rw [hsame] at hstep
    rw [parseMadtLoop_fits t ptr s hfits.1, ih _ (by rw [hstep]; split <;> omega), hstep,
      List.filter_cons]
    by_cases hiso : t.IsIso ptr
    · simp only [hiso, decide_true, if_true, true_and, List.length_cons]
      split <;> omega
    · simp only [hiso, decide_false, false_and, if_false, Bool.false_eq_true]
  | case2 ptr hend =>
    have hnot : ¬ RecordFits t.entryLength entryHdrSize t.length ptr := fun hfits =>
      hend ⟨hfits, by decide⟩
    cases parseMadtLoop_not_fits t ptr s hnot with
    | inl heq =>
      rw [heq]
      simp only [List.filter_nil, List.length_nil]
      omega
    | inr heq =>
      rw [heq.2]
      simp only [Parse.load, List.filter_nil, List.length_nil]
      omega

/-- The loop stays inside while the array holds the overrides that are left. -/
theorem parseMadtLoop_inside (h : StaysInside t s)
    (hroom : s.apic.count .iso +
      ((recordOffsets t.entryLength entryHdrSize t.length ptr).filter fun h => t.IsIso h).length ≤
        maxIso) : StaysInside t (parseMadtLoop t ptr s) := by
  fun_induction recordOffsets t.entryLength entryHdrSize t.length ptr generalizing s with
  | case1 ptr hfits ih =>
    obtain ⟨hheader, hlen, hend⟩ := hfits.1
    simp only [entryHdrSize] at hheader
    have hload : StaysInside t ((s.load (ptr + 1) 1).load ptr 1) :=
      (h.load (by omega)).load (by omega)
    have hstep := parseByType_isoCount t ptr ((s.load (ptr + 1) 1).load ptr 1)
    have hsame : ((s.load (ptr + 1) 1).load ptr 1).apic.count .iso = s.apic.count .iso := rfl
    rw [hsame] at hstep
    rw [List.filter_cons] at hroom
    rw [parseMadtLoop_fits t ptr s hfits.1]
    by_cases hiso : t.IsIso ptr
    · simp only [hiso, decide_true, if_true, true_and, List.length_cons] at hroom hstep
      apply ih _ (parseByType_inside hfits.1 (fun _ => by rw [hsame]; omega) hload)
      rw [hstep]
      split <;> omega
    · simp only [hiso, decide_false, false_and, if_false, Bool.false_eq_true] at hroom hstep
      apply ih _ (parseByType_inside hfits.1 (fun hiso' => absurd hiso' hiso) hload)
      rwa [hstep]
  | case2 ptr hend =>
    have hnot : ¬ RecordFits t.entryLength entryHdrSize t.length ptr := fun hfits =>
      hend ⟨hfits, by decide⟩
    cases parseMadtLoop_not_fits t ptr s hnot with
    | inl heq =>
      rw [heq]
      exact h
    | inr heq =>
      rw [heq.2]
      have hheader := heq.1
      simp only [entryHdrSize] at hheader
      exact h.load (by omega)

end Loop

/-- The parser stays inside its tables exactly when the table holds no more overrides than `iso`. -/
theorem parseMadt_staysInside_iff (t : Madt) :
    StaysInside t (parseMadt t) ↔ t.isoEntries.length ≤ maxIso := by
  constructor
  · intro h
    have hcount := parseMadtLoop_isoCount t entriesOffset ⟨ApicInfo.zero, [], []⟩ (by decide)
    have hle : (parseMadt t).apic.count .iso ≤ maxIso := h.counts .iso
    rw [parseMadt, hcount] at hle
    simp only [ApicInfo.zero, Nat.zero_add] at hle
    simp only [Madt.isoEntries, Madt.entries]
    omega
  · intro hfew
    have hzero : StaysInside t ⟨ApicInfo.zero, [], []⟩ :=
      ⟨fun _ hoff => absurd hoff List.not_mem_nil, fun _ hw => absurd hw List.not_mem_nil,
        fun _ => Nat.zero_le _⟩
    apply parseMadtLoop_inside t entriesOffset _ hzero
    rw [ApicInfo.zero, Nat.zero_add]
    exact hfew

/-- A table of 33 overrides of the ISA bus, with no field set but the types and the lengths. -/
def crowdedMadt : Madt where
  byte off :=
    if (off - entriesOffset) % isoSize = 0 then 2
    else if (off - entriesOffset) % isoSize = 1 then 10
    else 0
  length := entriesOffset + 33 * isoSize

/-- The 33rd override is stored behind the last element of `iso`. -/
theorem parseMadt_overrunsIso : (.iso, maxIso) ∈ (parseMadt crowdedMadt).writes ∧
    ¬ StaysInside crowdedMadt (parseMadt crowdedMadt) := by
  have hwrite : (ApicArray.iso, maxIso) ∈ (parseMadt crowdedMadt).writes := by decide +kernel
  exact ⟨hwrite, fun h => absurd (h.writes _ hwrite) (by decide)⟩

end Flos.Apic
