import Flos.Mm.Firmware

/-!
# What all mappings keep

The mapping routines change a page table in two ways only: a walk links a new table into a slot
that is not present, and an entry that ends the walk is written behind it. A property that both
keep is kept by mapping any range, whatever the addresses, the flags and the outcome of the
allocations. A property that only last entries of a kind keep is kept where the addresses and the
flags make entries of that kind.
-/

namespace Flos.Mm

open Flos.Lib

/-- A property that linking tables and writing last entries of a kind keeps. -/
structure EntryInvariant {S : Type*} (A : KernelAlloc S) (root : ℕ) (kind : ℕ → Prop)
    (P : Machine S → Prop) : Prop where
  level : ∀ p i t s, p.length ≤ 2 → P s → tableAt tableEntry s.mem root p = some t →
    P (getNextLevel A t i true s).2 ∧ ∀ g, (getNextLevel A t i true s).1 = some g →
      tableAt tableEntry (getNextLevel A t i true s).2.mem root (p ++ [i]) = some g
  leaf : ∀ p i t e s, kind e → 1 ≤ p.length → p.length ≤ 3 → tableEntry e = none ∨ p.length = 3 →
    P s → tableAt tableEntry s.mem root p = some t → P ⟨writeSlot s.mem t i e, s.alloc, s.log⟩

/-- A property that linking tables and writing last entries keeps. -/
structure MapInvariant {S : Type*} (A : KernelAlloc S) (root : ℕ) (P : Machine S → Prop) :
    Prop where
  level : ∀ p i t s, p.length ≤ 2 → P s → tableAt tableEntry s.mem root p = some t →
    P (getNextLevel A t i true s).2 ∧ ∀ g, (getNextLevel A t i true s).1 = some g →
      tableAt tableEntry (getNextLevel A t i true s).2.mem root (p ++ [i]) = some g
  leaf : ∀ p i t e s, 1 ≤ p.length → p.length ≤ 3 → tableEntry e = none ∨ p.length = 3 → P s →
    tableAt tableEntry s.mem root p = some t → P ⟨writeSlot s.mem t i e, s.alloc, s.log⟩

/-- The entries that a mapping with these flags makes for the addresses of a set are of a kind, and the
set contains the address of the next page with an address. -/
structure MakesEntries (kind addrs : ℕ → Prop) (archFlags : ℕ) : Prop where
  small : ∀ phys, addrs phys → kind (phys ||| archFlags)
  huge : ∀ phys, addrs phys → kind (phys ||| (archFlags ||| pdePs))
  next : ∀ phys n, addrs phys → 4096 ∣ n → addrs ((phys + n) % wordSize)

/-- Any entry is an entry. -/
theorem makesEntries_true (archFlags : ℕ) :
    MakesEntries (fun _ => True) (fun _ => True) archFlags :=
  ⟨fun _ _ => trivial, fun _ _ => trivial, fun _ _ _ _ => trivial⟩

namespace EntryInvariant

variable {S : Type*} {A : KernelAlloc S} {root : ℕ} {kind addrs : ℕ → Prop} {P : Machine S → Prop}
  {s : Machine S} (h : EntryInvariant A root kind P)

include h

/-- A walk keeps it and ends in the table at its path. -/
theorem descend (path p : List (Fin 512)) (t : ℕ) (hlen : (p ++ path).length ≤ 3) (hs : P s)
    (ht : tableAt tableEntry s.mem root p = some t) :
    P (descend A true t path s).2 ∧ ∀ g, (descend A true t path s).1 = some g →
      tableAt tableEntry (descend A true t path s).2.mem root (p ++ path) = some g := by
  induction path generalizing p t s with
  | nil => exact ⟨hs, by simpa [Mm.descend] using ht⟩
  | cons j path ih =>
    rw [List.append_cons] at hlen ⊢
    have hp : p.length ≤ 2 := by
      simp only [List.length_append, List.length_singleton] at hlen
      omega
    obtain ⟨hs', hnext⟩ := h.level p j t s hp hs ht
    rw [Mm.descend]
    rcases hr : getNextLevel A t j true s with ⟨_ | g, s'⟩
    · rw [hr] at hs'
      exact ⟨hs', by simp⟩
    · rw [hr] at hs' hnext
      exact ih (p ++ [j]) g hlen hs' (hnext g rfl)

/-- Writing a leaf of the kind keeps it. -/
theorem mapLeaf {path : List (Fin 512)} (index : Fin 512) {entry : ℕ} (size : ℕ)
    (hkind : kind entry) (hpos : 1 ≤ path.length) (hlen : path.length ≤ 3)
    (hend : tableEntry entry = none ∨ path.length = 3) (hs : P s) :
    P (mapLeaf A root path index entry size s).2 := by
  obtain ⟨hwalk, hreach⟩ := h.descend path [] root hlen hs rfl
  rw [Mm.mapLeaf]
  rcases hr : Mm.descend A true root path s with ⟨_ | t, s'⟩
  · rwa [hr] at hwalk
  · rw [hr] at hwalk hreach
    exact h.leaf path index t entry s' hkind hpos hlen hend hwalk (hreach t rfl)

/-- Mapping one page keeps it. -/
theorem map {virt phys archFlags : ℕ} (hkind : kind (phys ||| archFlags)) (hs : P s) :
    P (map A root virt phys archFlags s).2 :=
  h.mapLeaf _ _ hkind (by simp) (by simp) (.inr rfl) hs

omit h in
/-- An entry with the page-size bit ends the walk. -/
theorem tableEntry_pageSize (phys archFlags : ℕ) :
    tableEntry (phys ||| (archFlags ||| pdePs)) = none := by
  simp [tableEntry, Nat.testBit_or, show pdePs.testBit 7 = true by decide]

/-- An iteration of `pmap_map_range` keeps it. -/
theorem mapStep {flags archFlags phys : ℕ} (virt remain : ℕ)
    (hmakes : MakesEntries kind addrs archFlags) (hphys : addrs phys) (hs : P s) :
    P (mapStep A root flags archFlags virt phys remain s).2 := by
  have hsmall := hmakes.small phys hphys
  have hhuge := hmakes.huge phys hphys
  rw [Mm.mapStep]
  split
  · rw [mapHugeOk]
    split
    · exact h.mapLeaf _ _ hhuge (by simp) (by simp) (.inl (tableEntry_pageSize _ _)) hs
    · split
      · exact h.mapLeaf _ _ hhuge (by simp) (by simp) (.inl (tableEntry_pageSize _ _)) hs
      · exact h.map hsmall hs
  · exact h.map hsmall hs

/-- The loop of `pmap_map_range` keeps it. -/
theorem mapRangeLoop {flags archFlags phys : ℕ} (fuel virt remain mapped : ℕ)
    (hmakes : MakesEntries kind addrs archFlags) (hphys : addrs phys) (hs : P s) :
    P (mapRangeLoop A root flags archFlags fuel virt phys remain mapped s).2 := by
  induction fuel generalizing virt phys remain mapped s with
  | zero => exact hs
  | succ fuel ih =>
    have hstep : P (Mm.mapStep A root flags archFlags virt phys remain s).2 :=
      h.mapStep virt remain hmakes hphys hs
    rw [mapRangeLoop_succ]
    split
    next => exact hs
    next =>
      split
      next => exact hstep
      next =>
        exact ih _ _ _ (hmakes.next _ _ hphys
          (dvd_mapStep A root flags archFlags virt phys remain s)) hstep

/-- Mapping a range keeps it. -/
theorem pmapMapRange {phys flags : ℕ} (virt len : ℕ)
    (hmakes : MakesEntries kind addrs (parseCommonFlags flags))
    (hphys : addrs (alignDown phys pageSize)) (hs : P s) :
    P (pmapMapRange A root virt phys flags len s).2 :=
  h.mapRangeLoop _ _ _ _ hmakes hphys hs

/-- Mapping the memory of the boot map keeps it. -/
theorem mapMemory (hhdm : ℕ) {entries : List MemoryMapEntry}
    (hmakes : MakesEntries kind addrs
      (parseCommonFlags (mmuFlagWrite ||| mmuFlagNoExec ||| mmuFlagHugeOk)))
    (hphys : ∀ e ∈ entries, addrs (alignDown e.base pageSize)) (hs : P s) :
    P (mapMemory A hhdm root entries s) := by
  induction entries generalizing s with
  | nil => exact hs
  | cons e rest ih =>
    have hrest := fun k hk => hphys k (List.mem_cons_of_mem e hk)
    have hbase := hphys e List.mem_cons_self
    rw [Mm.mapMemory]
    split
    · exact ih hrest hs
    · exact ih hrest (h.pmapMapRange _ _ hmakes hbase (h.pmapMapRange _ _ hmakes hbase hs))

end EntryInvariant

namespace MapInvariant

variable {S : Type*} {A : KernelAlloc S} {root : ℕ} {P : Machine S → Prop} {s : Machine S}
  (h : MapInvariant A root P)

include h

/-- A property that any last entry keeps. -/
theorem toEntryInvariant : EntryInvariant A root (fun _ => True) P :=
  ⟨h.level, fun p i t e s _ => h.leaf p i t e s⟩

/-- A walk keeps it and ends in the table at its path. -/
theorem descend (path p : List (Fin 512)) (t : ℕ) (hlen : (p ++ path).length ≤ 3) (hs : P s)
    (ht : tableAt tableEntry s.mem root p = some t) :
    P (descend A true t path s).2 ∧ ∀ g, (descend A true t path s).1 = some g →
      tableAt tableEntry (descend A true t path s).2.mem root (p ++ path) = some g :=
  h.toEntryInvariant.descend path p t hlen hs ht

/-- Mapping one page keeps it. -/
theorem map (virt phys archFlags : ℕ) (hs : P s) : P (map A root virt phys archFlags s).2 :=
  h.toEntryInvariant.map trivial hs

/-- Mapping a range keeps it. -/
theorem pmapMapRange (virt phys flags len : ℕ) (hs : P s) :
    P (pmapMapRange A root virt phys flags len s).2 :=
  h.toEntryInvariant.pmapMapRange _ _ (makesEntries_true _) trivial hs

/-- Mapping a page keeps it. -/
theorem pmapMapPage (virt phys flags : ℕ) (hs : P s) :
    P (pmapMapPage A root virt phys flags s).2 :=
  h.map _ _ _ hs

/-- Mapping the memory of the boot map keeps it. -/
theorem mapMemory (hhdm : ℕ) (entries : List MemoryMapEntry) (hs : P s) :
    P (mapMemory A hhdm root entries s) :=
  h.toEntryInvariant.mapMemory _ (makesEntries_true _) (fun _ _ => trivial) hs

end MapInvariant

end Flos.Mm
