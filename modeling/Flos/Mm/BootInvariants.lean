import Flos.Mm.BootMappings
import Flos.Mm.SmallPages
import Flos.Mm.VmMapSearch

/-!
# What the boot mappings keep

A property of the kernel's page table that every boot mapping of an entry keeps holds after `init_pmap` if
it holds of an empty table. A boot mapping overlays pages at one of the two places only, whatever else the
memory map contains.
-/

namespace Flos.Mm

open Flos.Lib

variable {S : Type*} {A : KernelAlloc S} {Ok : S → Prop} {frames : S → Set ℕ} {root : ℕ}
  {s : Machine S}

/-- The boot mapping of an entry overlays some of its pages, from the first one on, and blocks nothing
outside. -/
theorem mapEntry_overlay (hA : A.LawfulPages Ok frames) {off : ℕ} {e : MemoryMapEntry}
    (hs : PtState Ok frames root s) (hoff : BootOffset off) (hend : e.base + e.length ≤ 2 ^ 46) :
    ∃ m s', mapEntry A root off e s = (m, s') ∧
      (e.base + off) / 4096 * 4096 + m ≤ pageCeil (e.base + off + e.length) ∧
      PtState Ok frames root s' ∧
      Overlay s.mem s'.mem root ((e.base + off) / 4096 * 4096) (e.base / 4096 * 4096) m
        (flagsAccess bootFlags) ∧
      ∀ va, Canonical va → (e.base + off) / 4096 * 4096 > va ∨ pageCeil (e.base + off + e.length) ≤ va →
        (Blocked s'.mem root va ↔ Blocked s.mem root va) := by
  have hroom := hoff.room.2
  simp only [InOneHalf] at hroom
  have hvirt : e.base + off < wordSize := by
    simp only [wordSize]
    omega
  have hhalf : InOneHalf (e.base + off) e.length := by
    simp only [InOneHalf]
    omega
  have hphys : e.base / 4096 * 4096 +
      (pageCeil (e.base + off + e.length) - (e.base + off) / 4096 * 4096) ≤ 2 ^ 52 := by
    simp only [pageCeil]
    omega
  have hstart : (e.base + off) / 4096 * 4096 ≤ pageCeil (e.base + off + e.length) :=
    (Nat.div_mul_le_self _ _).trans ((Nat.le_add_right _ _).trans (le_pageCeil _))
  obtain ⟨m, s', hrun, hm, hs', hover, hblocked⟩ :=
    pmapMapRange_overlay hA hvirt hhalf hphys bootFlags hs
  exact ⟨m, s', hrun, Nat.add_le_of_le_sub' hstart hm, hs', hover, hblocked⟩

/-- What every boot mapping of an entry keeps, the loop over the memory map keeps. -/
theorem mapMemory_keeps {P : Machine S → Prop} {entries : List MemoryMapEntry}
    (hlow : ∀ e ∈ entries, e.base + e.length ≤ 2 ^ 46)
    (hentry : ∀ off e s, BootOffset off → e.base + e.length ≤ 2 ^ 46 → P s →
      P (mapEntry A root off e s).2) (hs : P s) : P (mapMemory A hhdmOffset root entries s) := by
  induction entries generalizing s with
  | nil => exact hs
  | cons e rest ih =>
    have hend := hlow e List.mem_cons_self
    have hrest := fun k hk => hlow k (List.mem_cons_of_mem e hk)
    have hvirt : (e.base + hhdmOffset) % wordSize = e.base + hhdmOffset := by
      simp only [hhdmOffset, wordSize]
      omega
    rw [mapMemory]
    split
    · exact ih hrest hs
    · rw [hvirt]
      exact ih hrest (hentry hhdmOffset e _ (.inr rfl) hend (hentry 0 e _ (.inl rfl) hend hs))

/-- What holds of an empty table and is kept by every boot mapping of an entry holds after `init_pmap`. -/
theorem initPmap_keeps {objects : CacheName → S → Set ℕ} (hA : A.Lawful Ok frames objects)
    {P : ℕ → Machine S → Prop} {map : MemoryMap} {kernel : VmMap} {s' : Machine S} (hok : Ok s.alloc)
    (hlow : ∀ e ∈ map.entries, e.base + e.length ≤ 2 ^ 46)
    (hinit : initPmap A hhdmOffset map s = (some kernel, s'))
    (hempty : ∀ root s, PtState Ok frames root s → (∀ i, s.mem root i = 0) → P root s)
    (hentry : ∀ root off e s, BootOffset off → e.base + e.length ≤ 2 ^ 46 → P root s →
      P root (mapEntry A root off e s).2) : P kernel.pageTable.pml4Phy s' := by
  rw [initPmap] at hinit
  rcases hcreate : vmMapCreate A none s with ⟨_ | space, s₁⟩
  all_goals rw [hcreate] at hinit
  · cases hinit
  · cases hinit
    obtain ⟨hstate, hzero⟩ := vmMapCreate_none_empty hA hok hcreate
    exact mapMemory_keeps hlow (hentry _) (hempty _ _ hstate hzero)

end Flos.Mm
