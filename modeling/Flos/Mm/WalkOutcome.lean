import Flos.Mm.Holding
import Flos.Mm.PmapRange

/-!
# When a walk succeeds

A walk that may allocate stops for two reasons: a huge page is in its way, or there is no frame for a
table that is missing. Both can be read off the page table and the allocator before the walk.
-/

namespace Flos.Mm

open Flos.Lib

/-- The tables on the way to an address. -/
abbrev tablePath (addr : ℕ) : List (Fin 512) := [pml4Idx addr, pdptIdx addr, pdIdx addr]

/-- The number of tables that a walk has to allocate, if nothing is in its way. -/
def missingTables (mem : ℕ → Fin 512 → ℕ) : ℕ → List (Fin 512) → ℕ
  | _, [] => 0
  | t, i :: path =>
    match tableEntry (mem t i) with
    | some g => missingTables mem g path
    | none => path.length + 1

/-- A present entry that points to no table ends the walk: a huge page. -/
def hugeOnPath (mem : ℕ → Fin 512 → ℕ) : ℕ → List (Fin 512) → Bool
  | _, [] => false
  | t, i :: path =>
    match tableEntry (mem t i) with
    | some g => hugeOnPath mem g path
    | none => (mem t i).testBit 0

section Walk

variable {S : Type*} (A : KernelAlloc S)

/-- The next `n` frame allocations succeed. -/
def FramesAvailable : ℕ → S → Prop
  | 0, _ => True
  | n + 1, s => (A.allocPage s).1 ≠ 0 ∧ FramesAvailable n (A.allocPage s).2

instance decidableFramesAvailable : (n : ℕ) → (s : S) → Decidable (FramesAvailable A n s)
  | 0, _ => .isTrue trivial
  | n + 1, s =>
    have := decidableFramesAvailable n (A.allocPage s).2
    inferInstanceAs (Decidable (_ ∧ FramesAvailable A n (A.allocPage s).2))

variable {A} {Ok : S → Prop} {frames : S → Set ℕ} {root : ℕ}

/-- A new table has nothing below it. -/
theorem missingTables_of_empty {mem : ℕ → Fin 512 → ℕ} {t : ℕ} (hempty : ∀ i, mem t i = 0)
    (path : List (Fin 512)) : missingTables mem t path = path.length ∧ hugeOnPath mem t path = false := by
  cases path with
  | nil => exact ⟨rfl, rfl⟩
  | cons i path => simp [missingTables, hugeOnPath, hempty i]

/-- A walk ends at the huge page that is in its way. -/
theorem exists_of_hugeOnPath {mem : ℕ → Fin 512 → ℕ} {t : ℕ} {path : List (Fin 512)}
    (h : hugeOnPath mem t path = true) :
    ∃ q i r u, path = q ++ i :: r ∧ tableAt tableEntry mem t q = some u ∧
      (mem u i).testBit 0 = true ∧ tableEntry (mem u i) = none := by
  induction path generalizing t with
  | nil => cases h
  | cons i path ih =>
    rw [hugeOnPath] at h
    cases hc : tableEntry (mem t i) with
    | none =>
      rw [hc] at h
      exact ⟨[], i, path, t, rfl, rfl, h, hc⟩
    | some g =>
      rw [hc] at h
      obtain ⟨q, j, r, u, rfl, hu, hbit, hnone⟩ := ih h
      exact ⟨i :: q, j, r, u, rfl, by rw [tableAt_cons_some hc, hu], hbit, hnone⟩

/-- A walk that may allocate succeeds exactly when no huge page is in its way and there is a frame for
each missing table. A failed walk leaves its path open, and a failure without a huge page is a failed
allocation. -/
theorem descend_isSome_iff (hA : A.LawfulPages Ok frames) (path p : List (Fin 512)) (t : ℕ)
    (s : Machine S) (hlen : (p ++ path).length ≤ 3) (hs : PtState Ok frames root s)
    (ht : tableAt tableEntry s.mem root p = some t) :
    ((descend A true t path s).1.isSome ↔
      hugeOnPath s.mem t path = false ∧ FramesAvailable A (missingTables s.mem t path) s.alloc) ∧
    ((descend A true t path s).1 = none →
      tableAt tableEntry (descend A true t path s).2.mem root (p ++ path) = none ∧
        (hugeOnPath s.mem t path = false → Failed s (descend A true t path s).2)) := by
  induction path generalizing p t s with
  | nil => exact ⟨iff_of_true rfl ⟨rfl, trivial⟩, by simp [descend]⟩
  | cons i path ih =>
    have hp : p.length ≤ 2 := by
      simp only [List.length_append, List.length_cons] at hlen
      omega
    rw [List.append_cons] at hlen
    obtain ⟨⟨hs', -⟩, hnext⟩ := getNextLevel_spec hA i hs hp ht
    rw [descend, missingTables, hugeOnPath]
    rcases getNextLevel_cases A t i s with ⟨f, hf, hr⟩ | ⟨hhuge, hr⟩ | ⟨hclear, hfail, hr⟩ |
      ⟨hclear, hnew, hr⟩
    all_goals rw [hr] at hs' hnext ⊢
    · rw [hf, List.append_cons]
      exact ih (p ++ [i]) f s hlen hs' (hnext f rfl)
    · have hnone : tableEntry (s.mem t i) = none := by simp [tableEntry, hhuge.1, hhuge.2]
      rw [hnone, hhuge.1]
      exact ⟨by simp, fun _ => ⟨by rw [tableAt_append_of_some ht, tableAt_cons_none hnone], by simp⟩⟩
    · have hnone := tableEntry_of_clear hclear
      have hfail' : (A.allocPage s.alloc).1 = 0 := hfail
      rw [hnone, hclear]
      refine ⟨by simp [FramesAvailable, hfail'], fun _ => ⟨?_, fun _ => ?_⟩⟩
      · exact (tableAt_append_of_some ht _).trans (tableAt_cons_none hnone _)
      · exact Failed.of_log rfl (by simp [hfail', MemEvent.Succeeds])
    · have hnone := tableEntry_of_clear hclear
      have hnew' : (A.allocPage s.alloc).1 ≠ 0 := hnew
      have hne : t ≠ (s.allocPage A).1 := by
        rintro rfl
        exact hA.allocPage_fresh _ hs.ok hnew' (hs.table.held p _ (Nat.le_succ_of_le hp) ht)
      -- nothing is below the new table
      have hempty : ∀ j, linkTable s.mem t i (s.allocPage A).1 (s.allocPage A).1 j = 0 := fun j => by
        rw [linkTable, writeSlot_of_ne (fun h => hne h.1.symm), Function.update_self]
      obtain ⟨hmissing, hfree⟩ := missingTables_of_empty hempty path
      obtain ⟨hsome, hstop⟩ := ih (p ++ [i]) _ _ hlen hs' (hnext _ rfl)
      rw [hmissing, hfree] at hsome
      rw [hfree, ← List.append_cons] at hstop
      rw [hnone, hclear]
      refine ⟨hsome.trans ?_, fun h => ⟨(hstop h).1, fun _ => ?_⟩⟩
      · simp [FramesAvailable, hnew', Machine.allocPage]
      · exact ((hstop h).2 rfl).extend (List.prefix_append _ _) List.prefix_rfl

/-- Memories that agree along a path have the same tables missing. -/
theorem missingTables_congr {mem mem' : ℕ → Fin 512 → ℕ} {t : ℕ} {path : List (Fin 512)}
    (h : AgreeAlong tableEntry mem mem' t path) :
    missingTables mem' t path = missingTables mem t path ∧
      hugeOnPath mem' t path = hugeOnPath mem t path := by
  induction path generalizing t with
  | nil => exact ⟨rfl, rfl⟩
  | cons i path ih =>
    rw [missingTables, missingTables, hugeOnPath, hugeOnPath, h.head]
    cases hc : tableEntry (mem t i) with
    | none => exact ⟨rfl, rfl⟩
    | some g => exact ih (h.tail hc)

end Walk

end Flos.Mm
