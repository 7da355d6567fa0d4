import Mathlib.Data.Nat.Notation
import Mathlib.Data.Option.Basic

/-!
# Linear scans for a free index and for a run of free indices

Both scans visit `n` consecutive indices from `i` on. The single scan returns the first
free index. The run scan carries the start and the length of the free run that ends just
before `i`, resets the length at every used index, and returns the start of the first run
that reaches the requested length.
-/

namespace Flos.Lib

variable {free : ℕ → Bool}

/-- The first free index among the `n` indices from `i` on. -/
def findFree (free : ℕ → Bool) : (n i : ℕ) → Option ℕ
  | 0, _ => none
  | n + 1, i => if free i then some i else findFree free n (i + 1)

/-- The first run of `count` free indices, given the free run that ends just before `i`. -/
def findRun (free : ℕ → Bool) (count : ℕ) : (n i runStart runLength : ℕ) → Option ℕ
  | 0, _, _, _ => none
  | n + 1, i, runStart, runLength =>
    if free i then
      let runStart := if runLength = 0 then i else runStart
      let runLength := runLength + 1
      if runLength = count then some runStart
      else findRun free count n (i + 1) runStart runLength
    else findRun free count n (i + 1) runStart 0

/-- `count` consecutive free indices from `p` on. -/
def FreeRun (free : ℕ → Bool) (count p : ℕ) : Prop :=
  ∀ q, p ≤ q → q < p + count → free q = true

/-- A found index is free, inside the scanned window, and preceded by used indices only. -/
theorem findFree_some {n i p : ℕ} (h : findFree free n i = some p) :
    i ≤ p ∧ p < i + n ∧ free p = true ∧ ∀ q, i ≤ q → q < p → free q = false := by
  induction n generalizing i with
  | zero => simp [findFree] at h
  | succ n ih =>
    unfold findFree at h
    split at h
    · next hfree =>
      obtain rfl := Option.some.inj h
      exact ⟨Nat.le_refl _, by omega, hfree, fun q _ _ => by omega⟩
    · next hused =>
      obtain ⟨hlow, hhigh, hfree, hbefore⟩ := ih h
      refine ⟨by omega, by omega, hfree, fun q hq hqp => ?_⟩
      rcases Nat.eq_or_lt_of_le hq with rfl | hlt
      · simpa using hused
      · exact hbefore q hlt hqp

/-- A scan that finds nothing has seen used indices only. -/
theorem findFree_none {n i : ℕ} (h : findFree free n i = none) :
    ∀ q, i ≤ q → q < i + n → free q = false := by
  induction n generalizing i with
  | zero => intro q _ _; omega
  | succ n ih =>
    unfold findFree at h
    split at h
    · contradiction
    · next hused =>
      intro q hq hqn
      rcases Nat.eq_or_lt_of_le hq with rfl | hlt
      · simpa using hused
      · exact ih h q hlt (by omega)

/-- A scan that starts at a free index reports it. -/
theorem findFree_of_free {n i : ℕ} (hfree : free i = true) (hn : 0 < n) :
    findFree free n i = some i := by
  cases n with
  | zero => omega
  | succ n => simp [findFree, hfree]

/-- What the run counter means: the last `runLength` indices before `i` are free. -/
def RunSoFar (free : ℕ → Bool) (i runStart runLength : ℕ) : Prop :=
  runLength = 0 ∨ (runStart + runLength = i ∧ FreeRun free runLength runStart)

/-- Visiting a free index lengthens the run that the counter stands for. -/
theorem RunSoFar.extend {i runStart runLength : ℕ} (h : RunSoFar free i runStart runLength)
    (hfree : free i = true) :
    RunSoFar free (i + 1) (if runLength = 0 then i else runStart) (runLength + 1) := by
  right
  by_cases hzero : runLength = 0
  · subst hzero
    refine ⟨by simp, fun q hq hq' => ?_⟩
    simp only [↓reduceIte] at hq hq'
    obtain rfl : q = i := by omega
    exact hfree
  · rcases h with h | ⟨hend, hrun⟩
    · exact absurd h hzero
    · simp only [if_neg hzero]
      refine ⟨by omega, fun q hq hq' => ?_⟩
      by_cases hqi : q = i
      · exact hqi ▸ hfree
      · exact hrun q hq (by omega)

/-- A found run is free, long enough and inside the window, whatever run preceded it. -/
theorem findRun_some {count n i runStart runLength p : ℕ}
    (hsofar : RunSoFar free i runStart runLength)
    (h : findRun free count n i runStart runLength = some p) :
    FreeRun free count p ∧ p + count ≤ i + n ∧ i < p + count ∧ i ≤ p + runLength := by
  induction n generalizing i runStart runLength with
  | zero => simp [findRun] at h
  | succ n ih =>
    unfold findRun at h
    split at h
    · next hfree =>
      have hnext := hsofar.extend hfree
      dsimp only at h
      split at h
      · next hcount =>
        obtain rfl := Option.some.inj h
        rcases hnext with hzero | ⟨hend, hrun⟩
        · omega
        · rw [hcount] at hend hrun
          exact ⟨hrun, by omega, by omega, by omega⟩
      · obtain ⟨hrun, hhigh, hlow, hstart⟩ := ih hnext h
        exact ⟨hrun, by omega, by omega, by omega⟩
    · obtain ⟨hrun, hhigh, hlow, hstart⟩ := ih (Or.inl rfl) h
      exact ⟨hrun, by omega, by omega, by omega⟩

/-- A run scan that finds nothing proves that no long enough run ends in the window.

The counter must stand for the longest free run that ends just before `i`: any run of
`count` indices that reaches into the window starts at or after the counter's start. -/
theorem findRun_none {count n i runStart runLength low : ℕ} (hshort : runLength < count)
    (hsofar : RunSoFar free i runStart runLength)
    (hmaximal : runLength = 0 → ∀ p, low ≤ p → p < i → ¬ FreeRun free (i - p) p)
    (hmaximal' : runLength ≠ 0 → ∀ p, low ≤ p → p < runStart → ¬ FreeRun free (i - p) p)
    (h : findRun free count n i runStart runLength = none) :
    ∀ p, low ≤ p → i < p + count → p + count ≤ i + n → ¬ FreeRun free count p := by
  induction n generalizing i runStart runLength with
  | zero => intro p _ _ _; omega
  | succ n ih =>
    -- No run may start so early that the index `i` lies strictly inside it.
    have hearly : ∀ p, low ≤ p → p < i - runLength → i < p + count → ¬ FreeRun free count p := by
      intro p hp hpi hpc hrun
      have hshorter : FreeRun free (i - p) p := fun q hq hq' => hrun q hq (by omega)
      by_cases hzero : runLength = 0
      · exact hmaximal hzero p hp (by omega) hshorter
      · rcases hsofar with hz | ⟨hend, _⟩
        · exact hzero hz
        · exact hmaximal' hzero p hp (by omega) hshorter
    unfold findRun at h
    split at h
    · next hfree =>
      dsimp only at h
      split at h
      · contradiction
      · next hcount =>
        have hstart : i + 1 - (runLength + 1) = (if runLength = 0 then i else runStart) := by
          split
          · omega
          · rcases hsofar with hz | ⟨hend, _⟩
            · contradiction
            · omega
        intro p hp hpc hpn
        by_cases hlast : i + 1 < p + count
        · refine ih (by omega) (hsofar.extend hfree) (by omega) (fun _ q hq hqs hrun => ?_) h p hp
            hlast (by omega)
          rw [← hstart] at hqs
          by_cases hzero : runLength = 0
          · exact hmaximal hzero q hq (by omega) fun r hr hr' => hrun r hr (by omega)
          · rcases hsofar with hz | ⟨hend, _⟩
            · exact hzero hz
            · exact hmaximal' hzero q hq (by omega) fun r hr hr' => hrun r hr (by omega)
        · exact hearly p hp (by omega) hpc
    · next hused =>
      intro p hp hpc hpn hrun
      by_cases hpi : p ≤ i
      · exact hused (hrun i hpi hpc)
      · refine ih (by omega) (Or.inl rfl) (fun _ q hq hqi hrun => ?_) (by omega) h p hp (by omega)
          (by omega) hrun
        exact hused (hrun i (by omega) (by omega))

/-- From an empty counter, a failing run scan excludes every run inside its window. -/
theorem findRun_none_of_start {count n i runStart : ℕ} (hcount : 0 < count)
    (h : findRun free count n i runStart 0 = none) :
    ∀ p, i ≤ p → p + count ≤ i + n → ¬ FreeRun free count p := by
  intro p hp hpn
  have hnothing : 0 = 0 → ∀ q, i ≤ q → q < i → ¬ FreeRun free (i - q) q := fun _ q hq hqi => by omega
  exact findRun_none hcount (Or.inl rfl) hnothing (by simp) h p hp (by omega) hpn

/-- A run scan that is inside a long enough free run reports the start of that run. -/
theorem findRun_of_freeRun {count n k p : ℕ} (hrun : FreeRun free count p) (hk : k < count)
    (hn : count ≤ k + n) : findRun free count n (p + k) p k = some p := by
  induction n generalizing k with
  | zero => omega
  | succ n ih =>
    have hfree : free (p + k) = true := hrun (p + k) (by omega) (by omega)
    have hstart : (if k = 0 then p + k else p) = p := by split <;> omega
    simp only [findRun, hfree, ↓reduceIte, hstart]
    split
    · rfl
    · next hcount => exact ih (k := k + 1) (by omega) (by omega)

end Flos.Lib
