import Mathlib.Order.Monotone.Basic
import Mathlib.Data.Nat.Bitwise

/-!
# Sleeping on the interval timer

`pit_sleep` programs channel 0 as a rate generator with the longest count it can write, `0xFFFF`, and
adds up the differences of successive readings. The counter runs from `0xFFFF` down to `1` and is then
reloaded, so a period has `0xFFFF` ticks. The branch for a reload between two readings counts as if the
period had one tick more.
-/

namespace Flos.Pic

/-- `PIT_FREQUENCY`. -/
def pitFrequency : ℕ := 1193182

/-- The value that `pit_sleep` loads into the counter. -/
def pitReload : ℕ := 0xFFFF

/-- The counter of channel 0 in mode 2, `tick` ticks after it was loaded. -/
def pitCounter (tick : ℕ) : ℕ := pitReload - tick % pitReload

/-- `pit_read_counter`: the latched counter is read low byte first and put together again. -/
def pitReadCounter (latched : ℕ) : ℕ :=
  let lo := latched % 2 ^ 8
  let hi := latched / 2 ^ 8 % 2 ^ 8
  (hi <<< 8 ||| lo) % 2 ^ 16

/-- The local variables of the loop in `pit_sleep`. -/
structure PitSleep where
  accumulatedTicks : ℕ
  lastTick : ℕ

/-- `target_ticks` of `pit_sleep`. -/
def pitTargetTicks (ms : ℕ) : ℕ := pitFrequency * ms % 2 ^ 64 / 1000

/-- The body of the loop in `pit_sleep`, which reads `currentTick`. -/
def pitSleepBody (currentTick : ℕ) (s : PitSleep) : PitSleep :=
  { accumulatedTicks :=
      (s.accumulatedTicks +
        if currentTick ≤ s.lastTick then s.lastTick - currentTick
        else s.lastTick + (0xFFFF - currentTick) + 1) % 2 ^ 64
    lastTick := currentTick }

/-- The loop of `pit_sleep` after `k` iterations, when reading `i` is taken at tick `tick i`. -/
def pitSleepAfter (tick : ℕ → ℕ) : ℕ → PitSleep
  | 0 => ⟨0, pitReadCounter (pitCounter (tick 0))⟩
  | k + 1 => pitSleepBody (pitReadCounter (pitCounter (tick (k + 1)))) (pitSleepAfter tick k)

/-- The condition of the loop holds before each of the first `k` iterations, so `pit_sleep` performs
them. -/
def PitSleeps (ms : ℕ) (tick : ℕ → ℕ) (k : ℕ) : Prop :=
  ∀ j < k, (pitSleepAfter tick j).accumulatedTicks < pitTargetTicks ms

/-- The ticks at which the counter is read: they do not decrease, and successive ones lie less than a
period apart. -/
structure Readings where
  tick : ℕ → ℕ
  mono : Monotone tick
  gap : ∀ k, tick (k + 1) < tick k + pitReload

/-- The ticks since the first reading. -/
def Readings.elapsed (r : Readings) (k : ℕ) : ℕ := r.tick k - r.tick 0

/-- How often the counter was reloaded since the first reading. -/
def Readings.reloads (r : Readings) (k : ℕ) : ℕ :=
  r.tick k / pitReload - r.tick 0 / pitReload

/-- `pit_sleep` measures the elapsed time: after each iteration the accumulated ticks are those since
the first reading, and the loop ends only once the requested number has passed. -/
structure MeasuresElapsed (ms : ℕ) (r : Readings) : Prop where
  accumulated : ∀ k, PitSleeps ms r.tick k →
    (pitSleepAfter r.tick k).accumulatedTicks = r.elapsed k
  ends : ∀ k, PitSleeps ms r.tick k →
    pitTargetTicks ms ≤ (pitSleepAfter r.tick k).accumulatedTicks →
      pitFrequency * ms / 1000 ≤ r.elapsed k

/-- The two bytes of a counter value give it back. -/
theorem pitReadCounter_eq {latched : ℕ} (h : latched < 2 ^ 16) : pitReadCounter latched = latched := by
  have hlo : latched % 2 ^ 8 < 2 ^ 8 := Nat.mod_lt _ (by decide)
  rw [pitReadCounter, ← Nat.shiftLeft_add_eq_or_of_lt hlo, Nat.shiftLeft_eq]
  omega

/-- The value of a reading. -/
theorem pitReadCounter_pitCounter (tick : ℕ) :
    pitReadCounter (pitCounter tick) = pitReload - tick % pitReload :=
  pitReadCounter_eq (Nat.lt_of_le_of_lt (Nat.sub_le _ _) (by decide))

/-- The last reading that the loop keeps. -/
theorem pitSleepAfter_lastTick (tick : ℕ → ℕ) (k : ℕ) :
    (pitSleepAfter tick k).lastTick = pitReload - tick k % pitReload := by
  cases k <;> exact pitReadCounter_pitCounter _

/-- The requested number of ticks is far below `2 ^ 64`. -/
theorem pitTargetTicks_eq {ms : ℕ} (hms : ms < 2 ^ 32) :
    pitTargetTicks ms = pitFrequency * ms / 1000 := by
  rw [pitTargetTicks, Nat.mod_eq_of_lt (by simp only [pitFrequency]; omega)]

/-- An iteration adds the ticks since the last reading, and one more when the counter was reloaded in
between. -/
theorem pitSleepBody_accumulated {last current : ℕ} {s : PitSleep} (hle : last ≤ current)
    (hgap : current < last + pitReload) (hlast : s.lastTick = pitReload - last % pitReload)
    (hacc : s.accumulatedTicks < 2 ^ 63) :
    (pitSleepBody (pitReadCounter (pitCounter current)) s).accumulatedTicks =
      s.accumulatedTicks + (current - last) + (current / pitReload - last / pitReload) := by
  rw [pitSleepBody, hlast, pitReadCounter_pitCounter]
  by_cases hreload : pitReload - current % pitReload ≤ pitReload - last % pitReload
  · rw [if_pos hreload]
    simp only [pitReload] at *
    omega
  · rw [if_neg hreload]
    simp only [pitReload] at *
    omega

/-- The loop counts the elapsed ticks and the reloads. -/
theorem pitSleepAfter_accumulated {ms : ℕ} (hms : ms < 2 ^ 32) (r : Readings) {k : ℕ}
    (hk : PitSleeps ms r.tick k) :
    (pitSleepAfter r.tick k).accumulatedTicks = r.elapsed k + r.reloads k := by
  induction k with
  | zero => simp [pitSleepAfter, Readings.elapsed, Readings.reloads]
  | succ k ih =>
    have hih := ih fun j hj => hk j (Nat.lt_succ_of_lt hj)
    have hlt := hk k (Nat.lt_succ_self k)
    have htarget : pitTargetTicks ms < 2 ^ 63 := by
      rw [pitTargetTicks_eq hms]
      simp only [pitFrequency]
      omega
    have hle : r.tick k ≤ r.tick (k + 1) := r.mono (Nat.le_succ k)
    have hzero : r.tick 0 ≤ r.tick k := r.mono (Nat.zero_le k)
    rw [pitSleepAfter, pitSleepBody_accumulated hle (r.gap k) (pitSleepAfter_lastTick r.tick k)
      (hlt.trans htarget), hih]
    simp only [Readings.elapsed, Readings.reloads, pitReload]
    omega

/-- No reload falls between the first reading and one that is taken while the requested time has not
passed, or is the first one after it. -/
def SleepsWithinPeriod (ms : ℕ) (r : Readings) : Prop :=
  ∀ k, (∀ j < k, r.elapsed j < pitFrequency * ms / 1000) →
    r.tick k / pitReload = r.tick 0 / pitReload

/-- The loop performs an iteration whenever the requested time has not passed, as long as it counts the
elapsed ticks. -/
theorem pitSleeps_of_elapsed {ms : ℕ} (hms : ms < 2 ^ 32) {r : Readings} {k : ℕ}
    (hacc : ∀ j < k, PitSleeps ms r.tick j →
      (pitSleepAfter r.tick j).accumulatedTicks = r.elapsed j)
    (hk : ∀ j < k, r.elapsed j < pitFrequency * ms / 1000) : PitSleeps ms r.tick k := by
  intro j
  induction j using Nat.strong_induction_on with
  | _ j ih =>
    intro hj
    rw [hacc j hj fun i hi => ih i hi (hi.trans hj), pitTargetTicks_eq hms]
    exact hk j hj

/-- `pit_sleep` measures the elapsed time exactly when the counter is never reloaded between the first
reading and a later one of the sleep. -/
theorem pitSleep_measuresElapsed_iff {ms : ℕ} (hms : ms < 2 ^ 32) (r : Readings) :
    MeasuresElapsed ms r ↔ SleepsWithinPeriod ms r := by
  constructor
  · intro h k hk
    have hsleeps := pitSleeps_of_elapsed hms (fun j _ => h.accumulated j) hk
    have hcount := pitSleepAfter_accumulated hms r hsleeps
    have hdiv : r.tick 0 / pitReload ≤ r.tick k / pitReload :=
      Nat.div_le_div_right (r.mono (Nat.zero_le k))
    rw [h.accumulated k hsleeps, Readings.reloads] at hcount
    omega
  · intro h
    have hacc : ∀ k, PitSleeps ms r.tick k →
        (pitSleepAfter r.tick k).accumulatedTicks = r.elapsed k := by
      intro k hk
      have hreloads : r.reloads k = 0 := by
        rw [Readings.reloads, h k fun j hj => ?_, Nat.sub_self]
        -- the accumulated ticks are at least the elapsed ones
        have hlt := hk j hj
        rw [pitSleepAfter_accumulated hms r fun i hi => hk i (hi.trans hj),
          pitTargetTicks_eq hms] at hlt
        omega
      rw [pitSleepAfter_accumulated hms r hk, hreloads, Nat.add_zero]
    refine ⟨hacc, fun k hk htarget => ?_⟩
    rwa [hacc k hk, pitTargetTicks_eq hms] at htarget

/-- Readings `300` ticks apart up to `1200`, all in one period. -/
def sleepOneMillisecond : Readings where
  tick k := min (300 * k) 1200
  mono := monotone_nat_of_le_succ fun k => by omega
  gap k := by simp only [pitReload]; omega

/-- A sleep of one millisecond that needs four readings measures the elapsed time. -/
theorem pitSleep_measuresElapsed_oneMillisecond :
    PitSleeps 1 sleepOneMillisecond.tick 4 ∧
      pitTargetTicks 1 ≤ (pitSleepAfter sleepOneMillisecond.tick 4).accumulatedTicks ∧
      MeasuresElapsed 1 sleepOneMillisecond := by
  have hsleeps : PitSleeps 1 sleepOneMillisecond.tick 4 := by
    unfold PitSleeps
    decide +kernel
  refine ⟨hsleeps, by decide +kernel, (pitSleep_measuresElapsed_iff (by decide) sleepOneMillisecond).mpr ?_⟩
  intro k _
  simp only [sleepOneMillisecond, pitReload]
  omega

/-- Readings `60000` ticks apart, then `5624`, with a reload between the last two. -/
def sleepOverReload : Readings where
  tick k := if k = 0 then 0 else if k = 1 then 60000 else 65624
  mono := monotone_nat_of_le_succ fun k => by grind
  gap k := by grind [pitReload]

/-- Over a reload the loop ends one tick early, after `65624` of the `65625` ticks of 55 milliseconds. -/
theorem pitSleep_endsEarly :
    PitSleeps 55 sleepOverReload.tick 2 ∧
      pitTargetTicks 55 ≤ (pitSleepAfter sleepOverReload.tick 2).accumulatedTicks ∧
      sleepOverReload.elapsed 2 < pitFrequency * 55 / 1000 ∧
      ¬ MeasuresElapsed 55 sleepOverReload := by
  have hsleeps : PitSleeps 55 sleepOverReload.tick 2 := by
    unfold PitSleeps
    decide +kernel
  have hends : pitTargetTicks 55 ≤ (pitSleepAfter sleepOverReload.tick 2).accumulatedTicks := by
    decide +kernel
  have hearly : sleepOverReload.elapsed 2 < pitFrequency * 55 / 1000 := by decide +kernel
  exact ⟨hsleeps, hends, hearly, fun h => (Nat.not_le.mpr hearly) (h.ends 2 hsleeps hends)⟩

end Flos.Pic
