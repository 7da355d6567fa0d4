import Flos.Sched.Scheduler
import Flos.Sched.PriorityQueue

/-!
# The balance of `preempt_count`

`schedule` counts up in the task that leaves and `__switch_to` counts down in the task that comes, new or
resumed, so a call leaves the count as it was. A task that leaves for user mode has been through
`__switch_to` already, and `ktask_execve` counts down once more.
-/

namespace Flos.Sched

open Flos.Lib
open Flos.Mm (wordSize)

/-- The calls that count: those on the scheduler, `sched_yield_preempt` and `ktask_execve`. -/
inductive PreemptOp
  | call (op : SchedOp)
  | yieldPreempt
  | execve
  deriving DecidableEq

variable {rb : RbTree} {s : SchedState rb}

/-- What `ktask_execve` does to the per-CPU variables; its address space is modelled with the others. -/
def SchedState.ktaskExecve (s : SchedState rb) : SchedState rb := s.decPreempt

/-- A call as the code runs it. -/
def PreemptOp.exec (s : SchedState rb) : PreemptOp → SchedState rb
  | .call op => op.exec s
  | .yieldPreempt => s.schedYieldPreempt
  | .execve => s.ktaskExecve

/-- The state in which `schedule` enters `__switch_to`. -/
def SchedState.atSwitch (s : SchedState rb) : SchedState rb :=
  s.placePrev.takeNext.2.updateFlags s.placePrev.takeNext.1

/-- The counts from which a call counts down, in order. -/
def countsBeforeDec (s : SchedState rb) : PreemptOp → List ℕ
  | .call (.spawn _) => []
  | .call (.wake _) => []
  | .call .schedule => [s.atSwitch.preemptCount]
  | .call .exit => [s.retire.atSwitch.preemptCount]
  | .yieldPreempt =>
    let marked := s.incPreempt.modifyTask s.current (Task.setFlags taskPreempted)
    [marked.preemptCount, marked.decPreempt.atSwitch.preemptCount]
  | .execve => [s.preemptCount]

/-- A call that never counts down from zero. -/
def CountsAboveZero (s : SchedState rb) (op : PreemptOp) : Prop := ∀ c ∈ countsBeforeDec s op, 0 < c

/-- `schedule` counts up once before it chooses. -/
theorem preemptCount_placePrev (s : SchedState rb) :
    s.placePrev.preemptCount = (s.preemptCount + 1) % wordSize := by
  have hadd : ∀ (s : SchedState rb) t, (s.addRunq t).preemptCount = s.preemptCount := by
    intro s t
    rw [SchedState.addRunq, SchedState.placeVruntime]
    split <;> rfl
  rw [SchedState.placePrev, SchedState.requeueCurrent]
  split
  next => rw [hadd]; rfl
  next => rfl

/-- `schedule` reaches `__switch_to` with a count that is one higher. -/
theorem preemptCount_atSwitch (s : SchedState rb) :
    s.atSwitch.preemptCount = (s.preemptCount + 1) % wordSize :=
  preemptCount_placePrev s

/-- `schedule` and `__switch_to` together leave the count as it was. -/
theorem preemptCount_schedule (h : s.preemptCount < wordSize) :
    s.schedule.preemptCount = s.preemptCount := by
  show (s.atSwitch.preemptCount + (wordSize - 1)) % wordSize = _
  rw [preemptCount_atSwitch]
  simp only [wordSize] at h ⊢
  omega

/-- An exit does not count. -/
theorem preemptCount_retire (s : SchedState rb) : s.retire.preemptCount = s.preemptCount := by
  rw [SchedState.retire]
  split <;> rfl

/-- A wake does not count. -/
theorem preemptCount_taskWake (s : SchedState rb) (t : TaskPtr) :
    (s.taskWake t).preemptCount = s.preemptCount := by
  rw [SchedState.taskWake]
  split
  next =>
    rw [SchedState.addRunq, SchedState.placeVruntime]
    split <;> rfl
  next => rfl

/-- From a count of zero, each call but `ktask_execve` counts down from above zero and back to zero. -/
theorem preempt_exec_of_ne (h : s.preemptCount = 0) {op : PreemptOp} (hop : op ≠ .execve) :
    CountsAboveZero s op ∧ (op.exec s).preemptCount = 0 := by
  have hswitch : ∀ s : SchedState rb, s.preemptCount = 0 →
      0 < s.atSwitch.preemptCount ∧ s.schedule.preemptCount = 0 := by
    intro s hs
    rw [preemptCount_atSwitch, preemptCount_schedule (lt_of_eq_of_lt hs (by decide)), hs]
    exact ⟨by decide, rfl⟩
  cases op with
  | call op =>
    cases op with
    | spawn t => exact ⟨fun _ hc => absurd hc List.not_mem_nil, h⟩
    | wake t =>
      exact ⟨fun _ hc => absurd hc List.not_mem_nil, (preemptCount_taskWake s t).trans h⟩
    | schedule =>
      have hs := hswitch s h
      exact ⟨fun c hc => List.mem_singleton.mp hc ▸ hs.1, hs.2⟩
    | exit =>
      have hs := hswitch s.retire ((preemptCount_retire s).trans h)
      exact ⟨fun c hc => List.mem_singleton.mp hc ▸ hs.1, hs.2⟩
  | yieldPreempt =>
    have hinc : (s.incPreempt.modifyTask s.current (Task.setFlags taskPreempted)).preemptCount = 1 := by
      show (s.preemptCount + 1) % wordSize = 1
      rw [h]
      rfl
    have hdec : (s.incPreempt.modifyTask s.current
        (Task.setFlags taskPreempted)).decPreempt.preemptCount = 0 := by
      show (_ + (wordSize - 1)) % wordSize = 0
      rw [hinc]
      rfl
    have hs := hswitch _ hdec
    refine ⟨?_, hs.2⟩
    intro c hc
    cases hc with
    | head => exact hinc ▸ Nat.one_pos
    | tail _ hc => exact List.mem_singleton.mp hc ▸ hs.1
  | execve => exact absurd rfl hop

/-- In every run from `init_scheduler`, the count is zero in every state and never goes below exactly
when no task leaves for user mode by `ktask_execve`. -/
theorem preempt_run_balanced_iff (rb : RbTree) (idle : TaskPtr) (ops : List PreemptOp) :
    (EveryState PreemptOp.exec (fun s => s.preemptCount = 0) (initScheduler rb idle) ops ∧
        EveryStep PreemptOp.exec CountsAboveZero (initScheduler rb idle) ops) ↔
      ∀ op ∈ ops, op ≠ .execve := by
  have hinit : (initScheduler rb idle).preemptCount = 0 := rfl
  generalize initScheduler rb idle = s at hinit
  induction ops generalizing s with
  | nil => exact iff_of_true ⟨hinit, trivial⟩ fun _ hop => absurd hop List.not_mem_nil
  | cons op ops ih =>
    constructor
    · intro h op' hop'
      have hop : op ≠ .execve := by
        rintro rfl
        have hpos := h.2.1 s.preemptCount (List.mem_singleton_self _)
        rw [hinit] at hpos
        exact absurd hpos (lt_irrefl 0)
      have hnext := (preempt_exec_of_ne hinit hop).2
      cases hop' with
      | head => exact hop
      | tail _ hop' => exact (ih _ hnext).mp ⟨h.1.2, h.2.2⟩ op' hop'
    · intro h
      have hop := preempt_exec_of_ne hinit (h op List.mem_cons_self)
      have hrest := (ih _ hop.2).mpr fun op' hop' => h op' (List.mem_cons_of_mem op hop')
      exact ⟨⟨hinit, hrest.1⟩, hop.1, hrest.2⟩

/-- The first user task makes the count wrap. -/
theorem ktaskExecve_wraps_preemptCount :
    ¬ (EveryState PreemptOp.exec (fun s => s.preemptCount = 0) (initScheduler spineTree idleTask)
          [.call (.spawn taskA), .call (.wake taskA), .call .schedule, .execve] ∧
        EveryStep PreemptOp.exec CountsAboveZero (initScheduler spineTree idleTask)
          [.call (.spawn taskA), .call (.wake taskA), .call .schedule, .execve]) := by
  intro h
  exact absurd h.1.last (by decide +kernel)

end Flos.Sched
