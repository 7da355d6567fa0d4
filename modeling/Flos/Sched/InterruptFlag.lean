import Flos.Interrupts.Entry
import Flos.Sched.Scheduler
import Flos.Sched.PriorityQueue

/-!
# The interrupt flag across switches

The interrupt entry saves `RFLAGS` and `iretq` restores it, and a new task sets the flag in
`__kfork_return`. `__switch_to` saves and restores nothing of it: a task that left by a call of `schedule`
continues with the flag of whoever left last.
-/

namespace Flos.Sched

open Flos.Lib

/-- How a task left the CPU: it has not run yet, it called `schedule`, the timer interrupted it while the
flag had this value, or it exits in the handler of its page fault. -/
inductive Departure
  | fresh
  | voluntary
  | interrupted (flag : Bool)
  | faulted
  deriving DecidableEq

/-- The scheduler with the interrupt flag of the CPU and how each task left it last. -/
structure CpuState (rb : RbTree) where
  sched : SchedState rb
  interrupts : Bool
  left : TaskPtr → Departure

variable {rb : RbTree} {c : CpuState rb}

/-- What can happen to the CPU: calls in task code, the timer interrupt, and a page fault that ends the
task. -/
inductive CpuOp
  | spawn (t : TaskPtr)
  | wake (t : TaskPtr)
  | yield
  | exit
  | timer
  | fault
  deriving DecidableEq

/-- The interrupt flag once the switched-to task is out of the kernel's switch: `sti` in
`__kfork_return`, the flag as it is when `schedule` returns, the saved flag after `iretq`, and the halt
behind the exception handler. -/
def resumedFlag (interrupts : Bool) : Departure → Bool
  | .fresh => true
  | .voluntary => interrupts
  | .interrupted flag => flag
  | .faulted => false

open Interrupts in
/-- That is the flag which the interrupt exit gives back, and the one with which the handler runs: on the
processor a handler is called with interrupts disabled, and the exit restores the flag of the interrupted
code. -/
theorem resumedFlag_interrupted {p : Processor} {kernelCs handler vector : ℕ} {errorCode : Option ℕ}
    (hcode : errorCode.isSome = hasErrStub vector) (hroom : frameSize ≤ frameEnd p) :
    let q := interruptEntry kernelCs handler vector errorCode p
    q.interrupts = false ∧ ∀ r : Processor, r.regs .rsp = q.regs .rsp →
      (frameAt r.mem (frameEnd p - frameSize)).toContext = p.toContext →
      (interruptExit r).interrupts = resumedFlag r.interrupts (.interrupted p.interrupts) := by
  obtain ⟨mem, hentry, -⟩ := @interruptEntry_eq p kernelCs handler vector errorCode hcode hroom
  rw [hentry]
  refine ⟨entryContext_interrupts _ _ _, fun r hr hkept => ?_⟩
  have hrsp : r.regs .rsp = frameEnd p - frameSize := hr.trans (entryContext_regs _ _ _).1
  rw [interruptExit_eq, hrsp]
  exact congrArg Context.interrupts hkept

/-- A switch from the current task to the one that is current in `sched`. -/
def CpuState.switch (c : CpuState rb) (how : Departure) (interrupts : Bool) (sched : SchedState rb) :
    CpuState rb :=
  let left := Function.update c.left c.sched.current how
  { sched := sched, interrupts := resumedFlag interrupts (left sched.current), left := left }

/-- An event as the code runs it. The gates are interrupt gates: handlers run with the flag clear. -/
def CpuOp.exec (c : CpuState rb) : CpuOp → CpuState rb
  | .spawn t =>
    { c with sched := c.sched.ktaskSpawn t, left := Function.update c.left t .fresh }
  | .wake t => { c with sched := c.sched.taskWake t }
  | .yield => c.switch .voluntary c.interrupts c.sched.schedule
  | .exit => c.switch .voluntary c.interrupts c.sched.taskExit
  | .timer =>
    if c.sched.tick.needResched then
      c.switch (.interrupted c.interrupts) false c.sched.lapicTimerHandler
    else { c with sched := c.sched.lapicTimerHandler }
  | .fault => c.switch .faulted false c.sched.taskExit

/-- Calls of `schedule` are made with interrupts enabled, and the timer interrupts only then. -/
def CpuOp.Allowed (c : CpuState rb) : CpuOp → Prop
  | .spawn t => t ∉ c.sched.tasks ∧ t ≠ c.sched.current
  | .wake t => t ∈ c.sched.tasks
  | .yield => c.interrupts = true
  | .exit => c.interrupts = true
  | .timer => c.interrupts = true
  | .fault => True

instance CpuOp.decidableAllowed (c : CpuState rb) : (op : CpuOp) → Decidable (op.Allowed c)
  | .spawn t => inferInstanceAs (Decidable (t ∉ c.sched.tasks ∧ t ≠ c.sched.current))
  | .wake t => inferInstanceAs (Decidable (t ∈ c.sched.tasks))
  | .yield => inferInstanceAs (Decidable (c.interrupts = true))
  | .exit => inferInstanceAs (Decidable (c.interrupts = true))
  | .timer => inferInstanceAs (Decidable (c.interrupts = true))
  | .fault => .isTrue trivial

/-- A current task that left by calling `schedule` runs with interrupts enabled. -/
def FlagKept (c : CpuState rb) : Prop :=
  c.left c.sched.current = .voluntary → c.interrupts = true

/-- The task that `schedule` selects in a state. -/
def selected (s : SchedState rb) : TaskPtr := (nextRunq s.placePrev.rq).1

/-- A handler does not switch to another task that left by calling `schedule`. -/
def HandlerSelects (c : CpuState rb) : CpuOp → Prop
  | .timer => c.sched.tick.needResched = true →
      selected c.sched.tick ≠ c.sched.current → c.left (selected c.sched.tick) ≠ .voluntary
  | .fault => selected c.sched.retire ≠ c.sched.current →
      c.left (selected c.sched.retire) ≠ .voluntary
  | _ => True

instance HandlerSelects.decidable (c : CpuState rb) : (op : CpuOp) → Decidable (HandlerSelects c op)
  | .timer => inferInstanceAs (Decidable (_ → _ → _))
  | .fault => inferInstanceAs (Decidable (_ → _))
  | .spawn _ => .isTrue trivial
  | .wake _ => .isTrue trivial
  | .yield => .isTrue trivial
  | .exit => .isTrue trivial

/-- A switch with interrupts enabled. -/
theorem flagKept_switch_true (c : CpuState rb) (how : Departure) (sched : SchedState rb) :
    FlagKept (c.switch how true sched) := by
  intro hleft
  show resumedFlag true _ = true
  rw [show Function.update c.left c.sched.current how sched.current = _ from hleft]
  rfl

/-- A switch out of a handler. -/
theorem flagKept_switch_false_iff (c : CpuState rb) (how : Departure) (hhow : how ≠ .voluntary)
    (sched : SchedState rb) : FlagKept (c.switch how false sched) ↔
      (sched.current ≠ c.sched.current → c.left sched.current ≠ .voluntary) := by
  have hkept : FlagKept (c.switch how false sched) ↔
      Function.update c.left c.sched.current how sched.current ≠ .voluntary := by
    constructor
    · intro h hleft
      have hflag : resumedFlag false _ = true := h hleft
      rw [hleft] at hflag
      cases hflag
    · exact fun h hleft => absurd hleft h
  rw [hkept]
  by_cases hself : sched.current = c.sched.current
  · rw [hself, Function.update_self]
    exact iff_of_true hhow fun hne => absurd rfl hne
  · rw [Function.update_of_ne hself]
    exact ⟨fun h _ => h, fun h => h hself⟩

/-- A wake does not switch. -/
theorem current_taskWake (s : SchedState rb) (t : TaskPtr) : (s.taskWake t).current = s.current := by
  rw [SchedState.taskWake]
  split
  next => exact ((s.setState t .runnable).sameTasks_addRunq t).current
  next => rfl

/-- Each event keeps the flag exactly under the condition. -/
theorem flagKept_exec_iff (h : FlagKept c) {op : CpuOp} (hop : op.Allowed c) :
    FlagKept (op.exec c) ↔ HandlerSelects c op := by
  cases op with
  | spawn t =>
    refine iff_of_true ?_ trivial
    intro hleft
    apply h
    rw [← hleft]
    exact (Function.update_of_ne hop.2.symm _ c.left).symm
  | wake t =>
    refine iff_of_true ?_ trivial
    intro hleft
    have hcurrent : (CpuOp.exec c (.wake t)).sched.current = c.sched.current :=
      current_taskWake c.sched t
    rw [hcurrent] at hleft
    exact h hleft
  | yield =>
    have hflag : c.interrupts = true := hop
    refine iff_of_true ?_ trivial
    rw [CpuOp.exec, hflag]
    exact flagKept_switch_true c .voluntary c.sched.schedule
  | exit =>
    have hflag : c.interrupts = true := hop
    refine iff_of_true ?_ trivial
    rw [CpuOp.exec, hflag]
    exact flagKept_switch_true c .voluntary c.sched.taskExit
  | timer =>
    have hflag : c.interrupts = true := hop
    by_cases hresched : c.sched.tick.needResched = true
    · have hhandler : c.sched.lapicTimerHandler = c.sched.tick.schedule := if_pos hresched
      have hexec : CpuOp.exec c .timer =
          c.switch (.interrupted c.interrupts) false c.sched.tick.schedule := by
        rw [CpuOp.exec, if_pos hresched, hhandler]
      rw [hexec, flagKept_switch_false_iff c (.interrupted c.interrupts) nofun]
      exact ⟨fun h' _ => h', fun h' => h' hresched⟩
    · have hexec : (CpuOp.exec c .timer).interrupts = c.interrupts := by
        rw [CpuOp.exec, if_neg hresched]
      refine iff_of_true ?_ fun hyes => absurd hyes hresched
      intro _
      rw [hexec, hflag]
  | fault => exact flagKept_switch_false_iff c .faulted nofun c.sched.taskExit

/-- The boot context runs as the idle task with interrupts enabled. -/
def bootCpu (rb : RbTree) (idle : TaskPtr) : CpuState rb :=
  { sched := initScheduler rb idle, interrupts := true, left := fun _ => .fresh }

/-- In every run from the boot context, tasks that called `schedule` are resumed with interrupts enabled
exactly when no handler switches to such a task. -/
theorem interruptFlag_run_kept_iff (rb : RbTree) (idle : TaskPtr) {ops : List CpuOp}
    (hops : EveryStep CpuOp.exec CpuOp.Allowed (bootCpu rb idle) ops) :
    EveryState CpuOp.exec FlagKept (bootCpu rb idle) ops ↔
      EveryStep CpuOp.exec HandlerSelects (bootCpu rb idle) ops := by
  apply everyState_iff_everyStep (P := FlagKept) (fun c (hc : FlagKept c) => hc) _ _ hops nofun
  · exact fun c op hc hop hgood => (flagKept_exec_iff hc hop).mpr hgood
  · exact fun c op hc hop hkept => (flagKept_exec_iff hc hop).mp hkept

/-- Two tasks that only call `schedule`. -/
theorem interruptFlag_run_kept_yields :
    EveryState CpuOp.exec FlagKept (bootCpu spineTree idleTask)
      [.spawn taskA, .spawn taskB, .wake taskA, .wake taskB, .yield, .yield, .timer, .yield] := by
  have hops : EveryStep CpuOp.exec CpuOp.Allowed (bootCpu spineTree idleTask)
      [.spawn taskA, .spawn taskB, .wake taskA, .wake taskB, .yield, .yield, .timer, .yield] := by
    decide +kernel
  exact (interruptFlag_run_kept_iff spineTree idleTask hops).mpr (by decide +kernel)

/-- Task A calls `schedule`, and after ten ticks the timer handler of task B switches back to it. -/
def switchFromTimer : List CpuOp :=
  CpuOp.spawn taskA :: .spawn taskB :: .wake taskA :: .wake taskB :: .yield :: .yield ::
    List.replicate 10 CpuOp.timer

/-- A continues with interrupts off. -/
theorem timer_resumes_with_interrupts_off :
    EveryStep CpuOp.exec CpuOp.Allowed (bootCpu spineTree idleTask) switchFromTimer ∧
      ¬ EveryState CpuOp.exec FlagKept (bootCpu spineTree idleTask) switchFromTimer := by
  refine ⟨by decide +kernel, fun h => ?_⟩
  exact absurd (h.last (by decide +kernel)) (by decide +kernel)

end Flos.Sched
