import Flos.Sched.RunQueue
import Mathlib.Logic.Function.Basic

/-!
# Tasks and the scheduler

The calls that move tasks between their states, on one CPU and one after the other: `ktask_spawn`,
`task_wake`, `schedule` and `task_exit`. `schedule` is the sequence of its steps, each a definition of
its own. Registers and stacks are left to the model of `__switch_to`; here it is what it does to the
per-CPU variables.
-/

namespace Flos.Sched

open Flos.Lib
open Flos.Mm (wordSize)

/-- The states of a task. -/
inductive TaskState
  | init
  | runnable
  | waiting
  | sleeping
  | zombie
  | dead
  deriving DecidableEq

/-- `TASK_PREEMPTED`. -/
def taskPreempted : BitVec 64 := 1#64 <<< 1

/-- `TASK_RUNNING`. -/
def taskRunning : BitVec 64 := 1#64 <<< 2

/-- The fields of `struct task` that scheduling reads or writes. -/
structure Task where
  tid : ℕ
  tgid : ℕ
  flags : BitVec 64
  state : TaskState
  vruntime : ℕ
  timeSlice : ℕ

/-- Write the state of a task. -/
def Task.setState (state : TaskState) (task : Task) : Task := { task with state := state }

/-- Write the runtime of a task. -/
def Task.setVruntime (vruntime : ℕ) (task : Task) : Task := { task with vruntime := vruntime }

/-- `vruntime++`, on a 64-bit word. -/
def Task.charge (task : Task) : Task := task.setVruntime ((task.vruntime + 1) % wordSize)

/-- Write the time slice of a task. -/
def Task.setTimeSlice (timeSlice : ℕ) (task : Task) : Task := { task with timeSlice := timeSlice }

/-- Clear bits of the flags. -/
def Task.clearFlags (mask : BitVec 64) (task : Task) : Task :=
  { task with flags := task.flags &&& ~~~mask }

/-- Set bits of the flags. -/
def Task.setFlags (mask : BitVec 64) (task : Task) : Task :=
  { task with flags := task.flags ||| mask }

/-- The tasks, the run queue and the per-CPU variables. -/
structure SchedState (rb : RbTree) where
  task : TaskPtr → Task
  tasks : List TaskPtr
  nextTid : ℕ
  rq : RunQ rb
  current : TaskPtr
  preemptCount : ℕ
  needResched : Bool

variable {rb : RbTree}

namespace SchedState

/-- The `vruntime` of every task. -/
def vruntime (s : SchedState rb) (t : TaskPtr) : ℕ := (s.task t).vruntime

/-- The state of every task. -/
def stateOf (s : SchedState rb) (t : TaskPtr) : TaskState := (s.task t).state

/-- Write fields of a task. -/
def modifyTask (s : SchedState rb) (t : TaskPtr) (f : Task → Task) : SchedState rb :=
  { s with task := Function.update s.task t (f (s.task t)) }

/-- Set the state of a task. -/
def setState (s : SchedState rb) (t : TaskPtr) (state : TaskState) : SchedState rb :=
  s.modifyTask t (Task.setState state)

/-- `alloc_tid`: the counter is a 64-bit word. -/
def allocTid (s : SchedState rb) : ℕ × SchedState rb :=
  (s.nextTid, { s with nextTid := (s.nextTid + 1) % wordSize })

/-- `ktask_spawn` on the zeroed object that `kmalloc` returned at `t`. -/
def ktaskSpawn (s : SchedState rb) (t : TaskPtr) : SchedState rb :=
  let (tid, s) := s.allocTid
  { s.modifyTask t fun _ =>
      { tid := tid, tgid := tid, flags := 0#64, state := .init, vruntime := 0, timeSlice := 0 } with
    tasks := t :: s.tasks }

/-- Only a task that has not started keeps its `vruntime` in `add_runq`. -/
def placeVruntime (s : SchedState rb) (t : TaskPtr) : SchedState rb :=
  if s.stateOf t ≠ .init then s.modifyTask t (Task.setVruntime (minVruntime s.vruntime s.rq)) else s

/-- `add_runq`. -/
def addRunq (s : SchedState rb) (t : TaskPtr) : SchedState rb :=
  let s := s.placeVruntime t
  { s with rq := treeInsert s.vruntime s.rq t }

/-- `remove_runq`. -/
def removeRunq (s : SchedState rb) (t : TaskPtr) : SchedState rb := { s with rq := treeRemove s.rq t }

/-- `task_wake`. -/
def taskWake (s : SchedState rb) (t : TaskPtr) : SchedState rb :=
  if s.stateOf t ≠ .runnable then (s.setState t .runnable).addRunq t else s

/-! ## The steps of `schedule` -/

/-- `this_cpu_inc(preempt_count)`. -/
def incPreempt (s : SchedState rb) : SchedState rb :=
  { s with preemptCount := (s.preemptCount + 1) % wordSize }

/-- `this_cpu_dec(preempt_count)`. -/
def decPreempt (s : SchedState rb) : SchedState rb :=
  { s with preemptCount := (s.preemptCount + (wordSize - 1)) % wordSize }

/-- `this_cpu_write(need_resched, false)`. -/
def clearResched (s : SchedState rb) : SchedState rb := { s with needResched := false }

/-- `prev->sched.vruntime++`. -/
def charge (s : SchedState rb) (prev : TaskPtr) : SchedState rb :=
  s.modifyTask prev Task.charge

/-- A current task that is runnable goes back to the queue. -/
def requeueCurrent (s : SchedState rb) : SchedState rb :=
  if s.stateOf s.current = .runnable then s.addRunq s.current else s

/-- `next_runq` on the queue of the state. -/
def takeNext (s : SchedState rb) : TaskPtr × SchedState rb :=
  ((nextRunq s.rq).1, { s with rq := (nextRunq s.rq).2 })

/-- The flags of the current and of the next task. -/
def updateFlags (s : SchedState rb) (next : TaskPtr) : SchedState rb :=
  ((s.modifyTask s.current (Task.clearFlags taskRunning)).modifyTask next
    (Task.setFlags taskRunning)).modifyTask next (Task.clearFlags taskPreempted)

/-- `__switch_to`: the next task is the current one and `preempt_count` goes down. -/
def switchTo (s : SchedState rb) (next : TaskPtr) : SchedState rb :=
  { s with current := next }.decPreempt

/-- `schedule` up to the choice of the next task. -/
def placePrev (s : SchedState rb) : SchedState rb :=
  (s.incPreempt.clearResched.charge s.current).requeueCurrent

/-- `schedule`, which `sched_yield` calls. -/
def schedule (s : SchedState rb) : SchedState rb :=
  let (next, s) := s.placePrev.takeNext
  (s.updateFlags next).switchTo next

/-- `sched_yield_preempt`. -/
def schedYieldPreempt (s : SchedState rb) : SchedState rb :=
  (s.incPreempt.modifyTask s.current (Task.setFlags taskPreempted)).decPreempt.schedule

/-- The number of ticks of a time slice, `MAX_SLICES`. -/
def maxSlices : ℕ := 10

/-- `lapic_timer_handler` up to its `schedule`: the time slice of the current task. -/
def tick (s : SchedState rb) : SchedState rb :=
  let slice := ((s.task s.current).timeSlice + 1) % wordSize
  if maxSlices ≤ slice then
    { s.modifyTask s.current (Task.setTimeSlice 0) with needResched := true }
  else s.modifyTask s.current (Task.setTimeSlice slice)

/-- `lapic_timer_handler`. -/
def lapicTimerHandler (s : SchedState rb) : SchedState rb :=
  if s.tick.needResched then s.tick.schedule else s.tick

/-- `task_exit`, up to its `sched_yield`. -/
def retire (s : SchedState rb) : SchedState rb :=
  (if s.stateOf s.current = .runnable then s.removeRunq s.current else s).setState s.current .zombie

/-- `task_exit`: the code is not kept. -/
def taskExit (s : SchedState rb) : SchedState rb := s.retire.schedule

end SchedState

/-- `init_scheduler` on zeroed memory, where the idle task is the first one spawned. -/
def initScheduler (rb : RbTree) (idle : TaskPtr) : SchedState rb :=
  let s : SchedState rb :=
    { task := fun _ => ⟨0, 0, 0#64, .init, 0, 0⟩, tasks := [], nextTid := 0, rq := RunQ.empty rb idle,
      current := idle, preemptCount := 0, needResched := false }
  (s.ktaskSpawn idle).modifyTask idle fun task => { task with state := .init, tid := 0 }

/-- A call on the scheduler. -/
inductive SchedOp
  | spawn (t : TaskPtr)
  | wake (t : TaskPtr)
  | schedule
  | exit
  deriving DecidableEq

/-- A call as the code runs it. -/
def SchedOp.exec (s : SchedState rb) : SchedOp → SchedState rb
  | .spawn t => s.ktaskSpawn t
  | .wake t => s.taskWake t
  | .schedule => s.schedule
  | .exit => s.taskExit

/-- `kmalloc` returns memory that is no other task, and tasks are known to others by `ktask_spawn`. -/
def SchedOp.Allowed (s : SchedState rb) : SchedOp → Prop
  | .spawn t => t ∉ s.tasks
  | .wake t => t ∈ s.tasks
  | .schedule => True
  | .exit => True

instance SchedOp.decidableAllowed (s : SchedState rb) : (op : SchedOp) → Decidable (op.Allowed s)
  | .spawn t => inferInstanceAs (Decidable (t ∉ s.tasks))
  | .wake t => inferInstanceAs (Decidable (t ∈ s.tasks))
  | .schedule => .isTrue trivial
  | .exit => .isTrue trivial

/-! ## What the steps leave alone -/

namespace SchedState

variable {s : SchedState rb} {t t' : TaskPtr}

/-- Writing fields of a task. -/
theorem modifyTask_self (s : SchedState rb) (t : TaskPtr) (f : Task → Task) :
    (s.modifyTask t f).task t = f (s.task t) :=
  Function.update_self t _ s.task

/-- Other tasks keep their fields. -/
theorem modifyTask_of_ne (s : SchedState rb) (f : Task → Task) (h : t' ≠ t) :
    (s.modifyTask t f).task t' = s.task t' :=
  Function.update_of_ne h _ s.task

/-- A write that does not touch the state. -/
theorem stateOf_modifyTask (s : SchedState rb) (t : TaskPtr) {f : Task → Task}
    (hf : ∀ task, (f task).state = task.state) (t' : TaskPtr) :
    (s.modifyTask t f).stateOf t' = s.stateOf t' := by
  by_cases h : t' = t
  · rw [h, stateOf, modifyTask_self, hf, stateOf]
  · rw [stateOf, modifyTask_of_ne s f h, stateOf]

/-- A write that does not touch the runtime. -/
theorem vruntime_modifyTask (s : SchedState rb) (t : TaskPtr) {f : Task → Task}
    (hf : ∀ task, (f task).vruntime = task.vruntime) (t' : TaskPtr) :
    (s.modifyTask t f).vruntime t' = s.vruntime t' := by
  by_cases h : t' = t
  · rw [h, vruntime, modifyTask_self, hf, vruntime]
  · rw [vruntime, modifyTask_of_ne s f h, vruntime]

/-- Writing to a task leaves the runtimes of the others. -/
theorem vruntime_modifyTask_of_ne (s : SchedState rb) (f : Task → Task) (h : t' ≠ t) :
    (s.modifyTask t f).vruntime t' = s.vruntime t' := by
  rw [vruntime, modifyTask_of_ne s f h, vruntime]

/-- The state that was written. -/
theorem stateOf_setState_self (s : SchedState rb) (t : TaskPtr) (state : TaskState) :
    (s.setState t state).stateOf t = state := by
  rw [setState, stateOf, modifyTask_self]
  rfl

/-- No other state is written. -/
theorem stateOf_setState_of_ne (s : SchedState rb) (state : TaskState) (h : t' ≠ t) :
    (s.setState t state).stateOf t' = s.stateOf t' := by
  rw [setState, stateOf, modifyTask_of_ne s _ h, stateOf]

/-- A state is no runtime. -/
theorem vruntime_setState (s : SchedState rb) (t : TaskPtr) (state : TaskState) (t' : TaskPtr) :
    (s.setState t state).vruntime t' = s.vruntime t' :=
  vruntime_modifyTask (f := Task.setState state) s t (fun _ => rfl) t'

/-- What a step of `schedule` before the switch does not change: who is current, which tasks there are
and in which state, and which task is idle. -/
structure SameTasks (s s' : SchedState rb) : Prop where
  tasks : s'.tasks = s.tasks
  current : s'.current = s.current
  idle : s'.rq.idle = s.rq.idle
  stateOf : ∀ t, s'.stateOf t = s.stateOf t

/-- Steps that keep the tasks compose. -/
theorem SameTasks.trans {s' s'' : SchedState rb} (h : SameTasks s s') (h' : SameTasks s' s'') :
    SameTasks s s'' where
  tasks := h'.tasks.trans h.tasks
  current := h'.current.trans h.current
  idle := h'.idle.trans h.idle
  stateOf t := (h'.stateOf t).trans (h.stateOf t)

/-- Writing to a task but not to its state keeps the tasks. -/
theorem sameTasks_modifyTask (s : SchedState rb) (t : TaskPtr) (f : Task → Task)
    (hf : ∀ task, (f task).state = task.state) : SameTasks s (s.modifyTask t f) :=
  ⟨rfl, rfl, rfl, stateOf_modifyTask s t hf⟩

/-- Placing a runtime keeps the tasks. -/
theorem sameTasks_placeVruntime (s : SchedState rb) (t : TaskPtr) :
    SameTasks s (s.placeVruntime t) := by
  rw [placeVruntime]
  split
  next => exact sameTasks_modifyTask s t _ fun _ => rfl
  next => exact ⟨rfl, rfl, rfl, fun _ => rfl⟩

/-- Queueing keeps the tasks. -/
theorem sameTasks_addRunq (s : SchedState rb) (t : TaskPtr) : SameTasks s (s.addRunq t) :=
  (sameTasks_placeVruntime s t).trans ⟨rfl, rfl, rfl, fun _ => rfl⟩

/-- Charging the current task keeps the tasks. -/
theorem sameTasks_charge (s : SchedState rb) :
    SameTasks s (s.incPreempt.clearResched.charge s.current) :=
  ⟨rfl, rfl, rfl, stateOf_modifyTask (f := Task.charge) s.incPreempt.clearResched s.current fun _ => rfl⟩

/-- Queueing the current task again keeps the tasks. -/
theorem sameTasks_requeueCurrent (s : SchedState rb) : SameTasks s s.requeueCurrent := by
  rw [requeueCurrent]
  split
  next => exact sameTasks_addRunq s s.current
  next => exact ⟨rfl, rfl, rfl, fun _ => rfl⟩

/-- What `schedule` does before it chooses keeps the tasks. -/
theorem sameTasks_placePrev (s : SchedState rb) : SameTasks s s.placePrev :=
  (sameTasks_charge s).trans (sameTasks_requeueCurrent _)

/-- So does what it does behind the choice. -/
theorem sameTasks_updateFlags (s : SchedState rb) (next : TaskPtr) : SameTasks s (s.updateFlags next) :=
  ((sameTasks_modifyTask s s.current (Task.clearFlags taskRunning) fun _ => rfl).trans
    (sameTasks_modifyTask _ next (Task.setFlags taskRunning) fun _ => rfl)).trans
    (sameTasks_modifyTask _ next (Task.clearFlags taskPreempted) fun _ => rfl)

/-- `add_runq` writes the runtime of the task it queues only. -/
theorem vruntime_addRunq_of_ne (s : SchedState rb) (h : t' ≠ t) :
    (s.addRunq t).vruntime t' = s.vruntime t' := by
  show (s.placeVruntime t).vruntime t' = _
  rw [placeVruntime]
  split
  next => exact vruntime_modifyTask_of_ne s _ h
  next => rfl

/-- A task that has started gets the minimum of the queue. -/
theorem vruntime_addRunq_self (s : SchedState rb) (hinit : s.stateOf t ≠ .init) :
    (s.addRunq t).vruntime t = minVruntime s.vruntime s.rq := by
  show ((s.placeVruntime t).task t).vruntime = _
  rw [placeVruntime, if_pos hinit, modifyTask_self]
  rfl

/-- Placing a runtime leaves the queue. -/
theorem rq_placeVruntime (s : SchedState rb) (t : TaskPtr) : (s.placeVruntime t).rq = s.rq := by
  rw [placeVruntime]
  split <;> rfl

/-- `add_runq` is `tree_insert` with the runtimes that it leaves. -/
theorem rq_addRunq (s : SchedState rb) (t : TaskPtr) :
    (s.addRunq t).rq = treeInsert (s.addRunq t).vruntime s.rq t := by
  show treeInsert (s.placeVruntime t).vruntime (s.placeVruntime t).rq t = _
  rw [rq_placeVruntime]
  rfl

/-- The queue after `schedule` is the one that `next_runq` leaves. -/
theorem rq_schedule (s : SchedState rb) : s.schedule.rq = (nextRunq s.placePrev.rq).2 := rfl

/-- `schedule` makes the chosen task current. -/
theorem current_schedule (s : SchedState rb) : s.schedule.current = (nextRunq s.placePrev.rq).1 := rfl

/-- `schedule` makes no task. -/
theorem tasks_schedule (s : SchedState rb) : s.schedule.tasks = s.tasks :=
  (sameTasks_placePrev s).tasks

/-- `schedule` changes no state. -/
theorem stateOf_schedule (s : SchedState rb) (t : TaskPtr) : s.schedule.stateOf t = s.stateOf t :=
  ((sameTasks_updateFlags s.placePrev.takeNext.2 s.placePrev.takeNext.1).stateOf t).trans
    ((sameTasks_placePrev s).stateOf t)

/-- The flags do not matter to the runtimes. -/
theorem vruntime_updateFlags (s : SchedState rb) (next t : TaskPtr) :
    (s.updateFlags next).vruntime t = s.vruntime t := by
  rw [updateFlags, vruntime_modifyTask (f := Task.clearFlags taskPreempted) _ _ (fun _ => rfl),
    vruntime_modifyTask (f := Task.setFlags taskRunning) _ _ (fun _ => rfl),
    vruntime_modifyTask (f := Task.clearFlags taskRunning) _ _ fun _ => rfl]

/-- The runtimes are those from before the choice. -/
theorem vruntime_schedule (s : SchedState rb) (t : TaskPtr) :
    s.schedule.vruntime t = s.placePrev.vruntime t :=
  vruntime_updateFlags s.placePrev.takeNext.2 s.placePrev.takeNext.1 t

end SchedState

end Flos.Sched
