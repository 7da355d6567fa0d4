import Flos.Sched.Membership
import Flos.Sched.PriorityQueue

/-!
# Tasks that exit

A running task is runnable but not queued, and `task_exit` removes it from the queue nevertheless. That
counts one task too few from then on, and erases a node by the links it had when it left the tree. Without
such calls the queue stays right.
-/

namespace Flos.Sched

open Flos.Lib
open Flos.Mm (wordSize)

variable {rb : RbTree} {Ok : rb.Links → Prop} {s : SchedState rb} {l : List TaskPtr}

/-- The queue holds each runnable task other than the current one once and nothing else, is counted
by `num_threads`, and its cached node is the first one. -/
structure QueueComplete (s : SchedState rb) : Prop where
  mem_iff : ∀ t, t ∈ s.rq.order ↔ t ∈ s.tasks ∧ s.stateOf t = .runnable ∧ t ≠ s.current
  nodup : s.rq.order.Nodup
  numThreads : s.rq.numThreads = s.rq.order.length
  leftmost : s.rq.leftmost = s.rq.order.head?

/-- The idle task is not woken. -/
def WakesTask (s : SchedState rb) (op : SchedOp) : Prop :=
  op.Allowed s ∧ op ≠ .wake s.rq.idle

/-- `task_exit` is not called by a runnable task. -/
def ExitsUnqueued (s : SchedState rb) (op : SchedOp) : Prop :=
  op = .exit → s.stateOf s.current ≠ .runnable

instance (s : SchedState rb) (op : SchedOp) : Decidable (WakesTask s op) :=
  inferInstanceAs (Decidable (_ ∧ _))

instance (s : SchedState rb) (op : SchedOp) : Decidable (ExitsUnqueued s op) :=
  inferInstanceAs (Decidable (_ → _))

/-- What the calls keep: the queue, its count, and who may be current. -/
def QueueSound (Ok : rb.Links → Prop) (s : SchedState rb) : Prop :=
  ∃ l, QueueHolds Ok s l ∧ s.rq.Counts l ∧ IdleOrRunnable s

/-- The invariant gives the property. -/
theorem QueueSound.queueComplete (h : QueueSound Ok s) : QueueComplete s := by
  obtain ⟨l, hqueue, hcount, _⟩ := h
  obtain ⟨⟨_, rfl, hnodup, _, hleft⟩, hmem, _, _⟩ := hqueue
  exact ⟨hmem, hnodup, hcount, hleft⟩

/-- A call other than the exit of a runnable task keeps the queue. -/
theorem QueueSound.exec (hrb : rb.Lawful Ok) (h : QueueSound Ok s) {op : SchedOp}
    (hop : WakesTask s op) (hexit : ExitsUnqueued s op) : QueueSound Ok (op.exec s) := by
  obtain ⟨l, hqueue, hcount, hidle⟩ := h
  cases op with
  | spawn t =>
    exact ⟨l, hqueue.ktaskSpawn hop.1, hcount, idleOrRunnable_ktaskSpawn hqueue hidle hop.1⟩
  | wake t =>
    have hcurrent : t = s.current → s.stateOf t = .runnable := by
      rintro rfl
      cases hidle with
      | inl hrun => exact hrun
      | inr heq => exact absurd (congrArg SchedOp.wake heq) hop.2
    exact ⟨_, hqueue.taskWake hrb hop.1 hcurrent, hqueue.counts_taskWake hcount,
      idleOrRunnable_taskWake hidle⟩
  | schedule =>
    have hschedule := hqueue.schedule hrb
    exact ⟨_, hschedule.1, hqueue.counts_schedule hrb hcount, hschedule.2⟩
  | exit =>
    have hnot := hexit rfl
    have hretire := hqueue.retire fun hrun => absurd hrun hnot
    have hcount' : s.retire.rq.Counts l := by
      rw [SchedState.retire, if_neg hnot]
      exact hcount
    have hschedule := hretire.schedule hrb
    exact ⟨_, hschedule.1, hretire.counts_schedule hrb hcount', hschedule.2⟩

/-- The count after the exit of a runnable task is one too small. -/
theorem numThreads_taskExit (hqueue : QueueHolds Ok s l) (hcount : s.rq.Counts l)
    (hrun : s.stateOf s.current = .runnable) :
    s.taskExit.current = l.head?.getD s.rq.idle ∧
      (s.taskExit.rq.numThreads + 1) % wordSize = l.tail.length := by
  have hretire : s.retire = (s.removeRunq s.current).setState s.current .zombie := by
    rw [SchedState.retire, if_pos hrun]
  have hzombie : s.retire.stateOf s.retire.current ≠ .runnable := by
    rw [hretire]
    show ((s.removeRunq s.current).setState s.current .zombie).stateOf s.current ≠ .runnable
    rw [(s.removeRunq s.current).stateOf_setState_self]
    decide
  have hleft : s.rq.leftmost ≠ some s.current := by
    rw [hqueue.queues.leftmost]
    exact fun heq => hqueue.current_not_mem (List.mem_of_head? heq)
  have hrq : s.retire.placePrev.rq = treeRemove s.rq s.current := by
    rw [placePrev_of_not_runnable hzombie, hretire]
    rfl
  have hleft' : (treeRemove s.rq s.current).leftmost = l.head? :=
    (if_neg hleft).trans hqueue.queues.leftmost
  have hlen := TaskPtr.length_lt hqueue.queues.nodup
  have hcount' : s.rq.numThreads = l.length := hcount
  rw [SchedState.taskExit, SchedState.current_schedule, SchedState.rq_schedule, hrq, nextRunq, hleft']
  cases l with
  | nil =>
    refine ⟨rfl, ?_⟩
    show ((s.rq.numThreads + (wordSize - 1)) % wordSize + 1) % wordSize = 0
    rw [hcount']
    rfl
  | cons a l =>
    refine ⟨rfl, ?_⟩
    rw [List.length_cons] at hcount' hlen
    show (((s.rq.numThreads + (wordSize - 1)) % wordSize + (wordSize - 1)) % wordSize + 1) % wordSize =
      l.length
    rw [hcount']
    simp only [wordSize] at hlen ⊢
    omega

/-- The exit of a runnable task always leaves the queue or its count wrong. -/
theorem QueueSound.not_queueComplete_taskExit (h : QueueSound Ok s)
    (hrun : s.stateOf s.current = .runnable) : ¬ QueueComplete s.taskExit := by
  intro hcomplete
  obtain ⟨l, hqueue, hcount, _⟩ := h
  obtain ⟨hcurrent, hthreads⟩ := numThreads_taskExit hqueue hcount hrun
  have hmem : ∀ t, t ∈ s.taskExit.rq.order ↔ t ∈ l.tail := by
    intro t
    have hstate : s.taskExit.stateOf t = s.retire.stateOf t := s.retire.stateOf_schedule t
    have htasks : s.taskExit.tasks = s.tasks := by
      rw [SchedState.taskExit, SchedState.tasks_schedule, SchedState.retire, if_pos hrun]
      rfl
    have hretire : t ∈ s.tasks ∧ s.retire.stateOf t = .runnable ↔ t ∈ l := by
      rw [hqueue.mem_iff, SchedState.retire, if_pos hrun]
      by_cases heq : t = s.current
      · rw [heq, SchedState.stateOf_setState_self]
        exact iff_of_false (fun ht => absurd ht.2 (by decide)) fun ht => ht.2.2 rfl
      · rw [SchedState.stateOf_setState_of_ne _ _ heq]
        exact ⟨fun ht => ⟨ht.1, ht.2, heq⟩, fun ht => ⟨ht.1, ht.2.1⟩⟩
    rw [hcomplete.mem_iff, hstate, htasks, hcurrent, ← and_assoc, hretire]
    cases l with
    | nil => exact iff_of_false (fun ht => List.not_mem_nil ht.1) List.not_mem_nil
    | cons a l =>
      have hnot := (List.nodup_cons.mp hqueue.queues.nodup).1
      constructor
      · exact fun ht => List.mem_of_ne_of_mem ht.2 ht.1
      · intro ht
        refine ⟨List.mem_cons_of_mem a ht, ?_⟩
        rintro rfl
        exact hnot ht
  have hnodup : l.tail.Nodup := hqueue.queues.nodup.sublist (List.tail_sublist l)
  have hlen := ((List.perm_ext_iff_of_nodup hcomplete.nodup hnodup).mpr hmem).length_eq
  have hlt := TaskPtr.length_lt hcomplete.nodup
  rw [hcomplete.numThreads] at hthreads
  simp only [wordSize] at hlt hthreads
  omega

/-- Over every run from `init_scheduler`, the queue is complete in every state exactly when no runnable
task calls `task_exit`. -/
theorem sched_run_queueComplete_iff (hrb : rb.Lawful Ok) (idle : TaskPtr) {ops : List SchedOp}
    (hops : EveryStep SchedOp.exec WakesTask (initScheduler rb idle) ops) :
    EveryState SchedOp.exec QueueComplete (initScheduler rb idle) ops ↔
      EveryStep SchedOp.exec ExitsUnqueued (initScheduler rb idle) ops := by
  have hinit : QueueSound Ok (initScheduler rb idle) := by
    obtain ⟨hqueue, hidle⟩ := queueHolds_initScheduler hrb idle
    exact ⟨[], hqueue, rfl, hidle⟩
  apply everyState_iff_everyStep (P := QueueComplete)
    (fun s (hs : QueueSound Ok s) => hs.queueComplete) _ _ hops hinit
  · intro s op hs hop hexit
    exact hs.exec hrb hop hexit
  · intro s op hs _ hcomplete hexit hrun
    rw [hexit] at hcomplete
    exact hs.not_queueComplete_taskExit hrun hcomplete

/-- Two tasks are woken and run in turn: the queue is complete all along. -/
theorem sched_run_queueComplete_twoTasks :
    EveryState SchedOp.exec QueueComplete (initScheduler spineTree idleTask)
      [.spawn taskA, .spawn taskB, .wake taskA, .wake taskB, .schedule, .schedule] :=
  (sched_run_queueComplete_iff spineTree_lawful idleTask (by decide +kernel)).mpr (by decide +kernel)

/-- The only task runs and exits: `num_threads` wraps below zero. -/
theorem taskExit_wraps_numThreads :
    EveryStep SchedOp.exec WakesTask (initScheduler spineTree idleTask)
        [.spawn taskA, .wake taskA, .schedule, .exit] ∧
      ¬ EveryState SchedOp.exec QueueComplete (initScheduler spineTree idleTask)
        [.spawn taskA, .wake taskA, .schedule, .exit] := by
  refine ⟨by decide +kernel, fun h => ?_⟩
  exact absurd h.last.numThreads (by decide +kernel)

end Flos.Sched
