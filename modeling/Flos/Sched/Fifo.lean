import Flos.Sched.Membership
import Flos.Sched.PriorityQueue
import Flos.Sched.Exits

/-!
# No overtaking

`add_runq` gives a task the smallest runtime in the queue, and an empty queue counts as zero. So all
queued tasks have runtime zero for ever, whatever the running task is charged, and the priority queue is
a plain one: a task comes behind all others and is dispatched after them.
-/

namespace Flos.Sched

open Flos.Lib

variable {rb : RbTree} {Ok : rb.Links → Prop} {s : SchedState rb} {l : List TaskPtr} {t : TaskPtr}

/-- The calls of a run in which no task exits. -/
def NoExit (s : SchedState rb) (op : SchedOp) : Prop := WakesTask s op ∧ op ≠ .exit

instance (s : SchedState rb) (op : SchedOp) : Decidable (NoExit s op) :=
  inferInstanceAs (Decidable (_ ∧ _))

/-- The tasks that a call passes to `add_runq`. -/
def queuedBy (s : SchedState rb) : SchedOp → List TaskPtr
  | .spawn _ => []
  | .wake t => if s.stateOf t ≠ .runnable then [t] else []
  | .schedule => if s.stateOf s.current = .runnable then [s.current] else []
  | .exit => []

/-- The tasks that a call takes from the queue by `next_runq`. -/
def dispatchedBy (s : SchedState rb) : SchedOp → List TaskPtr
  | .spawn _ => []
  | .wake _ => []
  | .schedule => if s.placePrev.rq.leftmost.isSome then [(nextRunq s.placePrev.rq).1] else []
  | .exit => if s.retire.placePrev.rq.leftmost.isSome then [(nextRunq s.retire.placePrev.rq).1] else []

/-- The tasks that `add_runq` queued in a run, in order. -/
def queuedIn : SchedState rb → List SchedOp → List TaskPtr
  | _, [] => []
  | s, op :: ops => queuedBy s op ++ queuedIn (op.exec s) ops

/-- The tasks that `next_runq` dispatched in a run, in order. -/
def dispatchedIn : SchedState rb → List SchedOp → List TaskPtr
  | _, [] => []
  | s, op :: ops => dispatchedBy s op ++ dispatchedIn (op.exec s) ops

/-- The number of `schedule` calls. -/
def scheduleCalls (ops : List SchedOp) : ℕ := ops.count .schedule

/-- All queued tasks have runtime zero. -/
structure FifoSound (Ok : rb.Links → Prop) (s : SchedState rb) (l : List TaskPtr) : Prop where
  queue : QueueHolds Ok s l
  idle : IdleOrRunnable s
  zero : ∀ t ∈ l, s.vruntime t = 0

/-- The minimum of such a queue. -/
theorem minVruntime_of_zero {vruntime : TaskPtr → ℕ} {rq : RunQ rb} (h : rq.Queues Ok vruntime l)
    (hzero : ∀ t ∈ l, vruntime t = 0) : minVruntime vruntime rq = 0 := by
  rw [h.minVruntime_eq]
  cases l with
  | nil => rfl
  | cons a l => exact hzero a List.mem_cons_self

/-- A started task is queued last, with runtime zero. -/
theorem addRunq_of_zero (h : s.rq.Queues Ok s.vruntime l) (hzero : ∀ t ∈ l, s.vruntime t = 0)
    (ht : t ∉ l) (hinit : s.stateOf t ≠ .init) :
    insertStable (s.addRunq t).vruntime t l = l ++ [t] ∧
      ∀ t' ∈ l ++ [t], (s.addRunq t).vruntime t' = 0 := by
  have hother : ∀ t' ∈ l, (s.addRunq t).vruntime t' = 0 := by
    intro t' ht'
    rw [s.vruntime_addRunq_of_ne, hzero t' ht']
    rintro rfl
    exact ht ht'
  constructor
  · apply insertStable_of_le
    intro t' ht'
    rw [hother t' ht']
    exact Nat.zero_le _
  · intro t' ht'
    cases List.mem_append.mp ht' with
    | inl ht' => exact hother t' ht'
    | inr ht' =>
      rw [List.mem_singleton.mp ht', s.vruntime_addRunq_self hinit, minVruntime_of_zero h hzero]

/-- The queue from which `schedule` takes has the current task at its end. -/
theorem FifoSound.placedQueue_eq (h : FifoSound Ok s l) :
    placedQueue s l = l ++ queuedBy s .schedule ∧
      ∀ t ∈ placedQueue s l, s.placePrev.vruntime t = 0 := by
  have hcharge : ∀ t ∈ l, (s.incPreempt.clearResched.charge s.current).vruntime t = 0 := by
    intro t ht
    rw [← h.zero t ht]
    apply s.incPreempt.clearResched.vruntime_modifyTask_of_ne
    rintro rfl
    exact h.queue.current_not_mem ht
  by_cases hrun : s.stateOf s.current = .runnable
  · have hinit : (s.incPreempt.clearResched.charge s.current).stateOf s.current ≠ .init := by
      rw [s.sameTasks_charge.stateOf, hrun]
      decide
    have hadd := addRunq_of_zero h.queue.queues_charge hcharge h.queue.current_not_mem hinit
    rw [placedQueue, if_pos hrun, queuedBy, if_pos hrun, placePrev_of_runnable hrun, hadd.1]
    exact ⟨rfl, hadd.2⟩
  · rw [placedQueue, if_neg hrun, queuedBy, if_neg hrun, placePrev_of_not_runnable hrun]
    exact ⟨(List.append_nil l).symm, hcharge⟩

/-- What `schedule` takes from the queue. -/
theorem FifoSound.dispatchedBy_eq (hrb : rb.Lawful Ok) (h : FifoSound Ok s l) :
    dispatchedBy s .schedule = (placedQueue s l).head?.toList := by
  have hplace := h.queue.queues_placePrev hrb
  have hcurrent := h.queue.current_schedule hrb
  rw [s.current_schedule] at hcurrent
  rw [dispatchedBy, hplace.leftmost, hcurrent]
  cases placedQueue s l <;> rfl

/-- `schedule` in a queue of zeros: the current task comes last and the first one is dispatched. -/
theorem FifoSound.schedule (hrb : rb.Lawful Ok) (h : FifoSound Ok s l) :
    ∃ l', FifoSound Ok s.schedule l' ∧
      l ++ queuedBy s .schedule = dispatchedBy s .schedule ++ l' := by
  obtain ⟨hplace, hzero⟩ := h.placedQueue_eq
  obtain ⟨hqueue, hidle⟩ := h.queue.schedule hrb
  refine ⟨_, ⟨hqueue, hidle, ?_⟩, ?_⟩
  · intro t ht
    rw [s.vruntime_schedule]
    exact hzero t (List.mem_of_mem_tail ht)
  · rw [← hplace, h.dispatchedBy_eq hrb]
    cases placedQueue s l <;> rfl

/-- A woken task comes last. -/
theorem FifoSound.taskWake (hrb : rb.Lawful Ok) (h : FifoSound Ok s l) (ht : t ∈ s.tasks)
    (hcurrent : t = s.current → s.stateOf t = .runnable) :
    FifoSound Ok (s.taskWake t) (l ++ queuedBy s (.wake t)) := by
  have hqueue := h.queue.taskWake hrb ht hcurrent
  have hidle : IdleOrRunnable (s.taskWake t) := idleOrRunnable_taskWake h.idle
  by_cases hrun : s.stateOf t ≠ .runnable
  · have hnot : t ∉ l := fun hmem => hrun ((h.queue.mem_iff t).mp hmem).2.1
    have hset : ∀ t' ∈ l, (s.setState t .runnable).vruntime t' = 0 := by
      intro t' ht'
      rw [s.vruntime_setState, h.zero t' ht']
    have hinit : (s.setState t .runnable).stateOf t ≠ .init := by
      rw [s.stateOf_setState_self]
      decide
    have hadd := addRunq_of_zero (s := s.setState t .runnable)
      (h.queue.queues.congr_key fun t' _ => s.vruntime_setState t .runnable t') hset hnot hinit
    have hwake : s.taskWake t = (s.setState t .runnable).addRunq t := if_pos hrun
    rw [wokenQueue, if_pos hrun, hwake, hadd.1] at hqueue
    rw [queuedBy, if_pos hrun]
    rw [hwake] at hidle ⊢
    exact ⟨hqueue, hidle, hadd.2⟩
  · have hwake : s.taskWake t = s := if_neg hrun
    rw [queuedBy, if_neg hrun, List.append_nil, hwake]
    exact h

/-- A new task has not been queued yet. -/
theorem FifoSound.ktaskSpawn (h : FifoSound Ok s l) (ht : t ∉ s.tasks) :
    FifoSound Ok (s.ktaskSpawn t) l := by
  refine ⟨h.queue.ktaskSpawn ht, idleOrRunnable_ktaskSpawn h.queue h.idle ht, ?_⟩
  intro t' ht'
  have hne : t' ≠ t := by
    rintro rfl
    exact ht ((h.queue.mem_iff t').mp ht').1
  exact (congrArg Task.vruntime (Function.update_of_ne hne _ s.task)).trans (h.zero t' ht')

/-- One call: what was queued, and what it queues, is what it dispatches and what is queued then. -/
theorem FifoSound.exec (hrb : rb.Lawful Ok) (h : FifoSound Ok s l) {op : SchedOp}
    (hop : NoExit s op) :
    ∃ l', FifoSound Ok (op.exec s) l' ∧ l ++ queuedBy s op = dispatchedBy s op ++ l' := by
  cases op with
  | spawn t => exact ⟨l, h.ktaskSpawn hop.1.1, List.append_nil l⟩
  | wake t =>
    have hcurrent : t = s.current → s.stateOf t = .runnable := by
      rintro rfl
      cases h.idle with
      | inl hrun => exact hrun
      | inr heq => exact absurd (congrArg SchedOp.wake heq) hop.1.2
    exact ⟨_, h.taskWake hrb hop.1.1 hcurrent, rfl⟩
  | schedule => exact h.schedule hrb
  | exit => exact absurd rfl hop.2

/-- A run: the tasks that were queued are those dispatched, followed by those still in the queue. -/
theorem FifoSound.run (hrb : rb.Lawful Ok) (h : FifoSound Ok s l) {ops : List SchedOp}
    (hops : EveryStep SchedOp.exec NoExit s ops) :
    ∃ l', FifoSound Ok (ops.foldl SchedOp.exec s) l' ∧
      l ++ queuedIn s ops = dispatchedIn s ops ++ l' := by
  induction ops generalizing s l with
  | nil => exact ⟨l, h, List.append_nil l⟩
  | cons op ops ih =>
    obtain ⟨l₁, h₁, hstep⟩ := h.exec hrb hops.1
    obtain ⟨l', h', hrest⟩ := ih h₁ hops.2
    refine ⟨l', h', ?_⟩
    rw [queuedIn, dispatchedIn, ← List.append_assoc, hstep, List.append_assoc, hrest,
      List.append_assoc]

/-- A call moves a queued task towards the front by one place if it is a `schedule`, else not at all. -/
theorem FifoSound.exec_ahead (hrb : rb.Lawful Ok) {ahead behind : List TaskPtr}
    (h : FifoSound Ok s (ahead ++ t :: behind)) {op : SchedOp} (hop : NoExit s op) :
    (op ≠ .schedule → ∃ behind', FifoSound Ok (op.exec s) (ahead ++ t :: behind')) ∧
      (op = .schedule → (ahead = [] → (op.exec s).current = t) ∧
        (ahead ≠ [] → ∃ behind', FifoSound Ok (op.exec s) (ahead.tail ++ t :: behind'))) := by
  obtain ⟨l', h', hstep⟩ := h.exec hrb hop
  constructor
  · intro hne
    have hnone : dispatchedBy s op = [] := by
      cases op with
      | spawn t => rfl
      | wake t => rfl
      | schedule => exact absurd rfl hne
      | exit => exact absurd rfl hop.2
    rw [hnone, List.nil_append, List.append_assoc] at hstep
    exact ⟨behind ++ queuedBy s op, hstep ▸ h'⟩
  · rintro rfl
    have hplace := h.placedQueue_eq.1
    have hcurrent : s.schedule.current = _ := h.queue.current_schedule hrb
    rw [h.dispatchedBy_eq hrb, hplace] at hstep
    rw [hplace] at hcurrent
    cases ahead with
    | nil => exact ⟨fun _ => hcurrent, fun hne => absurd rfl hne⟩
    | cons a ahead =>
      refine ⟨fun hnil => absurd hnil (List.cons_ne_nil a ahead), fun _ => ?_⟩
      rw [List.cons_append, List.cons_append, List.head?_cons, Option.toList_some,
        List.singleton_append] at hstep
      have htail := List.tail_eq_of_cons_eq hstep
      rw [List.append_assoc] at htail
      exact ⟨behind ++ queuedBy s .schedule, htail ▸ h'⟩

/-- A task with `n` tasks ahead of it is current after `n + 1` further `schedule` calls. -/
theorem FifoSound.dispatched_after (hrb : rb.Lawful Ok) {ahead behind : List TaskPtr}
    (h : FifoSound Ok s (ahead ++ t :: behind)) {ops : List SchedOp}
    (hops : EveryStep SchedOp.exec NoExit s ops) (hcalls : scheduleCalls ops = ahead.length) :
    (ops.foldl SchedOp.exec s).schedule.current = t := by
  induction ops generalizing s ahead behind with
  | nil =>
    have hnil : ahead = [] := List.eq_nil_of_length_eq_zero hcalls.symm
    have hlast : NoExit s .schedule := ⟨⟨trivial, by simp⟩, by simp⟩
    exact ((h.exec_ahead hrb hlast).2 rfl).1 hnil
  | cons op ops ih =>
    obtain ⟨hother, hschedule⟩ := h.exec_ahead hrb hops.1
    by_cases hop : op = .schedule
    · rw [scheduleCalls, hop, List.count_cons_self] at hcalls
      have hne : ahead ≠ [] := by
        rintro rfl
        exact absurd hcalls (Nat.succ_ne_zero _)
      obtain ⟨behind', h'⟩ := (hschedule hop).2 hne
      apply ih h' hops.2
      rw [List.length_tail, ← hcalls, Nat.add_sub_cancel, scheduleCalls]
    · rw [scheduleCalls, List.count_cons_of_ne hop] at hcalls
      obtain ⟨behind', h'⟩ := hother hop
      exact ih h' hops.2 hcalls

/-- In every run without exits the tasks are dispatched in the order in which `add_runq` queued them, and
a task with `n` tasks ahead of it in the queue is the current one after `n + 1` further `schedule` calls,
whatever is woken meanwhile. -/
theorem sched_run_fifo (hrb : rb.Lawful Ok) (idle : TaskPtr) {ops : List SchedOp}
    (hops : EveryStep SchedOp.exec NoExit (initScheduler rb idle) ops) :
    queuedIn (initScheduler rb idle) ops = dispatchedIn (initScheduler rb idle) ops ++
        (ops.foldl SchedOp.exec (initScheduler rb idle)).rq.order ∧
      ∀ ahead t behind, (ops.foldl SchedOp.exec (initScheduler rb idle)).rq.order =
          ahead ++ t :: behind →
        ∀ ops', EveryStep SchedOp.exec NoExit (ops.foldl SchedOp.exec (initScheduler rb idle)) ops' →
          scheduleCalls ops' = ahead.length →
          ((ops ++ ops').foldl SchedOp.exec (initScheduler rb idle)).schedule.current = t := by
  have hinit : FifoSound Ok (initScheduler rb idle) [] := by
    obtain ⟨hqueue, hidle⟩ := queueHolds_initScheduler hrb idle
    exact ⟨hqueue, hidle, fun _ ht => absurd ht List.not_mem_nil⟩
  obtain ⟨l, h, hhistory⟩ := hinit.run hrb hops
  rw [List.nil_append] at hhistory
  have horder := h.queue.queues.order
  rw [horder]
  refine ⟨hhistory, ?_⟩
  rintro ahead t behind rfl ops' hops' hcalls
  rw [List.foldl_append]
  exact h.dispatched_after hrb hops' hcalls

/-- Two woken tasks take turns. -/
theorem sched_run_fifo_twoTasks :
    ([SchedOp.spawn taskA, .spawn taskB, .wake taskA, .wake taskB, .schedule].foldl SchedOp.exec
      (initScheduler spineTree idleTask)).schedule.current = taskB := by
  have hops : EveryStep SchedOp.exec NoExit (initScheduler spineTree idleTask)
      [.spawn taskA, .spawn taskB, .wake taskA, .wake taskB] := by decide +kernel
  exact (sched_run_fifo spineTree_lawful idleTask hops).2 [taskA] taskB [] (by decide +kernel)
    [.schedule] (by decide +kernel) (by decide +kernel)

end Flos.Sched
