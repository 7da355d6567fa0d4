import Flos.Sched.Scheduler

/-!
# Who is in the run queue

Between two calls the queue holds the runnable tasks other than the current one. `schedule` keeps this
from any state, since it puts the current task back before it takes the next one. `task_wake` and
`ktask_spawn` keep it. `task_exit` takes the current task out of the queue, where it is not.
-/

namespace Flos.Sched

open Flos.Lib
open Flos.Mm (wordSize)

variable {rb : RbTree} {Ok : rb.Links → Prop} {s : SchedState rb} {l : List TaskPtr} {t : TaskPtr}

/-- The queue holds the tasks `l`, which are the runnable ones other than the current task. -/
structure QueueHolds (Ok : rb.Links → Prop) (s : SchedState rb) (l : List TaskPtr) : Prop where
  queues : s.rq.Queues Ok s.vruntime l
  mem_iff : ∀ t, t ∈ l ↔ t ∈ s.tasks ∧ s.stateOf t = .runnable ∧ t ≠ s.current
  current_mem : s.current ∈ s.tasks
  idle_mem : s.rq.idle ∈ s.tasks

/-- Only the idle task is current without being runnable. -/
def IdleOrRunnable (s : SchedState rb) : Prop :=
  s.stateOf s.current = .runnable ∨ s.current = s.rq.idle

/-- The current task is not queued. -/
theorem QueueHolds.current_not_mem (h : QueueHolds Ok s l) : s.current ∉ l :=
  fun hmem => ((h.mem_iff s.current).mp hmem).2.2 rfl

/-! ## The calls on the queue -/

/-- `add_runq` inserts a task behind those with the same runtime. -/
theorem queues_addRunq (hrb : rb.Lawful Ok) (h : s.rq.Queues Ok s.vruntime l) (ht : t ∉ l) :
    (s.addRunq t).rq.Queues Ok (s.addRunq t).vruntime
      (insertStable (s.addRunq t).vruntime t l) := by
  have hkey : ∀ t' ∈ l, (s.addRunq t).vruntime t' = s.vruntime t' := by
    intro t' ht'
    apply s.vruntime_addRunq_of_ne
    rintro rfl
    exact ht ht'
  rw [s.rq_addRunq]
  exact (h.congr_key hkey).treeInsert hrb ht

/-- `num_threads` counts it. -/
theorem counts_addRunq (hcount : s.rq.Counts l) (hnodup : l.Nodup) (ht : t ∉ l) :
    (s.addRunq t).rq.Counts (insertStable (s.addRunq t).vruntime t l) := by
  rw [s.rq_addRunq]
  exact hcount.treeInsert hnodup ht

/-- The queue from which `next_runq` takes: the current task is put back if it is runnable. -/
def placedQueue (s : SchedState rb) (l : List TaskPtr) : List TaskPtr :=
  if s.stateOf s.current = .runnable then insertStable s.placePrev.vruntime s.current l else l

/-- A runnable current task is queued again. -/
theorem placePrev_of_runnable (hrun : s.stateOf s.current = .runnable) :
    s.placePrev = (s.incPreempt.clearResched.charge s.current).addRunq s.current := by
  have hcharge := (s.sameTasks_charge).stateOf s.current
  exact if_pos (hcharge.trans hrun)

/-- Another one is charged only. -/
theorem placePrev_of_not_runnable (hrun : s.stateOf s.current ≠ .runnable) :
    s.placePrev = s.incPreempt.clearResched.charge s.current := by
  have hcharge := (s.sameTasks_charge).stateOf s.current
  exact if_neg (hcharge ▸ hrun)

/-- Charging the current task does not move a queued one. -/
theorem QueueHolds.queues_charge (h : QueueHolds Ok s l) :
    (s.incPreempt.clearResched.charge s.current).rq.Queues Ok
      (s.incPreempt.clearResched.charge s.current).vruntime l := by
  apply h.queues.congr_key
  intro t' ht'
  apply s.incPreempt.clearResched.vruntime_modifyTask_of_ne
  rintro rfl
  exact h.current_not_mem ht'

/-- What `schedule` leaves in the queue before it chooses. -/
theorem QueueHolds.queues_placePrev (hrb : rb.Lawful Ok) (h : QueueHolds Ok s l) :
    s.placePrev.rq.Queues Ok s.placePrev.vruntime (placedQueue s l) := by
  by_cases hrun : s.stateOf s.current = .runnable
  · rw [placedQueue, if_pos hrun, placePrev_of_runnable hrun]
    exact queues_addRunq hrb h.queues_charge h.current_not_mem
  · rw [placedQueue, if_neg hrun, placePrev_of_not_runnable hrun]
    exact h.queues_charge

/-- `num_threads` counts that. -/
theorem QueueHolds.counts_placePrev (h : QueueHolds Ok s l) (hcount : s.rq.Counts l) :
    s.placePrev.rq.Counts (placedQueue s l) := by
  by_cases hrun : s.stateOf s.current = .runnable
  · have hcharge : (s.incPreempt.clearResched.charge s.current).rq.Counts l := hcount
    rw [placedQueue, if_pos hrun, placePrev_of_runnable hrun]
    exact counts_addRunq hcharge h.queues.nodup h.current_not_mem
  · rw [placedQueue, if_neg hrun, placePrev_of_not_runnable hrun]
    exact hcount

/-- Before `next_runq`, all runnable tasks are in the queue. -/
theorem QueueHolds.mem_placedQueue (h : QueueHolds Ok s l) (t : TaskPtr) :
    t ∈ placedQueue s l ↔ t ∈ s.tasks ∧ s.stateOf t = .runnable := by
  by_cases hrun : s.stateOf s.current = .runnable
  · rw [placedQueue, if_pos hrun, mem_insertStable, h.mem_iff]
    constructor
    · intro ht
      cases ht with
      | inl heq => exact heq ▸ ⟨h.current_mem, hrun⟩
      | inr ht => exact ⟨ht.1, ht.2.1⟩
    · intro ht
      by_cases heq : t = s.current
      · exact .inl heq
      · exact .inr ⟨ht.1, ht.2, heq⟩
  · rw [placedQueue, if_neg hrun, h.mem_iff]
    constructor
    · exact fun ht => ⟨ht.1, ht.2.1⟩
    · intro ht
      refine ⟨ht.1, ht.2, ?_⟩
      rintro rfl
      exact hrun ht.2

/-! ## Each call keeps the queue -/

/-- `schedule` makes the first task of the queue the current one, or idle. -/
theorem QueueHolds.current_schedule (hrb : rb.Lawful Ok) (h : QueueHolds Ok s l) :
    s.schedule.current = (placedQueue s l).head?.getD s.rq.idle := by
  have hplace := h.queues_placePrev hrb
  rw [s.current_schedule]
  cases hl : placedQueue s l with
  | nil =>
    rw [hl] at hplace
    rw [hplace.nextRunq_nil]
    exact s.sameTasks_placePrev.idle
  | cons a l' =>
    rw [hl] at hplace
    exact (hplace.nextRunq_cons hrb).1

/-- The rest of the queue after `schedule`. -/
theorem QueueHolds.queues_schedule (hrb : rb.Lawful Ok) (h : QueueHolds Ok s l) :
    s.schedule.rq.Queues Ok s.schedule.vruntime (placedQueue s l).tail ∧
      s.schedule.rq.idle = s.rq.idle := by
  have hplace := h.queues_placePrev hrb
  have hidle := s.sameTasks_placePrev.idle
  have hkey : s.schedule.vruntime = s.placePrev.vruntime := funext s.vruntime_schedule
  rw [s.rq_schedule, hkey]
  cases hl : placedQueue s l with
  | nil =>
    rw [hl] at hplace
    rw [hplace.nextRunq_nil]
    exact ⟨hplace, hidle⟩
  | cons a l' =>
    rw [hl] at hplace
    have hnext : (nextRunq s.placePrev.rq).2.idle = s.placePrev.rq.idle := by
      rw [nextRunq, hplace.leftmost]
      rfl
    exact ⟨(hplace.nextRunq_cons hrb).2, hnext.trans hidle⟩

/-- `num_threads` counts the queue behind `schedule`. -/
theorem QueueHolds.counts_schedule (hrb : rb.Lawful Ok) (h : QueueHolds Ok s l)
    (hcount : s.rq.Counts l) : s.schedule.rq.Counts (placedQueue s l).tail := by
  have hplace := h.queues_placePrev hrb
  have hcount' := h.counts_placePrev hcount
  rw [s.rq_schedule]
  cases hl : placedQueue s l with
  | nil =>
    rw [hl] at hplace hcount'
    rw [hplace.nextRunq_nil]
    exact hcount'
  | cons a l' =>
    rw [hl] at hplace hcount'
    exact hcount'.nextRunq_cons hplace.nodup hplace.leftmost

/-- `schedule` keeps the queue, whatever the state of the current task is. -/
theorem QueueHolds.schedule (hrb : rb.Lawful Ok) (h : QueueHolds Ok s l) :
    QueueHolds Ok s.schedule (placedQueue s l).tail ∧ IdleOrRunnable s.schedule := by
  have hmem := h.mem_placedQueue
  have hcurrent := h.current_schedule hrb
  obtain ⟨hqueues, hidle⟩ := h.queues_schedule hrb
  have hnodup := (h.queues_placePrev hrb).nodup
  cases hl : placedQueue s l with
  | nil =>
    rw [hl] at hmem hcurrent hqueues
    refine ⟨⟨hqueues, ?_, ?_, ?_⟩, .inr (hcurrent.trans hidle.symm)⟩
    · intro t
      rw [s.tasks_schedule, s.stateOf_schedule]
      constructor
      · exact fun ht => absurd ht List.not_mem_nil
      · exact fun ht => absurd ((hmem t).mpr ⟨ht.1, ht.2.1⟩) List.not_mem_nil
    · rw [s.tasks_schedule, hcurrent]
      exact h.idle_mem
    · rw [s.tasks_schedule, hidle]
      exact h.idle_mem
  | cons a l' =>
    rw [hl] at hmem hcurrent hqueues hnodup
    have ha := (hmem a).mp List.mem_cons_self
    have hcurrent' : s.schedule.current = a := hcurrent
    refine ⟨⟨hqueues, ?_, ?_, ?_⟩, .inl ?_⟩
    · intro t
      rw [s.tasks_schedule, s.stateOf_schedule, hcurrent']
      constructor
      · intro ht
        refine ⟨((hmem t).mp (List.mem_cons_of_mem a ht)).1,
          ((hmem t).mp (List.mem_cons_of_mem a ht)).2, ?_⟩
        rintro rfl
        exact (List.nodup_cons.mp hnodup).1 ht
      · intro ht
        exact List.mem_of_ne_of_mem ht.2.2 ((hmem t).mpr ⟨ht.1, ht.2.1⟩)
    · rw [s.tasks_schedule, hcurrent']
      exact ha.1
    · rw [s.tasks_schedule, hidle]
      exact h.idle_mem
    · rw [s.stateOf_schedule, hcurrent']
      exact ha.2

/-- `ktask_spawn` makes a task that waits for its `task_wake`. -/
theorem QueueHolds.ktaskSpawn (h : QueueHolds Ok s l) (ht : t ∉ s.tasks) :
    QueueHolds Ok (s.ktaskSpawn t) l := by
  have hne : ∀ t' ∈ s.tasks, t' ≠ t := by
    rintro t' ht' rfl
    exact ht ht'
  have htask : ∀ t', t' ≠ t → (s.ktaskSpawn t).task t' = s.task t' :=
    fun t' ht' => Function.update_of_ne ht' _ s.task
  have hself : (s.ktaskSpawn t).stateOf t = .init :=
    congrArg Task.state (Function.update_self t _ s.task)
  refine ⟨?_, ?_, List.mem_cons_of_mem t h.current_mem, List.mem_cons_of_mem t h.idle_mem⟩
  · apply h.queues.congr_key
    intro t' ht'
    rw [SchedState.vruntime, htask t' (hne t' ((h.mem_iff t').mp ht').1), SchedState.vruntime]
  · intro t'
    rw [h.mem_iff]
    constructor
    · intro ht'
      refine ⟨List.mem_cons_of_mem t ht'.1, ?_, ht'.2.2⟩
      rw [SchedState.stateOf, htask t' (hne t' ht'.1)]
      exact ht'.2.1
    · intro ht'
      by_cases heq : t' = t
      · rw [heq, hself] at ht'
        exact absurd ht'.2.1 (by decide)
      · refine ⟨(List.mem_cons.mp ht'.1).resolve_left heq, ?_, ht'.2.2⟩
        rw [← ht'.2.1, SchedState.stateOf, SchedState.stateOf, htask t' heq]

/-- A new task leaves the current one as it is. -/
theorem idleOrRunnable_ktaskSpawn (h : QueueHolds Ok s l) (hidle : IdleOrRunnable s)
    (ht : t ∉ s.tasks) : IdleOrRunnable (s.ktaskSpawn t) := by
  have hne : s.current ≠ t := by
    rintro rfl
    exact ht h.current_mem
  have htask : (s.ktaskSpawn t).task s.current = s.task s.current :=
    Function.update_of_ne hne _ s.task
  apply hidle.imp _ id
  intro hrun
  exact (congrArg Task.state htask).trans hrun

/-- A task that `task_wake` finds in another state is queued. -/
def wokenQueue (s : SchedState rb) (l : List TaskPtr) (t : TaskPtr) : List TaskPtr :=
  if s.stateOf t ≠ .runnable then insertStable (s.taskWake t).vruntime t l else l

/-- `task_wake` keeps the queue, except on a current task that is not runnable. -/
theorem QueueHolds.taskWake (hrb : rb.Lawful Ok) (h : QueueHolds Ok s l) (ht : t ∈ s.tasks)
    (hcurrent : t = s.current → s.stateOf t = .runnable) :
    QueueHolds Ok (s.taskWake t) (wokenQueue s l t) := by
  by_cases hrun : s.stateOf t ≠ .runnable
  · have hnot : t ∉ l := fun hmem => hrun ((h.mem_iff t).mp hmem).2.1
    have hset : (s.setState t .runnable).rq.Queues Ok (s.setState t .runnable).vruntime l :=
      h.queues.congr_key fun t' _ => s.vruntime_setState t .runnable t'
    have hsame := (s.setState t .runnable).sameTasks_addRunq t
    have hwake : s.taskWake t = (s.setState t .runnable).addRunq t := if_pos hrun
    rw [wokenQueue, if_pos hrun, hwake]
    refine ⟨queues_addRunq hrb hset hnot, ?_, ?_, ?_⟩
    · intro t'
      rw [mem_insertStable, h.mem_iff, hsame.tasks, hsame.stateOf, hsame.current]
      by_cases heq : t' = t
      · rw [heq, s.stateOf_setState_self]
        exact iff_of_true (.inl rfl) ⟨ht, rfl, fun hc => hrun (hcurrent hc)⟩
      · rw [s.stateOf_setState_of_ne .runnable heq]
        exact or_iff_right heq
    · rw [hsame.tasks, hsame.current]
      exact h.current_mem
    · rw [hsame.tasks, hsame.idle]
      exact h.idle_mem
  · have hwake : s.taskWake t = s := if_neg hrun
    rw [wokenQueue, if_neg hrun, hwake]
    exact h

/-- `num_threads` counts a woken task. -/
theorem QueueHolds.counts_taskWake (h : QueueHolds Ok s l) (hcount : s.rq.Counts l) :
    (s.taskWake t).rq.Counts (wokenQueue s l t) := by
  by_cases hrun : s.stateOf t ≠ .runnable
  · have hnot : t ∉ l := fun hmem => hrun ((h.mem_iff t).mp hmem).2.1
    have hset : (s.setState t .runnable).rq.Counts l := hcount
    have hwake : s.taskWake t = (s.setState t .runnable).addRunq t := if_pos hrun
    rw [wokenQueue, if_pos hrun, hwake]
    exact counts_addRunq hset h.queues.nodup hnot
  · have hwake : s.taskWake t = s := if_neg hrun
    rw [wokenQueue, if_neg hrun, hwake]
    exact hcount

/-- A wake does not change who is current, nor make it wait. -/
theorem idleOrRunnable_taskWake (h : IdleOrRunnable s) : IdleOrRunnable (s.taskWake t) := by
  by_cases hrun : s.stateOf t ≠ .runnable
  · have hsame := (s.setState t .runnable).sameTasks_addRunq t
    have hwake : s.taskWake t = (s.setState t .runnable).addRunq t := if_pos hrun
    rw [IdleOrRunnable, hwake, hsame.stateOf, hsame.current, hsame.idle]
    by_cases heq : s.current = t
    · left
      show (s.setState t .runnable).stateOf s.current = .runnable
      rw [heq, s.stateOf_setState_self]
    · show (s.setState t .runnable).stateOf s.current = .runnable ∨ s.current = s.rq.idle
      rw [s.stateOf_setState_of_ne .runnable heq]
      exact h
  · have hwake : s.taskWake t = s := if_neg hrun
    rwa [hwake]

/-- A task that exits is a zombie. If it was runnable, it is erased once more, and the tree must be as it was. -/
theorem QueueHolds.retire (h : QueueHolds Ok s l)
    (hbenign : s.stateOf s.current = .runnable → rb.erase s.rq.links s.current = s.rq.links) :
    QueueHolds Ok s.retire l := by
  have hmem : ∀ t, t ∈ l ↔ t ∈ s.tasks ∧ s.retire.stateOf t = .runnable ∧ t ≠ s.current := by
    intro t
    rw [h.mem_iff]
    by_cases heq : t = s.current
    · exact iff_of_false (fun ht => ht.2.2 heq) fun ht => ht.2.2 heq
    · have hstate : s.retire.stateOf t = s.stateOf t := by
        rw [SchedState.retire]
        split
        next => exact (s.removeRunq s.current).stateOf_setState_of_ne .zombie heq
        next => exact s.stateOf_setState_of_ne .zombie heq
      rw [hstate]
  by_cases hrun : s.stateOf s.current = .runnable
  · have hretire : s.retire = (s.removeRunq s.current).setState s.current .zombie := by
      rw [SchedState.retire, if_pos hrun]
    have hlinks := hbenign hrun
    have hok : Ok (rb.erase s.rq.links s.current) := by
      rw [hlinks]
      exact h.queues.ok
    have horder : rb.order (rb.erase s.rq.links s.current) = s.rq.order := congrArg rb.order hlinks
    rw [hretire] at hmem ⊢
    refine ⟨⟨hok, horder.trans h.queues.order, h.queues.nodup, ?_, ?_⟩, hmem, h.current_mem,
      h.idle_mem⟩
    · exact (h.queues.congr_key fun t _ =>
        (s.removeRunq s.current).vruntime_setState s.current .zombie t).sorted
    · have hleft : s.rq.leftmost ≠ some s.current := by
        rw [h.queues.leftmost]
        exact fun heq => h.current_not_mem (List.mem_of_head? heq)
      exact (if_neg hleft).trans h.queues.leftmost
  · have hretire : s.retire = s.setState s.current .zombie := by
      rw [SchedState.retire, if_neg hrun]
    rw [hretire] at hmem ⊢
    exact ⟨h.queues.congr_key fun t _ => s.vruntime_setState s.current .zombie t, hmem,
      h.current_mem, h.idle_mem⟩

/-- After `init_scheduler` the idle task is current and the queue is empty. -/
theorem queueHolds_initScheduler (hrb : rb.Lawful Ok) (idle : TaskPtr) :
    QueueHolds Ok (initScheduler rb idle) [] ∧ IdleOrRunnable (initScheduler rb idle) := by
  refine ⟨⟨RunQ.queues_empty hrb _ idle, ?_, List.mem_singleton_self idle,
    List.mem_singleton_self idle⟩, .inr rfl⟩
  intro t
  constructor
  · exact fun ht => absurd ht List.not_mem_nil
  · rintro ⟨ht, _, hne⟩
    exact absurd (List.mem_singleton.mp ht) hne

end Flos.Sched
