import Flos.Rbtree.Stale
import Flos.Sched.Exits
import Flos.Sched.TaskTree

/-!
# Timer ticks inside `schedule`

`schedule` is entered with interrupts enabled and does not look at `preempt_count`, nor does the timer
handler, so a tick may run a whole `schedule` of its own between two steps of another one. That is harmless
before the current task is requeued. Behind that step the queue and the current task no longer agree: a
nested `schedule` queues the current task twice, or leaves the chosen task behind in no queue. The tree is the
one of `rbtree.c`, since an exit erases a node once more by the links that it had when it left the tree.
-/

namespace Flos.Sched

open Flos.Lib
open Flos.Rbtree (RbNode Links rbErase_atRest)

/-- Where a task is: in its own code (or not started), or before one of the steps of a `schedule` that it
entered, with the chosen task once there is one. -/
inductive Frame
  | outside
  | inc
  | clear
  | charge
  | requeue
  | take
  | flags (next : TaskPtr)
  | switch (next : TaskPtr)
  deriving DecidableEq

/-- The scheduler with the place of each task. -/
structure TickState (rb : RbTree) where
  sched : SchedState rb
  frame : TaskPtr → Frame

/-- What can happen: calls in task code, the next step of the `schedule` that the current task is in, and
the timer interrupt at any place. -/
inductive TickOp
  | spawn (t : TaskPtr)
  | wake (t : TaskPtr)
  | yield
  | exit
  | step
  | timer
  deriving DecidableEq

variable {rb : RbTree} {Ok : rb.Links → Prop}

namespace TickState

/-- The place of the current task. -/
def current (c : TickState rb) : Frame := c.frame c.sched.current

/-- The current task has gone to the next place. -/
def goto (c : TickState rb) (sched : SchedState rb) (f : Frame) : TickState rb :=
  ⟨sched, Function.update c.frame c.sched.current f⟩

/-- One step of `schedule`. Behind `__switch_to` a task returns to its code, once it is current again. -/
def step (c : TickState rb) : TickState rb :=
  match c.current with
  | .outside => c
  | .inc => c.goto c.sched.incPreempt .clear
  | .clear => c.goto c.sched.clearResched .charge
  | .charge => c.goto (c.sched.charge c.sched.current) .requeue
  | .requeue => c.goto c.sched.requeueCurrent .take
  | .take => c.goto c.sched.takeNext.2 (.flags c.sched.takeNext.1)
  | .flags next => c.goto (c.sched.updateFlags next) (.switch next)
  | .switch next => c.goto (c.sched.switchTo next) .outside

end TickState

/-- An event as the code runs it. The timer handler runs with interrupts disabled, its `schedule`
included, so that is one event. -/
def TickOp.exec (c : TickState rb) : TickOp → TickState rb
  | .spawn t => ⟨c.sched.ktaskSpawn t, Function.update c.frame t .outside⟩
  | .wake t => { c with sched := c.sched.taskWake t }
  | .yield => c.goto c.sched .inc
  | .exit => c.goto c.sched.retire .inc
  | .step => c.step
  | .timer => { c with sched := c.sched.lapicTimerHandler }

/-- Calls are made in task code, on fresh memory and on spawned tasks other than idle. -/
def TickOp.Allowed (c : TickState rb) : TickOp → Prop
  | .spawn t => c.current = .outside ∧ t ∉ c.sched.tasks
  | .wake t => c.current = .outside ∧ t ∈ c.sched.tasks ∧ t ≠ c.sched.rq.idle
  | .yield => c.current = .outside
  | .exit => c.current = .outside
  | .step => True
  | .timer => True

/-- Each runnable task other than the current one is in the queue exactly once. -/
def RunnableQueuedOnce (s : SchedState rb) : Prop :=
  ∀ t ∈ s.tasks, s.stateOf t = .runnable → t ≠ s.current → s.rq.order.count t = 1

/-- The queue is right whenever the CPU is outside `schedule`. -/
def QueuedOutside (c : TickState rb) : Prop := c.current = .outside → RunnableQueuedOnce c.sched

/-- The task that the queue, or its idle task, would give next. -/
def nextInLine (s : SchedState rb) : TaskPtr := (nextRunq s.rq).1

/-- A tick that reschedules is harmless at these places: before the requeue; behind it only if the current
task was not requeued; and with a chosen task only if that is the current task, or the current one is not
runnable and the chosen one is idle or the handler comes straight back. -/
def TickHarmless (s : SchedState rb) : Frame → Prop
  | .take => s.stateOf s.current ≠ .runnable
  | .flags next | .switch next => next = s.current ∨
      s.stateOf s.current ≠ .runnable ∧ (next = s.rq.idle ∨ nextInLine s = s.current)
  | _ => True

variable {mem : TaskPtr → RbNode TaskPtr}

/-- An event that keeps the queue: a harmless tick, a wake that is not on a zombie, and an exit of a runnable
task only while the links of its node agree with the tree that it has left. -/
def KeepsQueue (c : TickState (kernelRbTree mem)) : TickOp → Prop
  | .wake t => c.sched.stateOf t ≠ .zombie
  | .exit => c.sched.stateOf c.sched.current = .runnable → c.sched.rq.kernelLinks.AtRest c.sched.current
  | .timer => c.sched.tick.needResched = true → TickHarmless c.sched c.current
  | _ => True

instance TickOp.decidableAllowed (c : TickState rb) : (op : TickOp) → Decidable (op.Allowed c)
  | .spawn t => inferInstanceAs (Decidable (c.current = .outside ∧ t ∉ c.sched.tasks))
  | .wake t => inferInstanceAs
      (Decidable (c.current = .outside ∧ t ∈ c.sched.tasks ∧ t ≠ c.sched.rq.idle))
  | .yield => inferInstanceAs (Decidable (c.current = .outside))
  | .exit => inferInstanceAs (Decidable (c.current = .outside))
  | .step => .isTrue trivial
  | .timer => .isTrue trivial

instance TickHarmless.decidable (s : SchedState rb) : (f : Frame) → Decidable (TickHarmless s f)
  | .take => inferInstanceAs (Decidable (_ ≠ _))
  | .flags next => inferInstanceAs (Decidable (next = s.current ∨ _ ∧ (_ ∨ _)))
  | .switch next => inferInstanceAs (Decidable (next = s.current ∨ _ ∧ (_ ∨ _)))
  | .outside => .isTrue trivial
  | .inc => .isTrue trivial
  | .clear => .isTrue trivial
  | .charge => .isTrue trivial
  | .requeue => .isTrue trivial

instance KeepsQueue.decidable (c : TickState (kernelRbTree mem)) : (op : TickOp) → Decidable (KeepsQueue c op)
  | .wake t => inferInstanceAs (Decidable (c.sched.stateOf t ≠ .zombie))
  | .exit => inferInstanceAs (Decidable (_ → Links.AtRest _ _))
  | .timer => inferInstanceAs (Decidable (_ → TickHarmless c.sched c.current))
  | .spawn _ => .isTrue trivial
  | .yield => .isTrue trivial
  | .step => .isTrue trivial

/-! ## The queue at each place -/

/-- The runnable task that is not queued while a task is at a place: the task itself, the chosen one, or
none. -/
def Frame.away (f : Frame) (t : TaskPtr) : Option TaskPtr :=
  match f with
  | .take => none
  | .flags next | .switch next => some next
  | _ => some t

/-- The queue holds the tasks `l`, which are the runnable ones but `away`. -/
structure QueueHoldsBut (Ok : rb.Links → Prop) (s : SchedState rb) (away : Option TaskPtr)
    (l : List TaskPtr) : Prop where
  queues : s.rq.Queues Ok s.vruntime l
  mem_iff : ∀ t, t ∈ l ↔ t ∈ s.tasks ∧ s.stateOf t = .runnable ∧ some t ≠ away
  current_mem : s.current ∈ s.tasks
  idle_mem : s.rq.idle ∈ s.tasks

variable {s s' : SchedState rb} {l : List TaskPtr} {t : TaskPtr}

/-- The current task is not in the queue anyway. -/
theorem queueHoldsBut_current_iff :
    QueueHoldsBut Ok s (some s.current) l ↔ QueueHolds Ok s l := by
  constructor
  · intro h
    refine ⟨h.queues, fun t => ?_, h.current_mem, h.idle_mem⟩
    rw [h.mem_iff, ne_eq, Option.some_inj]
  · intro h
    refine ⟨h.queues, fun t => ?_, h.current_mem, h.idle_mem⟩
    rw [h.mem_iff, ne_eq, ne_eq, Option.some_inj]

/-- The place of `away` does not matter where it is not runnable. -/
theorem QueueHoldsBut.congr_away {away away' : Option TaskPtr} (h : QueueHoldsBut Ok s away l)
    (haway : ∀ t, s.stateOf t = .runnable → (some t ≠ away ↔ some t ≠ away')) :
    QueueHoldsBut Ok s away' l := by
  refine ⟨h.queues, fun t => ?_, h.current_mem, h.idle_mem⟩
  rw [h.mem_iff]
  exact and_congr_right fun _ => and_congr_right fun hrun => haway t hrun

/-- Steps that leave the queue and the states alone. -/
theorem QueueHoldsBut.congr {away : Option TaskPtr} (h : QueueHoldsBut Ok s away l)
    (hsame : s.SameTasks s') (hrq : s'.rq = s.rq) (hkey : ∀ t ∈ l, s'.vruntime t = s.vruntime t) :
    QueueHoldsBut Ok s' away l := by
  refine ⟨?_, fun t => ?_, ?_, ?_⟩
  · rw [hrq]
    exact h.queues.congr_key hkey
  · rw [h.mem_iff, hsame.tasks, hsame.stateOf]
  · rw [hsame.tasks, hsame.current]
    exact h.current_mem
  · rw [hsame.tasks, hsame.idle]
    exact h.idle_mem

/-- The charge of the current task, which is not queued. -/
theorem QueueHoldsBut.charge (h : QueueHoldsBut Ok s (some s.current) l) :
    QueueHoldsBut Ok (s.charge s.current) (some s.current) l := by
  apply h.congr (s.sameTasks_modifyTask s.current Task.charge fun _ => rfl) rfl
  intro t ht
  apply s.vruntime_modifyTask_of_ne
  rintro rfl
  exact ((h.mem_iff s.current).mp ht).2.2 rfl

/-- The requeue puts every runnable task into the queue. -/
theorem QueueHoldsBut.requeueCurrent (hrb : rb.Lawful Ok)
    (h : QueueHoldsBut Ok s (some s.current) l) :
    ∃ l', QueueHoldsBut Ok s.requeueCurrent none l' := by
  have hsame := s.sameTasks_requeueCurrent
  have hnot : s.current ∉ l := fun hmem => ((h.mem_iff s.current).mp hmem).2.2 rfl
  by_cases hrun : s.stateOf s.current = .runnable
  · have hrequeue : s.requeueCurrent = s.addRunq s.current := if_pos hrun
    rw [hrequeue] at hsame ⊢
    refine ⟨_, queues_addRunq hrb h.queues hnot, fun t => ?_, ?_, ?_⟩
    · rw [mem_insertStable, h.mem_iff, hsame.tasks, hsame.stateOf]
      by_cases heq : t = s.current
      · exact iff_of_true (.inl heq) (heq ▸ ⟨h.current_mem, hrun, nofun⟩)
      · rw [or_iff_right heq]
        exact and_congr_right fun _ => and_congr_right fun _ =>
          iff_of_true (fun hc => heq (Option.some.inj hc)) nofun
    · rw [hsame.tasks, hsame.current]
      exact h.current_mem
    · rw [hsame.tasks, hsame.idle]
      exact h.idle_mem
  · have hrequeue : s.requeueCurrent = s := if_neg hrun
    rw [hrequeue]
    refine ⟨l, h.congr_away fun t ht => iff_of_true ?_ nofun⟩
    rintro hc
    rw [Option.some.inj hc] at ht
    exact hrun ht

/-- The task that was taken is runnable, or there was none and it is idle. -/
structure Chosen (s : SchedState rb) (next : TaskPtr) : Prop where
  mem : next ∈ s.tasks
  runnable_or_idle : s.stateOf next = .runnable ∨ next = s.rq.idle

/-- `next_runq` takes the chosen task out of the queue. -/
theorem QueueHoldsBut.takeNext (hrb : rb.Lawful Ok) (h : QueueHoldsBut Ok s none l) :
    QueueHoldsBut Ok s.takeNext.2 (some s.takeNext.1) l.tail ∧ Chosen s.takeNext.2 s.takeNext.1 ∧
      s.SameTasks s.takeNext.2 ∧ s.takeNext.1 = l.head?.getD s.rq.idle := by
  cases l with
  | nil =>
    have hnext := RunQ.Queues.nextRunq_nil h.queues
    have htake : s.takeNext = (s.rq.idle, s) := by
      rw [SchedState.takeNext, hnext]
    rw [htake]
    refine ⟨h.congr_away fun t ht => ?_, ⟨h.idle_mem, .inr rfl⟩, ⟨rfl, rfl, rfl, fun _ => rfl⟩, rfl⟩
    -- nothing is runnable, since nothing is queued
    have hqueued := h.mem_iff t
    constructor
    · intro _ heq
      rw [Option.some.inj heq] at ht hqueued
      exact List.not_mem_nil (hqueued.mpr ⟨h.idle_mem, ht, nofun⟩)
    · exact fun _ => nofun
  | cons a l =>
    have hnext := RunQ.Queues.nextRunq_cons hrb h.queues
    have ha := (h.mem_iff a).mp List.mem_cons_self
    have hidle : (nextRunq s.rq).2.idle = s.rq.idle := by
      rw [nextRunq, h.queues.leftmost]
      rfl
    have hsame : s.SameTasks s.takeNext.2 := ⟨rfl, rfl, hidle, fun _ => rfl⟩
    have hfirst : s.takeNext.1 = a := hnext.1
    rw [hfirst]
    refine ⟨⟨hnext.2, fun t => ?_, h.current_mem, ?_⟩, ⟨ha.1, .inl ha.2.1⟩, hsame, rfl⟩
    · have ht := h.mem_iff t
      have hnot := (List.nodup_cons.mp h.queues.nodup).1
      constructor
      · intro hmem
        have htask := ht.mp (List.mem_cons_of_mem a hmem)
        refine ⟨htask.1, htask.2.1, fun heq => ?_⟩
        rw [Option.some.inj heq] at hmem
        exact hnot hmem
      · intro htask
        have hmem := ht.mpr ⟨htask.1, htask.2.1, nofun⟩
        exact List.mem_of_ne_of_mem (fun heq => htask.2.2 (congrArg some heq)) hmem
    · show (nextRunq s.rq).2.idle ∈ s.tasks
      rw [hidle]
      exact h.idle_mem

/-! ## The invariant -/

/-- A task that is not current may be resumed at its place: it has nothing away but itself, or it is a
zombie, or the idle task before its choice. -/
def Settled (s : SchedState rb) (f : Frame) (t : TaskPtr) : Prop :=
  f.away t = some t ∨ (s.stateOf t = .zombie ∧ t ≠ s.rq.idle) ∨ (f = .take ∧ t = s.rq.idle)

/-- Where a task stands depends on its state and on the idle context only. -/
theorem Settled.congr {f : Frame} (h : Settled s f t) (hstate : s'.stateOf t = s.stateOf t)
    (hidle : s'.rq.idle = s.rq.idle) : Settled s' f t := by
  rwa [Settled, hstate, hidle]

/-- What holds at every event. -/
structure TickSound (Ok : rb.Links → Prop) (c : TickState rb) : Prop where
  queue : ∃ l, QueueHoldsBut Ok c.sched (c.current.away c.sched.current) l
  idle_waits : c.sched.stateOf c.sched.rq.idle ≠ .runnable
  active : IdleOrRunnable c.sched ∨ c.sched.stateOf c.sched.current = .zombie
  outside : c.current = .outside → IdleOrRunnable c.sched
  chosen : ∀ next, c.current = .flags next ∨ c.current = .switch next → Chosen c.sched next
  others : ∀ t, t ≠ c.sched.current → Settled c.sched (c.frame t) t

variable {c : TickState rb}

/-- The invariant gives the property. -/
theorem TickSound.queuedOutside (h : TickSound Ok c) : QueuedOutside c := by
  intro hout t ht hrun hne
  obtain ⟨l, hqueue⟩ := h.queue
  rw [hout] at hqueue
  have hmem := (hqueue.mem_iff t).mpr ⟨ht, hrun, fun heq => hne (Option.some.inj heq)⟩
  rw [hqueue.queues.order]
  exact List.count_eq_one_of_mem hqueue.queues.nodup hmem

/-- Any task may become current in a sound queue. -/
theorem tickSound_resume (hqueue : QueueHolds Ok s l) (hidle : IdleOrRunnable s)
    (hwaits : s.stateOf s.rq.idle ≠ .runnable) {frame : TaskPtr → Frame}
    (hsettled : ∀ t, Settled s (frame t) t) : TickSound Ok ⟨s, frame⟩ := by
  have hbut := queueHoldsBut_current_iff.mpr hqueue
  have hdead : ¬ (s.stateOf s.current = .zombie ∧ s.current ≠ s.rq.idle) := by
    rintro ⟨hzombie, hne⟩
    cases hidle with
    | inl hrun =>
      rw [hzombie] at hrun
      cases hrun
    | inr heq => exact hne heq
  refine ⟨⟨l, ?_⟩, hwaits, .inl hidle, fun _ => hidle, ?_, fun t _ => hsettled t⟩
  · show QueueHoldsBut Ok s ((frame s.current).away s.current) l
    cases hsettled s.current with
    | inl haway =>
      rw [haway]
      exact hbut
    | inr h =>
      obtain ⟨hframe, heq⟩ := h.resolve_left hdead
      rw [hframe]
      apply hbut.congr_away
      intro t hrun
      refine iff_of_true (fun hc => ?_) nofun
      rw [Option.some.inj hc, heq] at hrun
      exact hwaits hrun
  · intro next hnext
    have haway : (frame s.current).away s.current = some next := by
      show (TickState.current ⟨s, frame⟩).away s.current = some next
      cases hnext with
      | inl h => rw [h]; rfl
      | inr h => rw [h]; rfl
    have hself : next = s.current := by
      cases hsettled s.current with
      | inl h => exact Option.some.inj (haway.symm.trans h)
      | inr h =>
        rw [(h.resolve_left hdead).1] at haway
        cases haway
    rw [hself]
    exact ⟨hqueue.current_mem, hidle⟩

/-- The current task goes on to another place inside `schedule`. -/
theorem TickSound.goto (h : TickSound Ok c) (hsame : c.sched.SameTasks s) {f : Frame}
    (hqueue : ∃ l, QueueHoldsBut Ok s (f.away c.sched.current) l) (hf : f ≠ .outside)
    (hchosen : ∀ next, f = .flags next ∨ f = .switch next → Chosen s next) :
    TickSound Ok (c.goto s f) := by
  have hframe : (c.goto s f).current = f := by
    rw [TickState.current, TickState.goto, hsame.current]
    exact Function.update_self _ f c.frame
  refine ⟨?_, ?_, ?_, ?_, ?_, ?_⟩
  · rw [hframe]
    show ∃ l, QueueHoldsBut Ok s (f.away s.current) l
    rwa [hsame.current]
  · show s.stateOf s.rq.idle ≠ .runnable
    rw [hsame.stateOf, hsame.idle]
    exact h.idle_waits
  · show IdleOrRunnable s ∨ s.stateOf s.current = .zombie
    rw [IdleOrRunnable, hsame.stateOf, hsame.current, hsame.idle]
    exact h.active
  · rw [hframe]
    exact fun hout => absurd hout hf
  · rw [hframe]
    exact hchosen
  · intro t ht
    have hne : t ≠ c.sched.current := by
      rw [← hsame.current]
      exact ht
    show Settled s (Function.update c.frame c.sched.current f t) t
    rw [Function.update_of_ne hne]
    exact (h.others t hne).congr (hsame.stateOf t) hsame.idle

/-- Something happens to the scheduler that does not matter to the tasks. -/
theorem TickSound.congr (h : TickSound Ok c) (hsame : c.sched.SameTasks s)
    (hqueue : ∃ l, QueueHoldsBut Ok s (c.current.away c.sched.current) l) :
    TickSound Ok { c with sched := s } := by
  have hframe : (TickState.mk s c.frame).current = c.current := congrArg c.frame hsame.current
  refine ⟨?_, ?_, ?_, ?_, ?_, ?_⟩
  · rw [hframe]
    show ∃ l, QueueHoldsBut Ok s (c.current.away s.current) l
    rwa [hsame.current]
  · show s.stateOf s.rq.idle ≠ .runnable
    rw [hsame.stateOf, hsame.idle]
    exact h.idle_waits
  · show IdleOrRunnable s ∨ s.stateOf s.current = .zombie
    rw [IdleOrRunnable, hsame.stateOf, hsame.current, hsame.idle]
    exact h.active
  · rw [hframe]
    show _ → IdleOrRunnable s
    rw [IdleOrRunnable, hsame.stateOf, hsame.current, hsame.idle]
    exact h.outside
  · rw [hframe]
    intro next hnext
    have hchosen := h.chosen next hnext
    refine ⟨?_, ?_⟩
    · rw [hsame.tasks]
      exact hchosen.mem
    · show s.stateOf next = .runnable ∨ next = s.rq.idle
      rw [hsame.stateOf, hsame.idle]
      exact hchosen.runnable_or_idle
  · intro t ht
    have hne : t ≠ c.sched.current := by
      rw [← hsame.current]
      exact ht
    exact (h.others t hne).congr (hsame.stateOf t) hsame.idle

/-! ## Each event -/

/-- One step of `schedule`. -/
theorem TickSound.step (hrb : rb.Lawful Ok) (h : TickSound Ok c) : TickSound Ok c.step := by
  obtain ⟨l, hqueue⟩ := h.queue
  rw [TickState.step]
  cases hf : c.current with
  | outside => exact h
  | inc =>
    rw [hf] at hqueue
    have hsame : c.sched.SameTasks c.sched.incPreempt := ⟨rfl, rfl, rfl, fun _ => rfl⟩
    exact h.goto hsame ⟨l, hqueue.congr hsame rfl fun _ _ => rfl⟩ nofun nofun
  | clear =>
    rw [hf] at hqueue
    have hsame : c.sched.SameTasks c.sched.clearResched := ⟨rfl, rfl, rfl, fun _ => rfl⟩
    exact h.goto hsame ⟨l, hqueue.congr hsame rfl fun _ _ => rfl⟩ nofun nofun
  | charge =>
    rw [hf] at hqueue
    have hsame := c.sched.sameTasks_modifyTask c.sched.current Task.charge fun _ => rfl
    exact h.goto hsame ⟨l, hqueue.charge⟩ nofun nofun
  | requeue =>
    rw [hf] at hqueue
    exact h.goto c.sched.sameTasks_requeueCurrent (hqueue.requeueCurrent hrb) nofun nofun
  | take =>
    rw [hf] at hqueue
    obtain ⟨htake, hchosen, hsame, _⟩ := hqueue.takeNext hrb
    refine h.goto hsame ⟨l.tail, htake⟩ nofun fun next hnext => ?_
    cases hnext with
    | inl heq => exact (Frame.flags.inj heq) ▸ hchosen
    | inr heq => cases heq
  | flags next =>
    rw [hf] at hqueue
    have hsame := c.sched.sameTasks_updateFlags next
    have hchosen := h.chosen next (.inl hf)
    refine h.goto hsame
      ⟨l, hqueue.congr hsame rfl fun t _ => c.sched.vruntime_updateFlags next t⟩ nofun ?_
    intro next' hnext'
    cases hnext' with
    | inl heq => cases heq
    | inr heq =>
      rw [← Frame.switch.inj heq]
      refine ⟨hsame.tasks ▸ hchosen.mem, ?_⟩
      rw [hsame.stateOf, hsame.idle]
      exact hchosen.runnable_or_idle
  | switch next =>
    rw [hf] at hqueue
    have hchosen := h.chosen next (.inr hf)
    have hholds : QueueHolds Ok (c.sched.switchTo next) l := by
      rw [← queueHoldsBut_current_iff]
      exact ⟨hqueue.queues, hqueue.mem_iff, hchosen.mem, hqueue.idle_mem⟩
    apply tickSound_resume hholds hchosen.runnable_or_idle h.idle_waits
    intro t
    by_cases ht : t = c.sched.current
    · left
      rw [ht, Function.update_self]
      rfl
    · rw [Function.update_of_ne ht]
      exact h.others t ht

/-- The time slice does not matter to the queue. -/
theorem sameTasks_tick (s : SchedState rb) :
    s.SameTasks s.tick ∧ s.tick.rq = s.rq ∧ ∀ t, s.tick.vruntime t = s.vruntime t := by
  have hslice : ∀ slice, s.SameTasks (s.modifyTask s.current (Task.setTimeSlice slice)) ∧
      ∀ t, (s.modifyTask s.current (Task.setTimeSlice slice)).vruntime t = s.vruntime t :=
    fun slice => ⟨s.sameTasks_modifyTask s.current (Task.setTimeSlice slice) fun _ => rfl,
      s.vruntime_modifyTask (f := Task.setTimeSlice slice) s.current fun _ => rfl⟩
  rw [SchedState.tick]
  split
  next =>
    obtain ⟨hsame, hkey⟩ := hslice 0
    exact ⟨⟨hsame.tasks, hsame.current, hsame.idle, hsame.stateOf⟩, rfl, hkey⟩
  next =>
    obtain ⟨hsame, hkey⟩ := hslice (((s.task s.current).timeSlice + 1) % Mm.wordSize)
    exact ⟨hsame, rfl, hkey⟩

/-- A handler that reschedules while nothing but the current task is away. -/
theorem TickSound.reschedule (hrb : rb.Lawful Ok) (h : TickSound Ok c)
    (hqueue : QueueHoldsBut Ok c.sched (some c.sched.current) l)
    (hsettled : Settled c.sched c.current c.sched.current) :
    TickSound Ok { c with sched := c.sched.tick.schedule } := by
  obtain ⟨hsame, hrq, hkey⟩ := sameTasks_tick c.sched
  have htick : QueueHolds Ok c.sched.tick l := by
    have hbut := hqueue.congr hsame hrq fun t _ => hkey t
    rw [← hsame.current] at hbut
    exact queueHoldsBut_current_iff.mp hbut
  obtain ⟨hholds, hidle⟩ := htick.schedule hrb
  have hidle' : c.sched.tick.schedule.rq.idle = c.sched.rq.idle :=
    (htick.queues_schedule hrb).2.trans hsame.idle
  have hstate : ∀ t, c.sched.tick.schedule.stateOf t = c.sched.stateOf t := fun t =>
    (c.sched.tick.stateOf_schedule t).trans (hsame.stateOf t)
  apply tickSound_resume hholds hidle
  · rw [hstate, hidle']
    exact h.idle_waits
  · intro t
    apply Settled.congr _ (hstate t) hidle'
    by_cases ht : t = c.sched.current
    · rw [ht]
      exact hsettled
    · exact h.others t ht

/-- A handler that reschedules into the task that it interrupted, because nothing else can run. -/
theorem TickSound.comeBack (h : TickSound Ok c) {away : Option TaskPtr}
    (hqueue : QueueHoldsBut Ok c.sched away l) (haway : c.current.away c.sched.current = away)
    (hrun : c.sched.stateOf c.sched.current ≠ .runnable)
    (hnext : nextInLine c.sched = c.sched.current) :
    TickSound Ok { c with sched := c.sched.tick.schedule } := by
  obtain ⟨hsame, hrq, hkey⟩ := sameTasks_tick c.sched
  cases l with
  | cons a l =>
    have ha := (hqueue.mem_iff a).mp List.mem_cons_self
    have hfirst : nextInLine c.sched = a := by
      rw [nextInLine, nextRunq, hqueue.queues.leftmost]
      rfl
    rw [← hnext, hfirst] at hrun
    exact absurd ha.2.1 hrun
  | nil =>
    have hrun' : c.sched.tick.stateOf c.sched.tick.current ≠ .runnable := by
      rwa [hsame.stateOf, hsame.current]
    have hplace : c.sched.tick.placePrev.rq = c.sched.rq := by
      rw [placePrev_of_not_runnable hrun']
      exact hrq
    have hnil := RunQ.Queues.nextRunq_nil hqueue.queues
    have hidle : c.sched.rq.idle = c.sched.current := by
      rw [nextInLine, hnil] at hnext
      exact hnext
    have hrq' : c.sched.tick.schedule.rq = c.sched.rq := by
      rw [SchedState.rq_schedule, hplace, hnil]
    have hsame' : c.sched.SameTasks c.sched.tick.schedule := by
      refine ⟨?_, ?_, congrArg RunQ.idle hrq', fun t => ?_⟩
      · rw [SchedState.tasks_schedule, hsame.tasks]
      · rw [SchedState.current_schedule, hplace, hnil]
        exact hidle
      · rw [SchedState.stateOf_schedule, hsame.stateOf]
    apply h.congr hsame'
    rw [haway]
    exact ⟨[], hqueue.congr hsame' hrq' fun _ ht => absurd ht List.not_mem_nil⟩

/-- A task that is chosen and not switched to yet, when a harmless tick reschedules. -/
theorem TickSound.reschedule_chosen (hrb : rb.Lawful Ok) (h : TickSound Ok c) {next : TaskPtr}
    (haway : c.current.away c.sched.current = some next)
    (hharmless : next = c.sched.current ∨ c.sched.stateOf c.sched.current ≠ .runnable ∧
      (next = c.sched.rq.idle ∨ nextInLine c.sched = c.sched.current)) :
    TickSound Ok { c with sched := c.sched.tick.schedule } := by
  obtain ⟨l, hqueue⟩ := h.queue
  rw [haway] at hqueue
  by_cases hself : next = c.sched.current
  · rw [hself] at hqueue haway
    exact h.reschedule hrb hqueue (.inl haway)
  · obtain ⟨hrun, hcase⟩ := hharmless.resolve_left hself
    cases hcase with
    | inl hidle =>
      have hnot : c.sched.current ≠ c.sched.rq.idle := hidle ▸ fun heq => hself heq.symm
      have hzombie : c.sched.stateOf c.sched.current = .zombie :=
        h.active.resolve_left fun hi => hi.elim hrun hnot
      refine h.reschedule hrb (hqueue.congr_away fun t ht => iff_of_true ?_ ?_)
        (.inr (.inl ⟨hzombie, hnot⟩))
      · intro heq
        rw [Option.some.inj heq, hidle] at ht
        exact h.idle_waits ht
      · intro heq
        rw [Option.some.inj heq] at ht
        exact hrun ht
    | inr hback => exact h.comeBack hqueue haway hrun hback

/-- The timer interrupt, where it is harmless. -/
theorem TickSound.timer (hrb : rb.Lawful Ok) (h : TickSound Ok c)
    (hharmless : c.sched.tick.needResched = true → TickHarmless c.sched c.current) :
    TickSound Ok { c with sched := c.sched.lapicTimerHandler } := by
  obtain ⟨l, hqueue⟩ := h.queue
  by_cases hresched : c.sched.tick.needResched = true
  · have hhandler : c.sched.lapicTimerHandler = c.sched.tick.schedule := if_pos hresched
    have hplace := hharmless hresched
    rw [hhandler]
    cases hf : c.current with
    | take =>
      rw [hf] at hqueue hplace
      have hrun : c.sched.stateOf c.sched.current ≠ .runnable := hplace
      refine h.reschedule hrb (hqueue.congr_away fun t ht => iff_of_true nofun ?_) ?_
      · intro heq
        rw [Option.some.inj heq] at ht
        exact hrun ht
      · rw [hf]
        by_cases hidle : c.sched.current = c.sched.rq.idle
        · exact .inr (.inr ⟨rfl, hidle⟩)
        · exact .inr (.inl ⟨h.active.resolve_left fun hi => hi.elim hrun hidle, hidle⟩)
    | flags next =>
      rw [hf] at hplace
      exact h.reschedule_chosen hrb (congrArg (Frame.away · _) hf) hplace
    | switch next =>
      rw [hf] at hplace
      exact h.reschedule_chosen hrb (congrArg (Frame.away · _) hf) hplace
    | _ =>
      rw [hf] at hqueue
      exact h.reschedule hrb hqueue (.inl (congrArg (Frame.away · _) hf))
  · have hhandler : c.sched.lapicTimerHandler = c.sched.tick := if_neg hresched
    obtain ⟨hsame, hrq, hkey⟩ := sameTasks_tick c.sched
    rw [hhandler]
    exact h.congr hsame ⟨l, hqueue.congr hsame hrq fun t _ => hkey t⟩

/-- The queue in task code. -/
theorem TickSound.queue_outside (h : TickSound Ok c) (hout : c.current = .outside) :
    ∃ l, QueueHolds Ok c.sched l := by
  obtain ⟨l, hqueue⟩ := h.queue
  rw [hout] at hqueue
  exact ⟨l, queueHoldsBut_current_iff.mp hqueue⟩

/-- `task_exit` on the way to its `schedule`. -/
theorem TickSound.retire (h : TickSound Ok c) (hout : c.current = .outside)
    (hstale : c.sched.stateOf c.sched.current = .runnable →
      rb.erase c.sched.rq.links c.sched.current = c.sched.rq.links) :
    TickSound Ok (c.goto c.sched.retire .inc) := by
  obtain ⟨l, hqueue⟩ := h.queue_outside hout
  have hretire := hqueue.retire hstale
  have hcurrent : c.sched.retire.current = c.sched.current := by
    rw [SchedState.retire]
    split <;> rfl
  have hidle : c.sched.retire.rq.idle = c.sched.rq.idle := by
    rw [SchedState.retire]
    split <;> rfl
  have hzombie : c.sched.retire.stateOf c.sched.current = .zombie := by
    rw [SchedState.retire, SchedState.stateOf_setState_self]
  have hstate : ∀ t, t ≠ c.sched.current → c.sched.retire.stateOf t = c.sched.stateOf t := by
    intro t ht
    rw [SchedState.retire, SchedState.stateOf_setState_of_ne _ _ ht]
    split <;> rfl
  have hframe : (c.goto c.sched.retire .inc).current = .inc := by
    rw [TickState.current, TickState.goto, hcurrent]
    exact Function.update_self _ Frame.inc c.frame
  refine ⟨⟨l, ?_⟩, ?_, .inr ?_, ?_, ?_, ?_⟩
  · rw [hframe]
    exact queueHoldsBut_current_iff.mpr hretire
  · show c.sched.retire.stateOf c.sched.retire.rq.idle ≠ .runnable
    rw [hidle]
    by_cases heq : c.sched.rq.idle = c.sched.current
    · rw [heq, hzombie]
      decide
    · rw [hstate _ heq]
      exact h.idle_waits
  · show c.sched.retire.stateOf c.sched.retire.current = .zombie
    rw [hcurrent, hzombie]
  · rw [hframe]
    intro houtside
    cases houtside
  · rw [hframe]
    intro next hnext
    rcases hnext with hflags | hswitch
    · cases hflags
    · cases hswitch
  · intro t ht
    have hne : t ≠ c.sched.current := by
      rw [← hcurrent]
      exact ht
    show Settled c.sched.retire (Function.update c.frame c.sched.current .inc t) t
    rw [Function.update_of_ne hne]
    exact (h.others t hne).congr (hstate t hne) hidle

/-- `task_wake` on a task that is neither idle nor a zombie. -/
theorem TickSound.taskWake (hrb : rb.Lawful Ok) (h : TickSound Ok c) (hout : c.current = .outside)
    (ht : t ∈ c.sched.tasks) (hidle : t ≠ c.sched.rq.idle) (hzombie : c.sched.stateOf t ≠ .zombie) :
    TickSound Ok { c with sched := c.sched.taskWake t } := by
  obtain ⟨l, hqueue⟩ := h.queue_outside hout
  by_cases hrun : c.sched.stateOf t = .runnable
  · have hwake : c.sched.taskWake t = c.sched := if_neg (not_not_intro hrun)
    rw [hwake]
    exact h
  · have hactive := h.outside hout
    have hcurrent : t ≠ c.sched.current := by
      rintro rfl
      exact hactive.elim hrun hidle
    have hwake : c.sched.taskWake t = (c.sched.setState t .runnable).addRunq t := if_pos hrun
    have hsame := (c.sched.setState t .runnable).sameTasks_addRunq t
    have hstate : ∀ t', t' ≠ t → (c.sched.taskWake t).stateOf t' = c.sched.stateOf t' := by
      intro t' ht'
      rw [hwake, hsame.stateOf, SchedState.stateOf_setState_of_ne _ _ ht']
    have hcurrent' : (c.sched.taskWake t).current = c.sched.current := hwake ▸ hsame.current
    have hidle' : (c.sched.taskWake t).rq.idle = c.sched.rq.idle := hwake ▸ hsame.idle
    apply tickSound_resume (hqueue.taskWake hrb ht fun heq => absurd heq hcurrent)
      (idleOrRunnable_taskWake hactive)
    · rw [hidle', hstate _ hidle.symm]
      exact h.idle_waits
    · intro t'
      by_cases heq : t' = t
      · left
        rw [heq]
        have hsettled := h.others t hcurrent
        exact hsettled.resolve_right fun hc =>
          hc.elim (fun hz => hzombie hz.1) fun hi => hidle hi.2
      · by_cases hself : t' = c.sched.current
        · left
          rw [hself]
          exact congrArg (Frame.away · c.sched.current) hout
        · exact (h.others t' hself).congr (hstate t' heq) hidle'

/-- A new task is outside `schedule`. -/
theorem TickSound.ktaskSpawn (h : TickSound Ok c) (hout : c.current = .outside)
    (ht : t ∉ c.sched.tasks) :
    TickSound Ok ⟨c.sched.ktaskSpawn t, Function.update c.frame t .outside⟩ := by
  obtain ⟨l, hqueue⟩ := h.queue_outside hout
  have hstate : ∀ t', t' ≠ t → (c.sched.ktaskSpawn t).stateOf t' = c.sched.stateOf t' :=
    fun t' ht' => congrArg Task.state (Function.update_of_ne ht' _ c.sched.task)
  have hne : c.sched.rq.idle ≠ t := by
    rintro rfl
    exact ht hqueue.idle_mem
  apply tickSound_resume (hqueue.ktaskSpawn ht) (idleOrRunnable_ktaskSpawn hqueue (h.outside hout) ht)
  · show (c.sched.ktaskSpawn t).stateOf c.sched.rq.idle ≠ .runnable
    rw [hstate _ hne]
    exact h.idle_waits
  · intro t'
    by_cases heq : t' = t
    · left
      rw [heq, Function.update_self]
      rfl
    · rw [Function.update_of_ne heq]
      by_cases hself : t' = c.sched.current
      · left
        rw [hself]
        exact congrArg (Frame.away · c.sched.current) hout
      · exact (h.others t' hself).congr (hstate t' heq) rfl

/-- Erasing a task whose links agree with the tree changes nothing. -/
theorem erase_atRest {links : Links TaskPtr} (h : links.AtRest t) : (kernelRbTree mem).erase links t = links := by
  show (Flos.Rbtree.rbErase maxRounds t links).getD links = links
  rw [rbErase_atRest maxRounds h, Option.getD_some]

/-- Every event that keeps the queue keeps the invariant. -/
theorem TickSound.exec {c : TickState (kernelRbTree mem)} (h : TickSound TreeOk c) {op : TickOp}
    (hop : op.Allowed c) (hkeeps : KeepsQueue c op) : TickSound TreeOk (op.exec c) := by
  have hrb := kernelRbTree_lawful mem
  cases op with
  | spawn t => exact h.ktaskSpawn hop.1 hop.2
  | wake t => exact h.taskWake hrb hop.1 hop.2.1 hop.2.2 hkeeps
  | yield =>
    have hout : c.current = .outside := hop
    obtain ⟨l, hqueue⟩ := h.queue
    rw [hout] at hqueue
    exact h.goto ⟨rfl, rfl, rfl, fun _ => rfl⟩ ⟨l, hqueue⟩ nofun nofun
  | exit => exact h.retire hop fun hrun => erase_atRest (hkeeps hrun)
  | step => exact h.step hrb
  | timer => exact h.timer hrb hkeeps

/-- The boot context, in its own code. -/
def bootTicks (rb : RbTree) (idle : TaskPtr) : TickState rb :=
  ⟨initScheduler rb idle, fun _ => .outside⟩

/-- In every run of calls, steps of `schedule` and ticks that all keep the queue, each runnable task other
than the current one is queued exactly once whenever the CPU is outside `schedule`. -/
theorem ticks_run_queuedOutside (mem : TaskPtr → RbNode TaskPtr) (idle : TaskPtr) {ops : List TickOp}
    (hops : EveryStep TickOp.exec (fun c op => op.Allowed c ∧ KeepsQueue c op)
      (bootTicks (kernelRbTree mem) idle) ops) :
    EveryState TickOp.exec QueuedOutside (bootTicks (kernelRbTree mem) idle) ops := by
  have hinit : TickSound TreeOk (bootTicks (kernelRbTree mem) idle) := by
    obtain ⟨hqueue, hidle⟩ := queueHolds_initScheduler (kernelRbTree_lawful mem) idle
    have hwaits : (initScheduler (kernelRbTree mem) idle).stateOf idle ≠ .runnable := by
      rw [initScheduler, SchedState.stateOf, SchedState.modifyTask_self]
      show TaskState.init ≠ .runnable
      decide
    exact tickSound_resume hqueue hidle hwaits fun t => .inl rfl
  exact hops.everyState (fun c (hc : TickSound TreeOk c) => hc.queuedOutside)
    (fun c op hc hop => hc.exec hop.1 hop.2) hinit

/-- Ticks in the `schedule` of the boot context before its requeue, and in the one of a task that exits. -/
def earlyTicks : List TickOp :=
  TickOp.spawn taskA :: .spawn taskB :: .wake taskA :: .wake taskB :: .yield :: .step :: .step ::
    (List.replicate 10 TickOp.timer ++ [TickOp.exit, .step, .timer, .step])

/-- No task is lost in this run. -/
theorem ticks_run_queuedOutside_early :
    EveryState TickOp.exec QueuedOutside
      (bootTicks (kernelRbTree fun _ => zeroedNode) idleTask) earlyTicks :=
  ticks_run_queuedOutside _ idleTask (by decide +kernel)

/-- The boot context has taken task A from the queue, and before it switches to it the tenth tick of its
time slice comes. -/
def lateTick : List TickOp :=
  List.replicate 9 TickOp.timer ++ TickOp.spawn taskA :: .spawn taskB :: .wake taskA :: .wake taskB ::
    .yield :: (List.replicate 5 TickOp.step ++ [TickOp.timer])

/-- The handler switches to task B: A is runnable and in no queue. -/
theorem tick_loses_chosen_task :
    EveryStep TickOp.exec TickOp.Allowed
        (bootTicks (kernelRbTree fun _ => zeroedNode) idleTask) lateTick ∧
      ¬ EveryState TickOp.exec QueuedOutside
        (bootTicks (kernelRbTree fun _ => zeroedNode) idleTask) lateTick := by
  refine ⟨by decide +kernel, fun h => ?_⟩
  have hcount := h.last (by decide +kernel) taskA (by decide +kernel) (by decide +kernel)
    (by decide +kernel)
  exact absurd hcount (by decide +kernel)

end Flos.Sched
