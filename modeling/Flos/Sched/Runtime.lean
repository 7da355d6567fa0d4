import Flos.Sched.Membership
import Flos.Sched.PriorityQueue

/-!
# What `vruntime` records

`schedule` charges the running task, and `add_runq` gives a task that has started the smallest runtime in
the queue, whatever it had. The record survives only where that smallest runtime is no less.
-/

namespace Flos.Sched

open Flos.Lib
open Flos.Mm (wordSize)

variable {rb : RbTree} {s : SchedState rb} {t : TaskPtr}

/-- The state after the current task is charged. -/
def SchedState.charged (s : SchedState rb) : SchedState rb :=
  s.incPreempt.clearResched.charge s.current

/-- The values that the runtime of a task takes one after the other in a call. -/
def runtimeValues (s : SchedState rb) (t : TaskPtr) : SchedOp → List ℕ
  | .spawn t' => [s.vruntime t, (s.ktaskSpawn t').vruntime t]
  | .wake t' => [s.vruntime t, (s.taskWake t').vruntime t]
  | .schedule => [s.vruntime t, s.charged.vruntime t, s.schedule.vruntime t]
  | .exit => [s.vruntime t, s.retire.charged.vruntime t, s.taskExit.vruntime t]

/-- No runtime decreases during a call. The life of a task starts where it is spawned. -/
def RuntimeKept (s : SchedState rb) (op : SchedOp) : Prop :=
  ∀ t, op ≠ .spawn t → (runtimeValues s t op).IsChain (· ≤ ·)

/-- A task may be queued with the smallest runtime in the queue if it has no more than that, charge
included. A queue so damaged that it starts with the current task follows the charge. -/
def KeepsRuntime (s : SchedState rb) : SchedOp → Prop
  | .spawn _ => True
  | .wake t => s.stateOf t ≠ .runnable → s.vruntime t ≤ minVruntime s.vruntime s.rq
  | .schedule => s.vruntime s.current + 1 < wordSize ∧ (s.stateOf s.current = .runnable →
      s.rq.leftmost = some s.current ∨ s.vruntime s.current + 1 ≤ minVruntime s.vruntime s.rq)
  | .exit => s.vruntime s.current + 1 < wordSize

/-- The scheduler with the number of `schedule` calls in which each task was charged. -/
abbrev WithCharges (rb : RbTree) := SchedState rb × (TaskPtr → ℕ)

/-- A call, with the history of charges. -/
def SchedOp.execCharges (p : WithCharges rb) : SchedOp → WithCharges rb
  | .spawn t => (p.1.ktaskSpawn t, Function.update p.2 t 0)
  | .wake t => (p.1.taskWake t, p.2)
  | .schedule => (p.1.schedule, Function.update p.2 p.1.current (p.2 p.1.current + 1))
  | .exit => (p.1.taskExit, Function.update p.2 p.1.current (p.2 p.1.current + 1))

/-- Each task has at least the runtime it was charged. -/
def ChargesRecorded (p : WithCharges rb) : Prop := ∀ t, p.2 t ≤ p.1.vruntime t

/-- Runtimes are 64-bit words. -/
def RuntimeWords (s : SchedState rb) : Prop := ∀ t, s.vruntime t < wordSize

/-! ## The runtimes after each call -/

/-- A new task leaves the runtimes of the others. -/
theorem vruntime_ktaskSpawn_of_ne {t' : TaskPtr} (h : t ≠ t') :
    (s.ktaskSpawn t').vruntime t = s.vruntime t :=
  congrArg Task.vruntime (Function.update_of_ne h _ s.task)

/-- A new task has run for no time. -/
theorem vruntime_ktaskSpawn_self (s : SchedState rb) (t : TaskPtr) :
    (s.ktaskSpawn t).vruntime t = 0 :=
  congrArg Task.vruntime (Function.update_self t _ s.task)

/-- The current task is charged a tick. -/
theorem vruntime_charged_self (s : SchedState rb) :
    s.charged.vruntime s.current = (s.vruntime s.current + 1) % wordSize :=
  congrArg Task.vruntime (s.incPreempt.clearResched.modifyTask_self s.current Task.charge)

/-- No other task is charged. -/
theorem vruntime_charged_of_ne (h : t ≠ s.current) : s.charged.vruntime t = s.vruntime t :=
  s.incPreempt.clearResched.vruntime_modifyTask_of_ne Task.charge h

/-- Where nothing is requeued, `schedule` charges only. -/
theorem vruntime_schedule_of_not_runnable (hrun : s.stateOf s.current ≠ .runnable) (t : TaskPtr) :
    s.schedule.vruntime t = s.charged.vruntime t := by
  rw [s.vruntime_schedule, placePrev_of_not_runnable hrun]
  rfl

/-- A requeued task has the smallest runtime of the queue, after the charge. -/
theorem vruntime_schedule_self (hrun : s.stateOf s.current = .runnable) :
    s.schedule.vruntime s.current = minVruntime s.charged.vruntime s.rq := by
  have hinit : s.charged.stateOf s.current ≠ .init := by
    rw [SchedState.charged, s.sameTasks_charge.stateOf, hrun]
    decide
  rw [s.vruntime_schedule, placePrev_of_runnable hrun]
  exact s.charged.vruntime_addRunq_self hinit

/-- `schedule` changes the runtime of the current task only. -/
theorem vruntime_schedule_of_ne (h : t ≠ s.current) : s.schedule.vruntime t = s.vruntime t := by
  by_cases hrun : s.stateOf s.current = .runnable
  · rw [s.vruntime_schedule, placePrev_of_runnable hrun, SchedState.vruntime_addRunq_of_ne _ h]
    exact vruntime_charged_of_ne h
  · rw [vruntime_schedule_of_not_runnable hrun, vruntime_charged_of_ne h]

/-- A task that wakes up starts at the least runtime in the queue. -/
theorem vruntime_taskWake_self (hrun : s.stateOf t ≠ .runnable) :
    (s.taskWake t).vruntime t = minVruntime s.vruntime s.rq := by
  have hwake : s.taskWake t = (s.setState t .runnable).addRunq t := if_pos hrun
  have hinit : (s.setState t .runnable).stateOf t ≠ .init := by
    rw [s.stateOf_setState_self]
    decide
  have hkey : (s.setState t .runnable).vruntime = s.vruntime := funext (s.vruntime_setState t .runnable)
  rw [hwake, (s.setState t .runnable).vruntime_addRunq_self hinit, hkey]
  rfl

/-- Waking a runnable task does nothing. -/
theorem taskWake_of_runnable (hrun : s.stateOf t = .runnable) : s.taskWake t = s :=
  if_neg (not_not_intro hrun)

/-- A wake changes no runtime but that of the woken task. -/
theorem vruntime_taskWake_of_ne {t' : TaskPtr} (h : t ≠ t') :
    (s.taskWake t').vruntime t = s.vruntime t := by
  by_cases hrun : s.stateOf t' = .runnable
  · rw [taskWake_of_runnable hrun]
  · have hwake : s.taskWake t' = (s.setState t' .runnable).addRunq t' := if_pos hrun
    rw [hwake, SchedState.vruntime_addRunq_of_ne _ h, s.vruntime_setState]

/-- An exit changes no runtime. -/
theorem vruntime_retire (s : SchedState rb) (t : TaskPtr) : s.retire.vruntime t = s.vruntime t := by
  rw [SchedState.retire]
  split
  next => exact (s.removeRunq s.current).vruntime_setState s.current .zombie t
  next => exact s.vruntime_setState s.current .zombie t

/-- The task that exits stays current up to `schedule`. -/
theorem current_retire (s : SchedState rb) : s.retire.current = s.current := by
  rw [SchedState.retire]
  split <;> rfl

/-- It is no longer runnable. -/
theorem retire_not_runnable (s : SchedState rb) : s.retire.stateOf s.retire.current ≠ .runnable := by
  rw [current_retire, SchedState.retire, SchedState.stateOf_setState_self]
  decide

/-- The smallest runtime after the charge: the charge shows only if the current task is in the queue. -/
theorem le_minVruntime_charged_iff (hlt : s.vruntime s.current + 1 < wordSize) :
    s.vruntime s.current + 1 ≤ minVruntime s.charged.vruntime s.rq ↔
      s.rq.leftmost = some s.current ∨ s.vruntime s.current + 1 ≤ minVruntime s.vruntime s.rq := by
  rw [minVruntime, minVruntime]
  cases hleft : s.rq.leftmost with
  | none => exact ⟨.inr, fun h => h.resolve_left (Option.some_ne_none _).symm⟩
  | some m =>
    by_cases hm : m = s.current
    · refine iff_of_true ?_ (.inl (congrArg some hm))
      show _ ≤ s.charged.vruntime m
      rw [hm, vruntime_charged_self, Nat.mod_eq_of_lt hlt]
    · show _ ≤ s.charged.vruntime m ↔ _
      rw [vruntime_charged_of_ne hm]
      exact ⟨.inr, fun h => h.resolve_left fun heq => hm (Option.some.inj heq)⟩

/-! ## Each call -/

/-- A word and its successor. -/
theorem le_succ_mod_iff {v : ℕ} (hv : v < wordSize) : v ≤ (v + 1) % wordSize ↔ v + 1 < wordSize := by
  constructor
  · intro hle
    by_contra hwrap
    have hlast : v + 1 = wordSize := Nat.le_antisymm hv (Nat.not_lt.mp hwrap)
    rw [hlast, Nat.mod_self] at hle
    rw [Nat.le_zero.mp hle] at hlast
    exact absurd hlast (by decide)
  · intro hlt
    rw [Nat.mod_eq_of_lt hlt]
    exact Nat.le_succ v

/-- A charge that is not requeued. -/
theorem charged_chain_iff (hwords : RuntimeWords s) :
    (∀ t, s.vruntime t ≤ s.charged.vruntime t) ↔ s.vruntime s.current + 1 < wordSize := by
  constructor
  · intro h
    have hcurrent := h s.current
    rwa [vruntime_charged_self, le_succ_mod_iff (hwords s.current)] at hcurrent
  · intro h t
    by_cases ht : t = s.current
    · rw [ht, vruntime_charged_self]
      exact (le_succ_mod_iff (hwords s.current)).mpr h
    · rw [vruntime_charged_of_ne ht]

/-- `schedule` keeps all runtimes exactly under the condition. -/
theorem runtimeKept_schedule_iff (hwords : RuntimeWords s) :
    RuntimeKept s .schedule ↔ KeepsRuntime s .schedule := by
  have hchain : RuntimeKept s .schedule ↔ (∀ t, s.vruntime t ≤ s.charged.vruntime t) ∧
      ∀ t, s.charged.vruntime t ≤ s.schedule.vruntime t := by
    constructor
    · intro h
      exact ⟨fun t => (List.isChain_cons_cons.mp (h t nofun)).1,
        fun t => (List.isChain_cons_cons.mp (List.isChain_cons_cons.mp (h t nofun)).2).1⟩
    · intro h t _
      exact .cons_cons (h.1 t) (.cons_cons (h.2 t) (.singleton _))
  rw [hchain, charged_chain_iff hwords]
  apply and_congr_right
  intro hlt
  constructor
  · intro h hrun
    have hcurrent := h s.current
    rwa [vruntime_schedule_self hrun, vruntime_charged_self, Nat.mod_eq_of_lt hlt,
      le_minVruntime_charged_iff hlt] at hcurrent
  · intro h t
    by_cases hrun : s.stateOf s.current = .runnable
    · by_cases ht : t = s.current
      · rw [ht, vruntime_schedule_self hrun, vruntime_charged_self, Nat.mod_eq_of_lt hlt]
        exact (le_minVruntime_charged_iff hlt).mpr (h hrun)
      · rw [vruntime_schedule_of_ne ht, vruntime_charged_of_ne ht]
    · rw [vruntime_schedule_of_not_runnable hrun]

/-- `task_exit` charges the task that exits once more. -/
theorem runtimeKept_exit_iff (hwords : RuntimeWords s) :
    RuntimeKept s .exit ↔ KeepsRuntime s .exit := by
  have hretire : RuntimeWords s.retire := fun t => by
    rw [vruntime_retire]
    exact hwords t
  have hcharged := charged_chain_iff hretire
  rw [current_retire, vruntime_retire] at hcharged
  have hlast : ∀ t, s.taskExit.vruntime t = s.retire.charged.vruntime t :=
    vruntime_schedule_of_not_runnable (retire_not_runnable s)
  have hchain : RuntimeKept s .exit ↔ ∀ t, s.retire.vruntime t ≤ s.retire.charged.vruntime t := by
    constructor
    · intro h t
      rw [vruntime_retire]
      exact (List.isChain_cons_cons.mp (h t nofun)).1
    · intro h t _
      have ht := h t
      rw [vruntime_retire] at ht
      exact .cons_cons ht (.cons_cons (hlast t).ge (.singleton _))
  exact hchain.trans hcharged

/-- `task_wake` keeps all runtimes exactly under the condition. -/
theorem runtimeKept_wake_iff (s : SchedState rb) (t : TaskPtr) :
    RuntimeKept s (.wake t) ↔ KeepsRuntime s (.wake t) := by
  constructor
  · intro h hrun
    have ht := (List.isChain_cons_cons.mp (h t nofun)).1
    rwa [vruntime_taskWake_self hrun] at ht
  · intro h t' _
    apply List.IsChain.cons_cons _ (.singleton _)
    by_cases hrun : s.stateOf t = .runnable
    · rw [taskWake_of_runnable hrun]
    · by_cases ht : t' = t
      · rw [ht, vruntime_taskWake_self hrun]
        exact h hrun
      · rw [vruntime_taskWake_of_ne ht]

/-- A call keeps all runtimes exactly under the condition. -/
theorem runtimeKept_iff (hwords : RuntimeWords s) (op : SchedOp) :
    RuntimeKept s op ↔ KeepsRuntime s op := by
  cases op with
  | spawn t =>
    refine iff_of_true ?_ trivial
    intro t' ht'
    have hne : t' ≠ t := by
      rintro rfl
      exact ht' rfl
    apply List.IsChain.cons_cons _ (.singleton _)
    rw [vruntime_ktaskSpawn_of_ne hne]
  | wake t => exact runtimeKept_wake_iff s t
  | schedule => exact runtimeKept_schedule_iff hwords
  | exit => exact runtimeKept_exit_iff hwords

/-! ## Whole runs -/

/-- The least runtime in the queue is a word. -/
theorem minVruntime_lt {vruntime : TaskPtr → ℕ} (h : ∀ t, vruntime t < wordSize) (rq : RunQ rb) :
    minVruntime vruntime rq < wordSize := by
  rw [minVruntime]
  cases rq.leftmost with
  | none => exact Nat.two_pow_pos 64
  | some m => exact h m

/-- Charging wraps. -/
theorem RuntimeWords.charged (h : RuntimeWords s) : RuntimeWords s.charged := by
  intro t
  by_cases ht : t = s.current
  · rw [ht, vruntime_charged_self]
    exact Nat.mod_lt _ (by decide)
  · rw [vruntime_charged_of_ne ht]
    exact h t

/-- `schedule` keeps the runtimes words. -/
theorem RuntimeWords.schedule (h : RuntimeWords s) : RuntimeWords s.schedule := by
  intro t
  by_cases hrun : s.stateOf s.current = .runnable
  · by_cases ht : t = s.current
    · rw [ht, vruntime_schedule_self hrun]
      exact minVruntime_lt h.charged s.rq
    · rw [vruntime_schedule_of_ne ht]
      exact h t
  · rw [vruntime_schedule_of_not_runnable hrun]
    exact h.charged t

/-- Every call does. -/
theorem RuntimeWords.exec (h : RuntimeWords s) (op : SchedOp) : RuntimeWords (op.exec s) := by
  cases op with
  | spawn t =>
    intro t'
    by_cases ht : t' = t
    · rw [ht, SchedOp.exec, vruntime_ktaskSpawn_self]
      decide
    · rw [SchedOp.exec, vruntime_ktaskSpawn_of_ne ht]
      exact h t'
  | wake t =>
    intro t'
    by_cases hrun : s.stateOf t = .runnable
    · rw [SchedOp.exec, taskWake_of_runnable hrun]
      exact h t'
    · by_cases ht : t' = t
      · rw [ht, SchedOp.exec, vruntime_taskWake_self hrun]
        exact minVruntime_lt h s.rq
      · rw [SchedOp.exec, vruntime_taskWake_of_ne ht]
        exact h t'
  | schedule => exact h.schedule
  | exit =>
    apply RuntimeWords.schedule
    intro t
    rw [vruntime_retire]
    exact h t

/-- Where the charge is kept, the task has what it was charged. -/
theorem chargesRecorded_charge {charges : TaskPtr → ℕ} {current : TaskPtr} {vruntime vruntime' : TaskPtr → ℕ}
    (h : ∀ t, charges t ≤ vruntime t) (hcurrent : vruntime current + 1 ≤ vruntime' current)
    (hother : ∀ t, t ≠ current → vruntime' t = vruntime t) (t : TaskPtr) :
    Function.update charges current (charges current + 1) t ≤ vruntime' t := by
  by_cases ht : t = current
  · rw [ht, Function.update_self]
    exact (Nat.succ_le_succ (h current)).trans hcurrent
  · rw [Function.update_of_ne ht, hother t ht]
    exact h t

/-- A call under the condition records its charge. -/
theorem ChargesRecorded.exec {p : WithCharges rb} (h : ChargesRecorded p) {op : SchedOp}
    (hwords : RuntimeWords p.1) (hop : KeepsRuntime p.1 op) : ChargesRecorded (op.execCharges p) := by
  have hkept := (runtimeKept_iff hwords op).mpr hop
  cases op with
  | spawn t =>
    intro t'
    by_cases ht : t' = t
    · rw [ht]
      show Function.update p.2 t 0 t ≤ _
      rw [Function.update_self]
      exact Nat.zero_le _
    · show Function.update p.2 t 0 t' ≤ (p.1.ktaskSpawn t).vruntime t'
      rw [Function.update_of_ne ht, vruntime_ktaskSpawn_of_ne ht]
      exact h t'
  | wake t =>
    intro t'
    exact (h t').trans (List.isChain_cons_cons.mp (hkept t' nofun)).1
  | schedule =>
    apply chargesRecorded_charge h
    · have hchain := (List.isChain_cons_cons.mp (hkept p.1.current nofun)).2
      have hlast := (List.isChain_cons_cons.mp hchain).1
      rwa [vruntime_charged_self, Nat.mod_eq_of_lt hop.1] at hlast
    · exact fun t ht => vruntime_schedule_of_ne ht
  | exit =>
    apply chargesRecorded_charge h
    · have hlast : p.1.taskExit.vruntime p.1.current = p.1.retire.charged.vruntime p.1.current :=
        vruntime_schedule_of_not_runnable (retire_not_runnable p.1) p.1.current
      have hself := vruntime_charged_self p.1.retire
      rw [current_retire, vruntime_retire, Nat.mod_eq_of_lt hop] at hself
      exact (hself.symm.le.trans hlast.ge)
    · intro t ht
      have hne : t ≠ p.1.retire.current := by rwa [current_retire]
      exact (vruntime_schedule_of_ne hne).trans (vruntime_retire p.1 t)

/-- Every run from `init_scheduler` keeps all runtimes, and with them the number of charges, exactly when
each of its calls gives a task the smallest runtime in the queue only where that is no less than the
task had. -/
theorem sched_run_runtimeKept_iff (rb : RbTree) (idle : TaskPtr) (ops : List SchedOp) :
    (EveryStep SchedOp.execCharges (fun p op => RuntimeKept p.1 op) (initScheduler rb idle, fun _ => 0)
          ops ∧
        EveryState SchedOp.execCharges ChargesRecorded (initScheduler rb idle, fun _ => 0) ops) ↔
      EveryStep SchedOp.execCharges (fun p op => KeepsRuntime p.1 op)
        (initScheduler rb idle, fun _ => 0) ops := by
  have hinit : RuntimeWords (initScheduler rb idle) := by
    intro t
    by_cases ht : t = idle
    · rw [ht, initScheduler]
      show (SchedState.task _ idle).vruntime < wordSize
      rw [SchedState.modifyTask_self]
      exact lt_of_eq_of_lt (vruntime_ktaskSpawn_self _ idle) (by decide)
    · rw [initScheduler, SchedState.vruntime_modifyTask_of_ne _ _ ht, vruntime_ktaskSpawn_of_ne ht]
      show 0 < wordSize
      decide
  have hcharges : ChargesRecorded (initScheduler rb idle, fun _ => 0) := fun t => Nat.zero_le _
  have hexec : ∀ (p : WithCharges rb) (op : SchedOp), RuntimeWords p.1 →
      RuntimeWords (op.execCharges p).1 := by
    intro p op hp
    have hnext := hp.exec op
    cases op <;> exact hnext
  have hiff : EveryStep SchedOp.execCharges (fun p op => RuntimeKept p.1 op)
        (initScheduler rb idle, fun _ => 0) ops ↔
      EveryStep SchedOp.execCharges (fun p op => KeepsRuntime p.1 op)
        (initScheduler rb idle, fun _ => 0) ops :=
    everyStep_congr (fun p : WithCharges rb => RuntimeWords p.1) hexec (fun p op hp => runtimeKept_iff hp op) hinit
  rw [hiff]
  apply and_iff_left_of_imp
  intro hops
  apply hops.everyState (fun p (hp : RuntimeWords p.1 ∧ ChargesRecorded p) => hp.2) _
    ⟨hinit, hcharges⟩
  intro p op hp hop
  exact ⟨hexec p op hp.1, hp.2.exec hp.1 hop⟩

/-- A task runs for two calls of `schedule`: the second one charges it and takes the charge back. -/
theorem addRunq_forgets_charge :
    ¬ (EveryStep SchedOp.execCharges (fun p op => RuntimeKept p.1 op)
          (initScheduler spineTree idleTask, fun _ => 0)
          [.spawn taskA, .wake taskA, .schedule, .schedule] ∧
        EveryState SchedOp.execCharges ChargesRecorded (initScheduler spineTree idleTask, fun _ => 0)
          [.spawn taskA, .wake taskA, .schedule, .schedule]) := by
  intro h
  exact absurd (h.2.last taskA) (by decide +kernel)

end Flos.Sched
