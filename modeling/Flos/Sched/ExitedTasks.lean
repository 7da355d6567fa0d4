import Flos.Rbtree.Stale
import Flos.Sched.Exits
import Flos.Sched.TaskTree

/-!
# Exited tasks stay away

A zombie is not runnable, so `task_wake` puts it back into the queue. Without such a wake a task that has
exited can come back only along a link: the tree stores only tasks that it reaches, even where an exit has
damaged it. So a task to which nothing links when it exits is never queued and never current again.
-/

namespace Flos.Sched

open Flos.Lib
open Flos.Rbtree

/-- The scheduler with the tasks that have called `task_exit`. -/
abbrev WithExited (rb : RbTree) := SchedState rb × List TaskPtr

/-- A call, with the history of exits. -/
def SchedOp.execExits {rb : RbTree} (p : WithExited rb) (op : SchedOp) : WithExited rb :=
  (op.exec p.1, if op = .exit then p.1.current :: p.2 else p.2)

/-- No task that has exited is queued or current. -/
def ExitedAway {rb : RbTree} (p : WithExited rb) : Prop := ∀ t ∈ p.2, t ∉ p.1.rq.order ∧ t ≠ p.1.current

instance {rb : RbTree} (p : WithExited rb) : Decidable (ExitedAway p) :=
  inferInstanceAs (Decidable (∀ t ∈ p.2, _))

/-- A link of a node goes to a task. -/
def LinksTo (n : RbNode TaskPtr) (t : TaskPtr) : Prop := n.parent = some t ∨ n.right = some t ∨ n.left = some t

/-- Neither `rb_root` nor `rb_leftmost` nor the node of one of these tasks links to the task. -/
def NotLinked (links : Links TaskPtr) (leftmost : Option TaskPtr) (tasks : List TaskPtr) (t : TaskPtr) : Prop :=
  links.root ≠ some t ∧ leftmost ≠ some t ∧ ∀ a ∈ tasks, ¬ LinksTo (links.mem a) t

variable {rounds : ℕ} {mem : TaskPtr → RbNode TaskPtr}

/-- The links of the tree in the queue. -/
def RunQ.treeLinks (rq : RunQ (roundsRbTree rounds mem)) : Links TaskPtr := rq.links

/-- The tasks that have not exited. -/
def livingTasks {rb : RbTree} (p : WithExited rb) : List TaskPtr := p.1.tasks.filter fun t => t ∉ p.2

/-- A call that leaves exited tasks alone: a wake is not on an exited task, and an exit is not the idle
context's, nor one of a task to which a task that has not exited still links. -/
def LeavesExited (p : WithExited (roundsRbTree rounds mem)) : SchedOp → Prop
  | .spawn t => t ∉ p.1.tasks
  | .wake t => t ∈ p.1.tasks ∧ t ∉ p.2
  | .schedule => True
  | .exit => p.1.current ≠ p.1.rq.idle ∧
      NotLinked p.1.rq.treeLinks p.1.rq.leftmost (livingTasks p) p.1.current

instance (n : RbNode TaskPtr) (t : TaskPtr) : Decidable (LinksTo n t) :=
  inferInstanceAs (Decidable (_ ∨ _ ∨ _))

instance (links : Links TaskPtr) (leftmost : Option TaskPtr) (tasks : List TaskPtr) (t : TaskPtr) :
    Decidable (NotLinked links leftmost tasks t) :=
  inferInstanceAs (Decidable (_ ∧ _ ∧ ∀ a ∈ tasks, ¬ LinksTo (links.mem a) t))

instance LeavesExited.decidable (p : WithExited (roundsRbTree rounds mem)) :
    (op : SchedOp) → Decidable (LeavesExited p op)
  | .spawn t => inferInstanceAs (Decidable (t ∉ p.1.tasks))
  | .wake t => inferInstanceAs (Decidable (t ∈ p.1.tasks ∧ t ∉ p.2))
  | .schedule => .isTrue trivial
  | .exit => inferInstanceAs (Decidable (_ ∧ NotLinked p.1.rq.treeLinks p.1.rq.leftmost _ _))

/-! ## The queue inside a set of tasks -/

variable {S : Set TaskPtr} {rq rq' : RunQ (roundsRbTree rounds mem)} {t : TaskPtr}

/-- The queue links to tasks of a set only. -/
structure QueueWithin (S : Set TaskPtr) (rq : RunQ (roundsRbTree rounds mem)) : Prop where
  links : rq.treeLinks.ClosedOn S
  leftmost : ∀ t ∈ rq.leftmost, t ∈ S
  idle : rq.idle ∈ S

/-- What a call on the queue does inside a set: nothing is written outside. -/
structure QueueStays (S : Set TaskPtr) (rq rq' : RunQ (roundsRbTree rounds mem)) : Prop where
  within : QueueWithin S rq'
  outside : ∀ t, t ∉ S → rq'.treeLinks.mem t = rq.treeLinks.mem t

/-- Calls compose. -/
theorem QueueStays.trans {rq'' : RunQ (roundsRbTree rounds mem)} (h : QueueStays S rq rq')
    (h' : QueueStays S rq' rq'') : QueueStays S rq rq'' :=
  ⟨h'.within, fun t ht => (h'.outside t ht).trans (h.outside t ht)⟩

/-- The queued tasks are in the set. -/
theorem QueueWithin.order (h : QueueWithin S rq) : ∀ t ∈ rq.order, t ∈ S :=
  h.links.readTree h.links.root

/-- Linking a new node, wherever the path ends. -/
theorem staysIn_linkNodeAt {links : Links TaskPtr} (h : links.ClosedOn S) (ht : t ∈ S) (path : List Bool) :
    StaysIn S links (linkNodeAt links t path) := by
  rw [linkNodeAt]
  split
  next parent d hpath => exact (StaysIn.refl h).rbLinkNode ht (h.followPath forall_mem_none hpath) d
  next => exact (StaysIn.refl h).write ht ⟨forall_mem_none, forall_mem_none, forall_mem_none⟩

/-- `tree_insert` of a task of the set. -/
theorem QueueWithin.treeInsert (h : QueueWithin S rq) (ht : t ∈ S) (vruntime : TaskPtr → ℕ) :
    QueueStays S rq (Sched.treeInsert vruntime rq t) := by
  have hlink := staysIn_linkNodeAt h.links ht
    (descend vruntime (vruntime t) ((roundsRbTree rounds mem).view rq.links))
  have hcolor : StaysIn S rq.treeLinks (Sched.treeInsert vruntime rq t).treeLinks := by
    show StaysIn S _ ((rbInsertColor rounds t (linkNodeAt rq.links t _)).getD (linkNodeAt rq.links t _))
    cases hrun : rbInsertColor rounds t (linkNodeAt rq.links t
        (descend vruntime (vruntime t) ((roundsRbTree rounds mem).view rq.links))) with
    | none => exact hlink
    | some links => exact hlink.rbInsertColor ht hrun
  refine ⟨⟨hcolor.closed, forall_mem_some ?_, h.idle⟩, hcolor.outside⟩
  rw [newLeftmost]
  cases hleft : rq.leftmost with
  | none => exact ht
  | some m =>
    rw [Option.elim_some]
    split
    next => exact ht
    next => exact h.leftmost m hleft

/-- `tree_remove` of a task whose links go into the set, whether or not it is in the tree. -/
theorem QueueWithin.treeRemove (h : QueueWithin S rq) (ht : (rq.treeLinks.mem t).Within S) :
    QueueStays S rq (Sched.treeRemove rq t) := by
  have herase : StaysIn S rq.treeLinks (Sched.treeRemove rq t).treeLinks := by
    show StaysIn S _ ((rbErase rounds t rq.treeLinks).getD rq.treeLinks)
    cases hrun : rbErase rounds t rq.treeLinks with
    | none => exact StaysIn.refl h.links
    | some links => exact (StaysIn.refl h.links).rbErase ht hrun
  refine ⟨⟨herase.closed, ?_, h.idle⟩, herase.outside⟩
  rw [Sched.treeRemove]
  split
  next =>
    intro m hm
    have hnext : (rbNext rounds t rq.treeLinks).getD none = some m := hm
    cases hrun : rbNext rounds t rq.treeLinks with
    | none =>
      rw [hrun] at hnext
      cases hnext
    | some next =>
      rw [hrun, Option.getD_some] at hnext
      exact h.links.rbNext ht (hnext ▸ hrun)
  next => exact h.leftmost

/-- `next_runq` selects a task of the set. -/
theorem QueueWithin.nextRunq (h : QueueWithin S rq) :
    QueueStays S rq (Sched.nextRunq rq).2 ∧ (Sched.nextRunq rq).1 ∈ S := by
  rw [Sched.nextRunq]
  cases hleft : rq.leftmost with
  | none => exact ⟨⟨h, fun _ _ => rfl⟩, h.idle⟩
  | some m =>
    have hm : m ∈ S := h.leftmost m hleft
    exact ⟨h.treeRemove (h.links.node m hm), hm⟩

variable {s : SchedState (roundsRbTree rounds mem)}

/-- The queue before `next_runq`, with the current task put back if it is runnable. -/
theorem QueueWithin.placePrev (h : QueueWithin S s.rq) (hcurrent : s.stateOf s.current = .runnable → s.current ∈ S) :
    QueueStays S s.rq s.placePrev.rq := by
  by_cases hrun : s.stateOf s.current = .runnable
  · rw [placePrev_of_runnable hrun, SchedState.rq_addRunq]
    exact h.treeInsert (hcurrent hrun) _
  · rw [placePrev_of_not_runnable hrun]
    exact ⟨h, fun _ _ => rfl⟩

/-- `schedule` stays in the set if a current task that is runnable is in it. -/
theorem QueueWithin.schedule (h : QueueWithin S s.rq) (hcurrent : s.stateOf s.current = .runnable → s.current ∈ S) :
    QueueStays S s.rq s.schedule.rq ∧ s.schedule.current ∈ S := by
  have hplace := h.placePrev hcurrent
  obtain ⟨hnext, hselected⟩ := hplace.within.nextRunq
  rw [s.rq_schedule, s.current_schedule]
  exact ⟨hplace.trans hnext, hselected⟩

/-! ## Every call -/

/-- The queue, the current and the idle task are among the tasks that have not exited, and the nodes of tasks
to come are zeroed. -/
structure ExitedSound (p : WithExited (roundsRbTree rounds mem)) : Prop where
  within : QueueWithin {t | t ∈ p.1.tasks ∧ t ∉ p.2} p.1.rq
  current : p.1.current ∈ p.1.tasks ∧ p.1.current ∉ p.2
  fresh : ∀ t, t ∉ p.1.tasks → p.1.rq.treeLinks.mem t = zeroedNode
  known : ∀ t ∈ p.2, t ∈ p.1.tasks

variable {p : WithExited (roundsRbTree rounds mem)}

/-- The invariant gives the property. -/
theorem ExitedSound.exitedAway (h : ExitedSound p) : ExitedAway p := by
  intro t ht
  exact ⟨fun hmem => (h.within.order t hmem).2 ht, fun heq => h.current.2 (heq ▸ ht)⟩

/-- A call that stays among the tasks that have not exited. -/
theorem ExitedSound.of_stays (h : ExitedSound p) (htasks : s.tasks = p.1.tasks)
    (hqueue : QueueStays {t | t ∈ p.1.tasks ∧ t ∉ p.2} p.1.rq s.rq)
    (hcurrent : s.current ∈ p.1.tasks ∧ s.current ∉ p.2) : ExitedSound (s, p.2) := by
  refine ⟨?_, ?_, fun t ht => ?_, fun t ht => htasks ▸ h.known t ht⟩
  · rw [htasks]
    exact hqueue.within
  · rw [htasks]
    exact hcurrent
  · have hnot : t ∉ p.1.tasks := htasks ▸ ht
    exact (hqueue.outside t fun hmem => hnot hmem.1).trans (h.fresh t hnot)

/-- A new task has no links. -/
theorem ExitedSound.ktaskSpawn (h : ExitedSound p) (ht : t ∉ p.1.tasks) : ExitedSound (p.1.ktaskSpawn t, p.2) := by
  have hsub : ∀ a, a ∈ p.1.tasks ∧ a ∉ p.2 → a ∈ t :: p.1.tasks ∧ a ∉ p.2 :=
    fun a ha => ⟨List.mem_cons_of_mem t ha.1, ha.2⟩
  refine ⟨⟨⟨fun a ha => hsub a (h.within.links.root a ha), ?_⟩, fun a ha => hsub a (h.within.leftmost a ha),
    hsub _ h.within.idle⟩, hsub _ h.current, fun a ha => ?_, fun a ha => List.mem_cons_of_mem t (h.known a ha)⟩
  · rintro a ⟨hmem, hexited⟩
    cases List.mem_cons.mp hmem with
    | inl heq =>
      have hnode : p.1.rq.treeLinks.mem a = zeroedNode := h.fresh a (heq ▸ ht)
      show (p.1.rq.treeLinks.mem a).Within _
      rw [hnode]
      exact ⟨forall_mem_none, forall_mem_none, forall_mem_none⟩
    | inr hmem =>
      obtain ⟨hparent, hright, hleft⟩ := h.within.links.node a ⟨hmem, hexited⟩
      exact ⟨fun b hb => hsub b (hparent b hb), fun b hb => hsub b (hright b hb), fun b hb => hsub b (hleft b hb)⟩
  · exact h.fresh a fun hmem => ha (List.mem_cons_of_mem t hmem)

/-- A wake of a task that has not exited. -/
theorem ExitedSound.taskWake (h : ExitedSound p) (ht : t ∈ p.1.tasks ∧ t ∉ p.2) :
    ExitedSound (p.1.taskWake t, p.2) := by
  by_cases hrun : p.1.stateOf t ≠ .runnable
  · have hsame := (p.1.setState t .runnable).sameTasks_addRunq t
    have hwake : p.1.taskWake t = (p.1.setState t .runnable).addRunq t := if_pos hrun
    rw [hwake]
    apply h.of_stays hsame.tasks
    · rw [SchedState.rq_addRunq]
      exact h.within.treeInsert ht _
    · rw [hsame.current]
      exact h.current
  · have hwake : p.1.taskWake t = p.1 := if_neg hrun
    rw [hwake]
    exact h

/-- `schedule` keeps it. -/
theorem ExitedSound.schedule (h : ExitedSound p) : ExitedSound (p.1.schedule, p.2) := by
  obtain ⟨hqueue, hcurrent⟩ := h.within.schedule fun _ => h.current
  exact h.of_stays p.1.tasks_schedule hqueue hcurrent

/-- A node that does not link to a task. -/
theorem within_of_not_linksTo {n : RbNode TaskPtr} (h : n.Within S) (hnot : ¬ LinksTo n t) :
    n.Within {a | a ∈ S ∧ a ≠ t} := by
  refine ⟨fun a ha => ⟨h.parent a ha, ?_⟩, fun a ha => ⟨h.right a ha, ?_⟩, fun a ha => ⟨h.left a ha, ?_⟩⟩
  · rintro rfl
    exact hnot (.inl ha)
  · rintro rfl
    exact hnot (.inr (.inl ha))
  · rintro rfl
    exact hnot (.inr (.inr ha))

/-- The set without a task to which nothing in it links. -/
theorem QueueWithin.without {tasks : List TaskPtr} (h : QueueWithin S rq)
    (hnot : NotLinked rq.treeLinks rq.leftmost tasks t) (htasks : ∀ a ∈ S, a ∈ tasks) (hidle : t ≠ rq.idle) :
    QueueWithin {a | a ∈ S ∧ a ≠ t} rq := by
  obtain ⟨hroot, hleft, hnodes⟩ := hnot
  refine ⟨⟨fun a ha => ⟨h.links.root a ha, ?_⟩, fun a ha => ?_⟩, fun a ha => ⟨h.leftmost a ha, ?_⟩, h.idle, hidle.symm⟩
  · rintro rfl
    exact hroot ha
  · exact within_of_not_linksTo (h.links.node a ha.1) (hnodes a (htasks a ha.1))
  · rintro rfl
    exact hleft ha

/-- `task_exit` adds a task that the queue no longer knows, even if it erases the node once more. -/
theorem ExitedSound.taskExit (h : ExitedSound p) (hidle : p.1.current ≠ p.1.rq.idle)
    (hnot : NotLinked p.1.rq.treeLinks p.1.rq.leftmost (livingTasks p) p.1.current) :
    ExitedSound (p.1.taskExit, p.1.current :: p.2) := by
  have hliving : ∀ a, a ∈ p.1.tasks ∧ a ∉ p.2 → a ∈ livingTasks p := by
    intro a ha
    exact List.mem_filter.mpr ⟨ha.1, decide_eq_true ha.2⟩
  have hset : {a | a ∈ {t | t ∈ p.1.tasks ∧ t ∉ p.2} ∧ a ≠ p.1.current} =
      {a | a ∈ p.1.tasks ∧ a ∉ p.1.current :: p.2} := by
    ext a
    rw [Set.mem_ofPred_eq, Set.mem_ofPred_eq, Set.mem_ofPred_eq, List.mem_cons, not_or, and_assoc,
      and_comm (a := a ∉ p.2)]
  have hwithout := h.within.without hnot hliving hidle
  have hnode := within_of_not_linksTo (h.within.links.node _ h.current) (hnot.2.2 _ (hliving _ h.current))
  rw [hset] at hwithout hnode
  have hretire : QueueStays {a | a ∈ p.1.tasks ∧ a ∉ p.1.current :: p.2} p.1.rq p.1.retire.rq := by
    rw [SchedState.retire]
    split
    next => exact hwithout.treeRemove hnode
    next => exact ⟨hwithout, fun _ _ => rfl⟩
  have htasks : p.1.retire.tasks = p.1.tasks := by
    rw [SchedState.retire]
    split <;> rfl
  have hzombie : p.1.retire.stateOf p.1.retire.current ≠ .runnable := by
    have hcurrent : p.1.retire.current = p.1.current := by
      rw [SchedState.retire]
      split <;> rfl
    rw [hcurrent, SchedState.retire, SchedState.stateOf_setState_self]
    decide
  obtain ⟨hqueue, hcurrent⟩ := hretire.within.schedule fun hrun => absurd hrun hzombie
  have hsame : p.1.taskExit.tasks = p.1.tasks := p.1.retire.tasks_schedule.trans htasks
  refine ⟨?_, ?_, fun t ht => ?_, fun t ht => ?_⟩
  · rw [hsame]
    exact hqueue.within
  · rw [hsame]
    exact hcurrent
  · have hfresh : t ∉ p.1.tasks := hsame ▸ ht
    exact ((hretire.trans hqueue).outside t fun hmem => hfresh hmem.1).trans (h.fresh t hfresh)
  · rw [hsame]
    cases List.mem_cons.mp ht with
    | inl heq => exact heq ▸ h.current.1
    | inr hmem => exact h.known t hmem

/-- Every call that leaves exited tasks alone keeps them away. -/
theorem ExitedSound.exec (h : ExitedSound p) {op : SchedOp} (hop : LeavesExited p op) :
    ExitedSound (op.execExits p) := by
  cases op with
  | spawn t => exact h.ktaskSpawn hop
  | wake t => exact h.taskWake hop
  | schedule => exact h.schedule
  | exit => exact h.taskExit hop.1 hop.2

/-- In every run whose calls leave exited tasks alone, whatever the tree has been through, a task that has
called `task_exit` is never queued and never current again. -/
theorem sched_run_exitedAway (rounds : ℕ) (idle : TaskPtr) {ops : List SchedOp}
    (hops : EveryStep SchedOp.execExits LeavesExited
      (initScheduler (roundsRbTree rounds fun _ => zeroedNode) idle, []) ops) :
    EveryState SchedOp.execExits ExitedAway
      (initScheduler (roundsRbTree rounds fun _ => zeroedNode) idle, []) ops := by
  have hidle : idle ∈ [idle] ∧ idle ∉ ([] : List TaskPtr) := ⟨List.mem_singleton_self idle, List.not_mem_nil⟩
  have hinit : ExitedSound (initScheduler (roundsRbTree rounds fun _ => zeroedNode) idle, []) :=
    ⟨⟨⟨forall_mem_none, fun _ _ => ⟨forall_mem_none, forall_mem_none, forall_mem_none⟩⟩, forall_mem_none, hidle⟩,
      hidle, fun _ _ => rfl, fun _ ht => absurd ht List.not_mem_nil⟩
  exact hops.everyState (fun p (hp : ExitedSound p) => hp.exitedAway) (fun p op hp hop => hp.exec hop) hinit

/-- A third task, for the runs on fixed inputs. -/
def taskC : TaskPtr := ⟨0x4000, by decide, by decide⟩

/-- A running task wakes three others and exits, which empties the tree; what is left runs on. -/
def exitingRun : List SchedOp :=
  [.spawn taskA, .wake taskA, .schedule, .spawn taskB, .wake taskB, .spawn taskC, .wake taskC, .exit, .schedule]

/-- No exited task comes back in this run. -/
theorem sched_run_exitedAway_threeTasks :
    EveryState SchedOp.execExits ExitedAway (initScheduler (roundsRbTree maxRounds fun _ => zeroedNode) idleTask, [])
      exitingRun :=
  sched_run_exitedAway maxRounds idleTask (by decide +kernel)

/-- Five tasks are woken, and the second one to run exits. That leaves the third one in the tree although it
runs, and its own exit does not take it out. -/
def relinkingRun : List SchedOp :=
  let others : List TaskPtr := [taskB, taskC, ⟨0x5000, by decide, by decide⟩, ⟨0x6000, by decide, by decide⟩]
  .spawn taskA :: .wake taskA :: others.flatMap (fun t => [.spawn t, .wake t]) ++
    [.schedule, .schedule, .exit, .schedule, .exit]

-- no zombie is woken here
example : ¬ ExitedAway (relinkingRun.foldl SchedOp.execExits
    (initScheduler (roundsRbTree maxRounds fun _ => zeroedNode) idleTask, [])) := by decide +kernel

/-- A zombie that is woken runs again. -/
theorem taskWake_revives_zombie :
    ¬ EveryState SchedOp.execExits ExitedAway
      (initScheduler (roundsRbTree maxRounds fun _ => zeroedNode) idleTask, [])
      [.spawn taskA, .wake taskA, .schedule, .exit, .wake taskA, .schedule] := by
  intro h
  have haway := h.last taskA (by decide +kernel)
  exact absurd haway.2 (by decide +kernel)

end Flos.Sched
