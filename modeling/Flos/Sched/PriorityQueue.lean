import Flos.Sched.RunQueue
import Mathlib.Logic.Function.Basic

/-!
# The run queue as a stable priority queue

A user of the run queue sees a list of tasks with the runtimes they had when they came. Each call on the
queue answers like the call on the list, in any sequence of calls.
-/

namespace Flos.Sched

open Flos.Lib
open Flos.Mm (wordSize)

/-- A call on the queue: a task comes with some `vruntime`, a queued task leaves, or `next_runq`. -/
inductive QueueOp
  | insert (t : TaskPtr) (v : ℕ)
  | remove (t : TaskPtr)
  | next

/-- The queue and the runtimes of all tasks. -/
structure QueueState (rb : RbTree) where
  vruntime : TaskPtr → ℕ
  rq : RunQ rb

variable {rb : RbTree}

/-- Tasks come that are not queued, and only queued tasks are removed. -/
def QueueOp.Allowed (s : QueueState rb) : QueueOp → Prop
  | .insert t _ => t ∉ s.rq.order
  | .remove t => t ∈ s.rq.order
  | .next => True

instance QueueOp.decidableAllowed (s : QueueState rb) : (op : QueueOp) → Decidable (op.Allowed s)
  | .insert t _ => inferInstanceAs (Decidable (t ∉ s.rq.order))
  | .remove t => inferInstanceAs (Decidable (t ∈ s.rq.order))
  | .next => .isTrue trivial

/-- A call, with the task that `next_runq` returns. -/
def QueueOp.exec (s : QueueState rb) : QueueOp → QueueState rb × Option TaskPtr
  | .insert t v =>
    let vruntime := Function.update s.vruntime t v
    (⟨vruntime, treeInsert vruntime s.rq t⟩, none)
  | .remove t => ({ s with rq := treeRemove s.rq t }, none)
  | .next => ({ s with rq := (nextRunq s.rq).2 }, some (nextRunq s.rq).1)

/-- A step of the queue, labelled with the call and its result. -/
def QueueStep (s : QueueState rb) (c : QueueOp × Option TaskPtr) (t : QueueState rb) : Prop :=
  c.1.Allowed s ∧ c.1.exec s = (t, c.2)

/-- The queue as a list of tasks with their runtimes, in the order in which they are taken. -/
abbrev PriorityList := List (TaskPtr × ℕ)

/-- The call on the list: a task goes behind all tasks that do not run later, and the first is taken. -/
def PriorityList.exec (idle : TaskPtr) (l : PriorityList) : QueueOp → PriorityList × Option TaskPtr
  | .insert t v => (insertStable Prod.snd (t, v) l, none)
  | .remove t => (l.filter fun e => e.1 ≠ t, none)
  | .next => (l.tail, some ((l.head?.map Prod.fst).getD idle))

/-- A step of the list. -/
def ListStep (idle : TaskPtr) (l : PriorityList) (c : QueueOp × Option TaskPtr) (l' : PriorityList) :
    Prop :=
  l.exec idle c.1 = (l', c.2)

/-- The queue holds the tasks of the list, with their runtimes. -/
structure QueueState.Shows (Ok : rb.Links → Prop) (idle : TaskPtr) (s : QueueState rb)
    (l : PriorityList) : Prop where
  queues : s.rq.Queues Ok s.vruntime (l.map Prod.fst)
  counts : s.rq.Counts (l.map Prod.fst)
  keys : ∀ e ∈ l, s.vruntime e.1 = e.2
  idle : s.rq.idle = idle

variable {Ok : rb.Links → Prop} {idle : TaskPtr} {s : QueueState rb} {l : PriorityList}

/-- Inserting by the runtime in the entry is inserting the task by its runtime. -/
theorem map_fst_insertStable {vruntime : TaskPtr → ℕ} {t : TaskPtr} {v : ℕ} (hv : vruntime t = v)
    (hl : ∀ e ∈ l, vruntime e.1 = e.2) :
    (insertStable Prod.snd (t, v) l).map Prod.fst = insertStable vruntime t (l.map Prod.fst) := by
  induction l with
  | nil => rfl
  | cons e l ih =>
    have he := hl e List.mem_cons_self
    simp only [insertStable, List.map_cons, List.orderedInsert, hv, he] at ih ⊢
    by_cases hlt : v < e.2
    · rw [if_pos hlt, if_pos hlt]
      rfl
    · rw [if_neg hlt, if_neg hlt, List.map_cons, ih fun e he => hl e (List.mem_cons_of_mem _ he)]

/-- Without duplicates, the entry of a task is the only one that leaves. -/
theorem map_fst_filter_ne (h : (l.map Prod.fst).Nodup) (t : TaskPtr) :
    (l.filter fun e => e.1 ≠ t).map Prod.fst = (l.map Prod.fst).erase t := by
  rw [h.erase_eq_filter, List.filter_map]
  congr 1
  apply List.filter_congr
  intro e _
  simp only [Function.comp_apply, ne_eq, bne, decide_not]
  rfl

/-- A list shown by the queue is sorted by its runtimes. -/
theorem QueueState.Shows.sorted (h : s.Shows Ok idle l) : KeySorted Prod.snd l := by
  have hsorted := List.pairwise_map.mp h.queues.sorted
  apply hsorted.imp_of_mem
  intro a b ha hb hab
  rwa [h.keys a ha, h.keys b hb] at hab

/-- A task comes. -/
theorem QueueState.Shows.insert (hrb : rb.Lawful Ok) (h : s.Shows Ok idle l) {t : TaskPtr} (v : ℕ)
    (ht : t ∉ s.rq.order) :
    ((QueueOp.insert t v).exec s).1.Shows Ok idle (insertStable Prod.snd (t, v) l) := by
  rw [h.queues.order] at ht
  have hother : ∀ t' ∈ l.map Prod.fst, Function.update s.vruntime t v t' = s.vruntime t' := by
    intro t' ht'
    apply Function.update_of_ne
    rintro rfl
    exact ht ht'
  have hkeys : ∀ e ∈ l, Function.update s.vruntime t v e.1 = e.2 := by
    intro e he
    rw [hother e.1 (List.mem_map_of_mem he), h.keys e he]
  have hself : Function.update s.vruntime t v t = v := Function.update_self t v s.vruntime
  have hmap := map_fst_insertStable hself hkeys
  constructor
  · rw [hmap]
    exact (h.queues.congr_key hother).treeInsert hrb ht
  · rw [hmap]
    exact h.counts.treeInsert h.queues.nodup ht
  · intro e he
    cases mem_insertStable.mp he with
    | inl heq => rw [heq]; exact hself
    | inr he => exact hkeys e he
  · exact h.idle

/-- A queued task leaves. -/
theorem QueueState.Shows.remove (hrb : rb.Lawful Ok) (h : s.Shows Ok idle l) {t : TaskPtr}
    (ht : t ∈ s.rq.order) :
    ((QueueOp.remove t).exec s).1.Shows Ok idle (l.filter fun e => e.1 ≠ t) := by
  rw [h.queues.order] at ht
  have hmap := map_fst_filter_ne h.queues.nodup t
  constructor
  · rw [hmap]
    exact h.queues.treeRemove hrb ht
  · rw [hmap]
    exact h.counts.treeRemove h.queues.nodup ht
  · intro e he
    exact h.keys e (List.mem_of_mem_filter he)
  · exact h.idle

/-- `next_runq` returns the first task and takes it, or idle. -/
theorem QueueState.Shows.next (hrb : rb.Lawful Ok) (h : s.Shows Ok idle l) :
    (QueueOp.next.exec s).1.Shows Ok idle l.tail ∧
      (QueueOp.next.exec s).2 = some ((l.head?.map Prod.fst).getD idle) := by
  cases l with
  | nil =>
    have hnext := RunQ.Queues.nextRunq_nil h.queues
    simp only [QueueOp.exec, hnext]
    exact ⟨h, congrArg some h.idle⟩
  | cons e l =>
    have hnext := RunQ.Queues.nextRunq_cons hrb h.queues
    constructor
    · constructor
      · exact hnext.2
      · exact RunQ.Counts.nextRunq_cons h.counts h.queues.nodup h.queues.leftmost
      · intro e' he'
        exact h.keys e' (List.mem_cons_of_mem e he')
      · show (nextRunq s.rq).2.idle = idle
        rw [nextRunq, h.queues.leftmost]
        exact h.idle
    · exact congrArg some hnext.1

/-- Every allowed call is answered by the list. -/
theorem QueueState.Shows.step (hrb : rb.Lawful Ok) (h : s.Shows Ok idle l)
    {c : QueueOp × Option TaskPtr} {s' : QueueState rb} (hstep : QueueStep s c s') :
    ∃ l', ListStep idle l c l' ∧ s'.Shows Ok idle l' := by
  obtain ⟨op, out⟩ := c
  obtain ⟨hallowed, hexec⟩ := hstep
  have hs : (op.exec s).1 = s' := congrArg Prod.fst hexec
  have hout : (op.exec s).2 = out := congrArg Prod.snd hexec
  subst hs hout
  cases op with
  | insert t v => exact ⟨_, rfl, h.insert hrb v hallowed⟩
  | remove t => exact ⟨_, rfl, h.remove hrb hallowed⟩
  | next =>
    have hnext := h.next hrb
    exact ⟨l.tail, by rw [hnext.2]; rfl, hnext.1⟩

/-- Over every sequence of calls from the empty queue, the calls return what a list returns that is
sorted by runtime with ties in order of arrival, and the queue shows that list: the cached node is its
first task, `num_threads` its length, and on the empty list `next_runq` changes nothing. -/
theorem runq_refines_priorityList (hrb : rb.Lawful Ok) (idle : TaskPtr) (vruntime : TaskPtr → ℕ)
    {calls : List (QueueOp × Option TaskPtr)} {s : QueueState rb}
    (hrun : Run QueueStep ⟨vruntime, RunQ.empty rb idle⟩ calls s) :
    ∃ l : PriorityList, Run (ListStep idle) [] calls l ∧ KeySorted Prod.snd l ∧
      s.rq.order = l.map Prod.fst ∧ (∀ e ∈ l, s.vruntime e.1 = e.2) ∧
      s.rq.leftmost = (l.map Prod.fst).head? ∧ s.rq.numThreads = l.length ∧
      (l = [] → nextRunq s.rq = (idle, s.rq)) := by
  have hempty : QueueState.Shows Ok idle (⟨vruntime, RunQ.empty rb idle⟩ : QueueState rb) [] :=
    ⟨RunQ.queues_empty hrb vruntime idle, rfl, fun _ he => absurd he List.not_mem_nil, rfl⟩
  obtain ⟨l, hlist, h⟩ := Run.simulation (QueueState.Shows Ok idle)
    (fun s l c s' (h : s.Shows Ok idle l) (hstep : QueueStep s c s') => h.step hrb hstep) hrun hempty
  refine ⟨l, hlist, h.sorted, h.queues.order, h.keys, h.queues.leftmost, ?_, ?_⟩
  · rw [h.counts, List.length_map]
  · rintro rfl
    rw [RunQ.Queues.nextRunq_nil h.queues, h.idle]

/-- A tree that keeps its nodes on one side: the simplest one with the laws. -/
def spineTree : RbTree where
  Links := BinaryTree TaskPtr
  view := id
  empty := .nil
  linkNode t a path := graft a path t
  insertColor t _ := t
  erase t a := spine ((inorder t).erase a)
  next t a := ((inorder t).dropWhile (· ≠ a)).tail.head?

/-- It satisfies the laws. -/
theorem spineTree_lawful : spineTree.Lawful fun _ => True where
  ok_empty := trivial
  view_empty := rfl
  view_linkNode _ _ _ := rfl
  ok_insert _ _ _ := trivial
  order_insertColor _ _ _ := rfl
  ok_erase _ _ _ := trivial
  order_erase _ _ _ := inorder_spine _
  next_eq := by
    intro t a l l' _ hnodup horder
    have hbefore : ∀ b ∈ l, decide (b ≠ a) = true := by
      intro b hb
      rw [horder] at hnodup
      apply decide_eq_true
      rintro rfl
      exact (List.nodup_append.mp hnodup).2.2 b hb b List.mem_cons_self rfl
    show ((spineTree.order t).dropWhile _).tail.head? = _
    rw [horder, List.dropWhile_append_of_pos hbefore, List.dropWhile_cons_of_neg (by simp)]
    rfl

/-- The idle task of the runs on fixed inputs below. -/
def idleTask : TaskPtr := ⟨0x1000, by decide, by decide⟩

/-- The first other task. -/
def taskA : TaskPtr := ⟨0x2000, by decide, by decide⟩

/-- The second other task. -/
def taskB : TaskPtr := ⟨0x3000, by decide, by decide⟩

/-- Two tasks with the same runtime: the first one comes out first. -/
theorem runq_refines_priorityList_twoTasks :
    ∃ l : PriorityList, Run (ListStep idleTask) []
        [(.insert taskA 7, none), (.insert taskB 7, none), (.next, some taskA)] l ∧
      KeySorted Prod.snd l ∧ l.length = 1 := by
  have hrun : Run (S := QueueState spineTree) QueueStep
      ⟨fun _ => 0, RunQ.empty spineTree idleTask⟩
      [(.insert taskA 7, none), (.insert taskB 7, none), (.next, some taskA)] _ :=
    Run.cons ⟨by decide +kernel, rfl⟩
      (Run.cons ⟨by decide +kernel, rfl⟩ (Run.cons ⟨trivial, rfl⟩ (Run.nil _)))
  obtain ⟨l, hlist, hsorted, _, _, _, hlen, _⟩ :=
    runq_refines_priorityList spineTree_lawful idleTask (fun _ => 0) hrun
  exact ⟨l, hlist, hsorted, hlen.symm⟩

end Flos.Sched
