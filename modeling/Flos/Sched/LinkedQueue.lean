import Flos.Sched.TaskTree

/-!
# The run queue on the links of its nodes

`tree_insert` and `tree_remove` walk through the links themselves. From an empty tree on any memory, each
call succeeds: no loop runs out and no missing node is touched; and the calls answer like calls on a list.
-/

namespace Flos.Sched

open Flos.Lib
open Flos.Rbtree
open Flos.Mm (wordSize)

variable {mem : TaskPtr → RbNode TaskPtr}

/-- The walk of `tree_insert` to the link, and the insertion there. -/
def insertLinks (vruntime : TaskPtr → ℕ) (t : TaskPtr) (links : Links TaskPtr) : Option (Links TaskPtr) := do
  let (parent, d) ← searchLink vruntime (vruntime t) links maxRounds none .left
  rbInsertColor maxRounds t (rbLinkNode t parent d links)

/-- The walk of `tree_remove` to the next node if the cached one leaves, and the erasure. -/
def removeLinks (leftmost : Option TaskPtr) (t : TaskPtr) (links : Links TaskPtr) :
    Option (Links TaskPtr × Option TaskPtr) := do
  let leftmost ← if leftmost = some t then rbNext maxRounds t links else some leftmost
  some (← rbErase maxRounds t links, leftmost)

/-- `tree_insert`. -/
def linkedInsert (vruntime : TaskPtr → ℕ) (rq : RunQ (kernelRbTree mem)) (t : TaskPtr) :
    Option (RunQ (kernelRbTree mem)) :=
  (insertLinks vruntime t rq.links).map fun links =>
    ⟨rq.idle, links, some (newLeftmost vruntime rq t), (rq.numThreads + 1) % wordSize⟩

/-- `tree_remove`. -/
def linkedRemove (rq : RunQ (kernelRbTree mem)) (t : TaskPtr) : Option (RunQ (kernelRbTree mem)) :=
  (removeLinks rq.leftmost t rq.links).map fun tree =>
    ⟨rq.idle, tree.1, tree.2, (rq.numThreads + (wordSize - 1)) % wordSize⟩

/-- `next_runq`: the task and the queue that is left. -/
def linkedNext (rq : RunQ (kernelRbTree mem)) : Option (TaskPtr × RunQ (kernelRbTree mem)) :=
  rq.leftmost.elim (some (rq.idle, rq)) fun t => (linkedRemove rq t).map fun rq => (t, rq)

/-- A call, with the task that `next_runq` returns; no result if a loop runs out or `NULL` is
dereferenced. -/
def QueueOp.execLinked (s : QueueState (kernelRbTree mem)) :
    QueueOp → Option (QueueState (kernelRbTree mem) × Option TaskPtr)
  | .insert t v =>
    let vruntime := Function.update s.vruntime t v
    (linkedInsert vruntime s.rq t).map fun rq => (⟨vruntime, rq⟩, none)
  | .remove t => (linkedRemove s.rq t).map fun rq => ({ s with rq := rq }, none)
  | .next => (linkedNext s.rq).map fun r => ({ s with rq := r.2 }, some r.1)

/-- A step of the queue on its links, labelled with the call and its result. -/
def LinkedStep (s : QueueState (kernelRbTree mem)) (c : QueueOp × Option TaskPtr)
    (t : QueueState (kernelRbTree mem)) : Prop :=
  c.1.Allowed s ∧ c.1.execLinked s = some (t, c.2)

variable {vruntime : TaskPtr → ℕ} {links : Links TaskPtr} {t : TaskPtr}

/-- The walk to the link follows the way down in the tree, and the insertion succeeds. -/
theorem insertLinks_eq (hok : TreeOk links) (ht : t ∉ (kernelRbTree mem).order links) :
    insertLinks vruntime t links = some ((kernelRbTree mem).insertColor ((kernelRbTree mem).linkNode links t
      (descend vruntime (vruntime t) ((kernelRbTree mem).view links))) t) := by
  obtain ⟨u, hu, ⟨n, hbal⟩, hdepth, hview, horder⟩ := hok.elim mem
  rw [horder] at ht
  obtain ⟨place, hsearch, hpath⟩ := searchLink_eq vruntime (vruntime t) hu
    (Nat.lt_of_le_of_lt hdepth (by decide : 128 < maxRounds))
  obtain ⟨-, -, -, -, links', -, hinsert, -⟩ :=
    linkNodeAt_cases hu hbal ht (descend vruntime (vruntime t) u.shape)
  have hlink : linkNodeAt links t (descend vruntime (vruntime t) u.shape) =
      rbLinkNode t place.1 place.2 links := by
    have hpath' : followPath links (descend vruntime (vruntime t) u.shape) none .left = some place := hpath
    rw [linkNodeAt, hpath']
  have hsearch' : searchLink vruntime (vruntime t) links maxRounds none .left = some place := hsearch
  rw [hview, insertColor_eq hinsert, insertLinks, hsearch']
  rw [hlink] at hinsert
  exact hinsert

/-- The walk to the next node and the erasure succeed. -/
theorem removeLinks_eq (hok : TreeOk links) (ht : t ∈ (kernelRbTree mem).order links) (leftmost : Option TaskPtr) :
    removeLinks leftmost t links = some ((kernelRbTree mem).erase links t,
      if leftmost = some t then (kernelRbTree mem).next links t else leftmost) := by
  obtain ⟨u, hu, ⟨n, hbal⟩, hdepth, -, horder⟩ := hok.elim mem
  rw [horder] at ht
  obtain ⟨links', -, herase, -⟩ := rbErase_cases hu hbal ht
  obtain ⟨l, l', hsplit⟩ := List.append_of_mem ht
  have hnext := (rbNext_rbPrev_eq hu hsplit (hdepth.trans (by decide : 128 ≤ maxRounds))).1
  have hnext' : (kernelRbTree mem).next links t = l'.head? := by
    show (rbNext maxRounds t links).getD none = l'.head?
    rw [hnext, Option.getD_some]
  rw [erase_eq herase, hnext', removeLinks, hnext, herase]
  by_cases hleft : leftmost = some t
  · rw [if_pos hleft, if_pos hleft]
    rfl
  · rw [if_neg hleft, if_neg hleft]
    rfl

variable {rq : RunQ (kernelRbTree mem)} {l : List TaskPtr}

/-- `tree_insert` succeeds, with the result of the insertion into the tree. -/
theorem linkedInsert_eq (h : rq.Queues TreeOk vruntime l) (ht : t ∉ l) :
    linkedInsert vruntime rq t = some (treeInsert vruntime rq t) := by
  have ht' : t ∉ (kernelRbTree mem).order rq.links := fun hmem => ht (h.order ▸ hmem)
  rw [linkedInsert, insertLinks_eq h.ok ht']
  rfl

/-- `tree_remove` succeeds, with the result of the erasure from the tree. -/
theorem linkedRemove_eq (h : rq.Queues TreeOk vruntime l) (ht : t ∈ l) :
    linkedRemove rq t = some (treeRemove rq t) := by
  have ht' : t ∈ rq.order := by rwa [h.order]
  rw [linkedRemove, removeLinks_eq h.ok ht']
  rfl

/-- `next_runq` succeeds. -/
theorem linkedNext_eq (h : rq.Queues TreeOk vruntime l) : linkedNext rq = some (nextRunq rq) := by
  cases hleft : rq.leftmost with
  | none =>
    rw [linkedNext, nextRunq, hleft]
    rfl
  | some t =>
    have ht : t ∈ l := List.mem_of_mem_head? (h.leftmost ▸ hleft)
    rw [linkedNext, nextRunq, hleft, Option.elim_some, linkedRemove_eq h ht]
    rfl

variable {idle : TaskPtr} {s s' : QueueState (kernelRbTree mem)} {es : PriorityList}

/-- An allowed call succeeds on the links, with the result of the call on the tree. -/
theorem execLinked_eq (h : s.Shows TreeOk idle es) {op : QueueOp} (hop : op.Allowed s) :
    op.execLinked s = some (op.exec s) := by
  cases op with
  | insert t v =>
    have hother : ∀ t' ∈ es.map Prod.fst, Function.update s.vruntime t v t' = s.vruntime t' := by
      intro t' ht'
      refine Function.update_of_ne ?_ _ _
      rintro rfl
      exact hop (h.queues.order.symm ▸ ht')
    have ht : t ∉ es.map Prod.fst := fun hmem => hop (h.queues.order.symm ▸ hmem)
    rw [QueueOp.execLinked, linkedInsert_eq (h.queues.congr_key hother) ht]
    rfl
  | remove t =>
    have ht : t ∈ es.map Prod.fst := h.queues.order ▸ hop
    rw [QueueOp.execLinked, linkedRemove_eq h.queues ht]
    rfl
  | next =>
    rw [QueueOp.execLinked, linkedNext_eq h.queues]
    rfl

/-- A step on the links is a step on the tree. -/
theorem linkedStep_iff (h : s.Shows TreeOk idle es) {c : QueueOp × Option TaskPtr} :
    LinkedStep s c s' ↔ QueueStep s c s' := by
  refine and_congr_right fun hop => ?_
  rw [execLinked_eq h hop, Option.some.injEq]

/-- From an empty tree on any memory, every sequence of calls on the links is answered like the calls on a
list that is sorted by runtime with ties in order of arrival. The links hold a balanced tree of the tasks of
the list, which is at most logarithmically deep, and every further call that is allowed succeeds. -/
theorem linkedRunq_refines_priorityList (mem : TaskPtr → RbNode TaskPtr) (idle : TaskPtr)
    (vruntime : TaskPtr → ℕ) {calls : List (QueueOp × Option TaskPtr)} {s : QueueState (kernelRbTree mem)}
    (hrun : Run LinkedStep ⟨vruntime, RunQ.empty (kernelRbTree mem) idle⟩ calls s) :
    ∃ es : PriorityList, Run (ListStep idle) [] calls es ∧ KeySorted Prod.snd es ∧
      s.rq.leftmost = (es.map Prod.fst).head? ∧ s.rq.numThreads = es.length ∧
      (∃ (t : ColorTree TaskPtr) (n : ℕ), Shows s.rq.links [] t ∧ t.order = es.map Prod.fst ∧ t.Balanced .black n ∧
        t.depth ≤ 2 * Nat.log 2 (es.length + 1)) ∧
      ∀ op : QueueOp, op.Allowed s → ∃ s' out, LinkedStep s (op, out) s' := by
  have hempty : QueueState.Shows TreeOk idle (⟨vruntime, RunQ.empty (kernelRbTree mem) idle⟩ : QueueState _) [] :=
    ⟨RunQ.queues_empty (kernelRbTree_lawful mem) vruntime idle, rfl, fun _ he => absurd he List.not_mem_nil, rfl⟩
  obtain ⟨es, hlist, h⟩ := Run.simulation (QueueState.Shows TreeOk idle)
    (fun s es c s' (h : s.Shows TreeOk idle es) (hstep : LinkedStep s c s') =>
      h.step (kernelRbTree_lawful mem) ((linkedStep_iff h).mp hstep)) hrun hempty
  refine ⟨es, hlist, h.sorted, h.queues.leftmost, ?_, ?_, fun op hop => ?_⟩
  · rw [h.counts, List.length_map]
  · obtain ⟨t, ht, ⟨n, hbal⟩, -, -, horder⟩ := TreeOk.elim h.queues.ok mem
    have horder' : t.order = es.map Prod.fst := horder.symm.trans h.queues.order
    have hdepth := hbal.depth_le_log
    rw [horder', List.length_map] at hdepth
    exact ⟨t, n, ht, horder', hbal, hdepth⟩
  · exact ⟨(op.exec s).1, (op.exec s).2, hop, execLinked_eq h hop⟩

/-- Two tasks with the same runtime, on memory where every node claims to be a red root: the first one comes
out first. -/
theorem linkedRunq_refines_priorityList_twoTasks :
    ∃ es : PriorityList, Run (ListStep idleTask) []
      [(.insert taskA 7, none), (.insert taskB 7, none), (.next, some taskA)] es ∧ es.length = 1 := by
  have hrun : Run (S := QueueState (kernelRbTree fun _ => ⟨none, .red, none, none⟩)) LinkedStep
      ⟨fun _ => 0, RunQ.empty (kernelRbTree fun _ => ⟨none, .red, none, none⟩) idleTask⟩
      [(.insert taskA 7, none), (.insert taskB 7, none), (.next, some taskA)] _ :=
    Run.cons ⟨by decide +kernel, rfl⟩
      (Run.cons ⟨by decide +kernel, rfl⟩ (Run.cons ⟨trivial, rfl⟩ (Run.nil _)))
  obtain ⟨es, hlist, _, _, hlen, _⟩ := linkedRunq_refines_priorityList _ idleTask (fun _ => 0) hrun
  exact ⟨es, hlist, hlen.symm⟩

end Flos.Sched
