import Flos.Lib.SearchTree
import Flos.Lib.Runs
import Flos.Mm.Types
import Mathlib.Order.Interval.Finset.Nat

/-!
# The run queue

`struct runq` caches the leftmost node of a red-black tree that is ordered by `vruntime`. The tree is a
parameter here: its memory may be anything, the stale links of nodes that left it included. Its laws say
what the run queue relies on while nodes enter once and leave once. The cached pointer is updated apart
from the tree, by a comparison when a task enters and by a successor when one leaves, and the two agree.
-/

namespace Flos.Sched

open Flos.Lib
open Flos.Mm (wordSize)

/-- The address of a task: a 64-bit word other than `NULL`. -/
structure TaskPtr where
  addr : ℕ
  addr_pos : 0 < addr
  addr_lt : addr < wordSize
  deriving DecidableEq

/-- Different tasks are fewer than the words. -/
theorem TaskPtr.length_lt {l : List TaskPtr} (h : l.Nodup) : l.length < wordSize := by
  have hinj : Function.Injective TaskPtr.addr := by
    intro a b hab
    cases a
    cases b
    cases hab
    rfl
  have hsub : (l.map TaskPtr.addr).toFinset ⊆ Finset.Ioo 0 wordSize := by
    intro a ha
    obtain ⟨t, _, rfl⟩ := List.mem_map.mp (List.mem_toFinset.mp ha)
    exact Finset.mem_Ioo.mpr ⟨t.addr_pos, t.addr_lt⟩
  have hcard := Finset.card_le_card hsub
  rw [List.toFinset_card_of_nodup (h.map hinj), List.length_map, Nat.card_Ioo] at hcard
  exact lt_of_le_of_lt hcard (by decide)

/-- A red-black tree of tasks: the memory of its nodes, and the tree below the root. -/
structure RbTree where
  Links : Type
  view : Links → BinaryTree TaskPtr
  empty : Links
  linkNode : Links → TaskPtr → List Bool → Links
  insertColor : Links → TaskPtr → Links
  erase : Links → TaskPtr → Links
  next : Links → TaskPtr → Option TaskPtr

/-- The nodes of the tree in order. -/
def RbTree.order (rb : RbTree) (links : rb.Links) : List TaskPtr := inorder (rb.view links)

/-- What the tree does with nodes that enter it once and leave it once, on memory that is `Ok`:
rebalancing keeps the order, and `rb_next` is the successor. Nothing is said of a node that is erased
without being in the tree. -/
structure RbTree.Lawful (rb : RbTree) (Ok : rb.Links → Prop) : Prop where
  ok_empty : Ok rb.empty
  view_empty : rb.view rb.empty = .nil
  view_linkNode {links : rb.Links} {t : TaskPtr} (path : List Bool) (hok : Ok links)
    (ht : t ∉ rb.order links) : rb.view (rb.linkNode links t path) = graft t path (rb.view links)
  ok_insert {links : rb.Links} {t : TaskPtr} (path : List Bool) (hok : Ok links)
    (ht : t ∉ rb.order links) : Ok (rb.insertColor (rb.linkNode links t path) t)
  order_insertColor {links : rb.Links} {t : TaskPtr} (path : List Bool) (hok : Ok links)
    (ht : t ∉ rb.order links) : rb.order (rb.insertColor (rb.linkNode links t path) t) =
      rb.order (rb.linkNode links t path)
  ok_erase {links : rb.Links} {t : TaskPtr} (hok : Ok links) (hnodup : (rb.order links).Nodup)
    (ht : t ∈ rb.order links) : Ok (rb.erase links t)
  order_erase {links : rb.Links} {t : TaskPtr} (hok : Ok links) (hnodup : (rb.order links).Nodup)
    (ht : t ∈ rb.order links) : rb.order (rb.erase links t) = (rb.order links).erase t
  next_eq {links : rb.Links} {t : TaskPtr} {l l' : List TaskPtr} (hok : Ok links)
    (hnodup : (rb.order links).Nodup) (horder : rb.order links = l ++ t :: l') :
    rb.next links t = l'.head?

/-- `struct runq`, with `rb_root_cached` as the tree and its leftmost node. -/
structure RunQ (rb : RbTree) where
  idle : TaskPtr
  links : rb.Links
  leftmost : Option TaskPtr
  numThreads : ℕ

variable {rb : RbTree}

/-- The queued tasks in the order of the tree. -/
def RunQ.order (rq : RunQ rb) : List TaskPtr := rb.order rq.links

/-- The queue that `init_runq` zeroes. -/
def RunQ.empty (rb : RbTree) (idle : TaskPtr) : RunQ rb := ⟨idle, rb.empty, none, 0⟩

/-- `min_vruntime`. -/
def minVruntime (vruntime : TaskPtr → ℕ) (rq : RunQ rb) : ℕ := (rq.leftmost.map vruntime).getD 0

/-- A task takes over as the leftmost one if there is none or its key is smaller. -/
def newLeftmost (vruntime : TaskPtr → ℕ) (rq : RunQ rb) (t : TaskPtr) : TaskPtr :=
  rq.leftmost.elim t fun m => if vruntime t < vruntime m then t else m

/-- `tree_insert`. -/
def treeInsert (vruntime : TaskPtr → ℕ) (rq : RunQ rb) (t : TaskPtr) : RunQ rb where
  idle := rq.idle
  links := rb.insertColor
    (rb.linkNode rq.links t (descend vruntime (vruntime t) (rb.view rq.links))) t
  leftmost := some (newLeftmost vruntime rq t)
  numThreads := (rq.numThreads + 1) % wordSize

/-- `tree_remove`, which `remove_runq` calls. -/
def treeRemove (rq : RunQ rb) (t : TaskPtr) : RunQ rb where
  idle := rq.idle
  links := rb.erase rq.links t
  leftmost := if rq.leftmost = some t then rb.next rq.links t else rq.leftmost
  numThreads := (rq.numThreads + (wordSize - 1)) % wordSize

/-- `next_runq`: the task and the queue that is left. -/
def nextRunq (rq : RunQ rb) : TaskPtr × RunQ rb :=
  rq.leftmost.elim (rq.idle, rq) fun t => (t, treeRemove rq t)

/-! ## The cached leftmost node -/

/-- The queue holds the tasks `l` in this order, and its cached node is the first one. -/
structure RunQ.Queues (Ok : rb.Links → Prop) (vruntime : TaskPtr → ℕ) (rq : RunQ rb)
    (l : List TaskPtr) : Prop where
  ok : Ok rq.links
  order : rq.order = l
  nodup : l.Nodup
  sorted : KeySorted vruntime l
  leftmost : rq.leftmost = l.head?

variable {Ok : rb.Links → Prop} {vruntime : TaskPtr → ℕ} {rq : RunQ rb} {l : List TaskPtr}

/-- The empty queue. -/
theorem RunQ.queues_empty (hrb : rb.Lawful Ok) (vruntime : TaskPtr → ℕ) (idle : TaskPtr) :
    (RunQ.empty rb idle).Queues Ok vruntime [] where
  ok := hrb.ok_empty
  order := by rw [RunQ.order, RbTree.order, RunQ.empty, hrb.view_empty, inorder]
  nodup := List.nodup_nil
  sorted := List.Pairwise.nil
  leftmost := rfl

/-- Only the keys of queued tasks matter. -/
theorem RunQ.Queues.congr_key {vruntime' : TaskPtr → ℕ} (h : rq.Queues Ok vruntime l)
    (hkey : ∀ t ∈ l, vruntime' t = vruntime t) : rq.Queues Ok vruntime' l where
  ok := h.ok
  order := h.order
  nodup := h.nodup
  sorted := by
    apply h.sorted.imp_of_mem
    intro a b ha hb hab
    rwa [hkey a ha, hkey b hb]
  leftmost := h.leftmost

/-- `min_vruntime` is the key of the first task. -/
theorem RunQ.Queues.minVruntime_eq (h : rq.Queues Ok vruntime l) :
    minVruntime vruntime rq = (l.head?.map vruntime).getD 0 := by
  rw [minVruntime, h.leftmost]

/-- The order after `tree_insert`. -/
theorem RunQ.Queues.order_treeInsert (hrb : rb.Lawful Ok) (h : rq.Queues Ok vruntime l) {t : TaskPtr}
    (ht : t ∉ l) : (treeInsert vruntime rq t).order = insertStable vruntime t l := by
  obtain ⟨hok, rfl, _, hsorted, _⟩ := h
  have hlink := hrb.view_linkNode (descend vruntime (vruntime t) (rb.view rq.links)) hok ht
  have hcolor := hrb.order_insertColor (descend vruntime (vruntime t) (rb.view rq.links)) hok ht
  calc (treeInsert vruntime rq t).order
      = inorder (rb.view (rb.linkNode rq.links t
          (descend vruntime (vruntime t) (rb.view rq.links)))) := hcolor
    _ = inorder (graft t (descend vruntime (vruntime t) (rb.view rq.links)) (rb.view rq.links)) := by
        rw [hlink]
    _ = insertStable vruntime t (inorder (rb.view rq.links)) := inorder_graft_descend hsorted t

/-- `tree_insert` puts a new task behind the tasks with keys that are not larger. -/
theorem RunQ.Queues.treeInsert (hrb : rb.Lawful Ok) (h : rq.Queues Ok vruntime l) {t : TaskPtr}
    (ht : t ∉ l) : (treeInsert vruntime rq t).Queues Ok vruntime (insertStable vruntime t l) where
  ok := by
    apply hrb.ok_insert _ h.ok
    rwa [← h.order] at ht
  order := h.order_treeInsert hrb ht
  nodup := (insertStable_perm t l).nodup_iff.mpr (List.nodup_cons.mpr ⟨ht, h.nodup⟩)
  sorted := h.sorted.insertStable t
  leftmost := by
    rw [head?_insertStable]
    cases l with
    | nil => rw [Sched.treeInsert, newLeftmost, h.leftmost]; rfl
    | cons a l =>
      rw [Sched.treeInsert, newLeftmost, h.leftmost]
      exact apply_ite some _ _ _

/-- The cached node after `tree_remove`: the successor, if the first task leaves. -/
theorem RunQ.Queues.leftmost_treeRemove (hrb : rb.Lawful Ok) (h : rq.Queues Ok vruntime l)
    (t : TaskPtr) (ht : t ∈ l) : (treeRemove rq t).leftmost = (l.erase t).head? := by
  cases l with
  | nil => exact absurd ht List.not_mem_nil
  | cons a l =>
    rw [Sched.treeRemove, h.leftmost, List.head?_cons]
    have hnodup : (rb.order rq.links).Nodup := by
      have := h.nodup
      rwa [← h.order] at this
    by_cases hat : a = t
    · have hnext := hrb.next_eq h.ok hnodup (show rb.order rq.links = [] ++ a :: l from h.order)
      rw [if_pos (congrArg some hat), ← hat, hnext, List.erase_cons_head]
    · rw [if_neg fun heq => hat (Option.some.inj heq), List.erase_cons_tail (by simpa using hat),
        List.head?_cons]

/-- `tree_remove` takes a queued task out, from the middle as well. -/
theorem RunQ.Queues.treeRemove (hrb : rb.Lawful Ok) (h : rq.Queues Ok vruntime l) {t : TaskPtr}
    (ht : t ∈ l) : (treeRemove rq t).Queues Ok vruntime (l.erase t) where
  ok := by
    obtain ⟨hok, rfl, hnodup, _, _⟩ := h
    exact hrb.ok_erase hok hnodup ht
  order := by
    obtain ⟨hok, rfl, hnodup, _, _⟩ := h
    exact hrb.order_erase hok hnodup ht
  nodup := h.nodup.erase t
  sorted := h.sorted.sublist List.erase_sublist
  leftmost := h.leftmost_treeRemove hrb t ht

/-- `next_runq` on an empty queue returns the idle task and changes nothing. -/
theorem RunQ.Queues.nextRunq_nil (h : rq.Queues Ok vruntime []) : nextRunq rq = (rq.idle, rq) := by
  rw [nextRunq, h.leftmost]
  rfl

/-- `next_runq` takes the first task. -/
theorem RunQ.Queues.nextRunq_cons (hrb : rb.Lawful Ok) {t : TaskPtr}
    (h : rq.Queues Ok vruntime (t :: l)) :
    (nextRunq rq).1 = t ∧ (nextRunq rq).2.Queues Ok vruntime l := by
  have hremove := h.treeRemove hrb List.mem_cons_self
  rw [List.erase_cons_head] at hremove
  rw [nextRunq, h.leftmost]
  exact ⟨rfl, hremove⟩

/-! ## The count of queued tasks -/

/-- `num_threads` counts the queued tasks. -/
def RunQ.Counts (rq : RunQ rb) (l : List TaskPtr) : Prop := rq.numThreads = l.length

/-- `tree_insert` counts the task. -/
theorem RunQ.Counts.treeInsert (hcount : rq.Counts l) (hnodup : l.Nodup) {t : TaskPtr} (ht : t ∉ l) :
    (treeInsert vruntime rq t).Counts (insertStable vruntime t l) := by
  have hlen := TaskPtr.length_lt (List.nodup_cons.mpr ⟨ht, hnodup⟩)
  rw [List.length_cons] at hlen
  rw [RunQ.Counts, Sched.treeInsert, (insertStable_perm t l).length_eq, List.length_cons, hcount,
    Nat.mod_eq_of_lt hlen]

/-- `tree_remove` counts it off. -/
theorem RunQ.Counts.treeRemove (hcount : rq.Counts l) (hnodup : l.Nodup) {t : TaskPtr} (ht : t ∈ l) :
    (treeRemove rq t).Counts (l.erase t) := by
  have hlen := TaskPtr.length_lt hnodup
  have hpos := List.length_pos_of_mem ht
  have hcount' : rq.numThreads = l.length := hcount
  show (rq.numThreads + (wordSize - 1)) % wordSize = (l.erase t).length
  rw [List.length_erase_of_mem ht, hcount']
  simp only [wordSize] at hlen ⊢
  omega

/-- The count after `next_runq` took the first task. -/
theorem RunQ.Counts.nextRunq_cons {t : TaskPtr} (hcount : rq.Counts (t :: l))
    (hnodup : (t :: l).Nodup) (hleft : rq.leftmost = some t) : (nextRunq rq).2.Counts l := by
  have hremove := hcount.treeRemove hnodup List.mem_cons_self
  rw [List.erase_cons_head] at hremove
  rw [nextRunq, hleft]
  exact hremove

end Flos.Sched
