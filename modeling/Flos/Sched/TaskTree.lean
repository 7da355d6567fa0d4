import Flos.Rbtree.EraseNode
import Flos.Rbtree.Search
import Flos.Rbtree.Traverse
import Flos.Sched.PriorityQueue

/-!
# The run queue on the red-black tree

The tree of the run queue is the one of `rbtree.c`, with the nodes inside the tasks. It has the laws that the
run queue relies on, whatever the memory of the nodes holds before. Its loops end after at most as many rounds
as a balanced tree of tasks is deep, since there are fewer tasks than words.
-/

namespace Flos.Sched

open Flos.Lib
open Flos.Rbtree
open Flos.Mm (wordSize)

/-- More rounds than any loop through a balanced tree of tasks takes. -/
def maxRounds : ℕ := 130

/-- The links hold a balanced tree. -/
def TreeOk (links : Links TaskPtr) : Prop :=
  ∃ t : ColorTree TaskPtr, Shows links [] t ∧ ∃ n, t.Balanced .black n

/-- Link a new node where the path ends; a path that ends at a node links it nowhere. -/
def linkNodeAt (links : Links TaskPtr) (t : TaskPtr) (path : List Bool) : Links TaskPtr :=
  match followPath links path none .left with
  | some (parent, d) => rbLinkNode t parent d links
  | none => links.write t ⟨none, .red, none, none⟩

/-- The tree of `rbtree.c`, on some memory for the nodes. -/
def kernelRbTree (mem : TaskPtr → RbNode TaskPtr) : RbTree where
  Links := Links TaskPtr
  view links := readTree links maxRounds links.root
  empty := ⟨mem, none⟩
  linkNode := linkNodeAt
  insertColor links t := (rbInsertColor maxRounds t links).getD links
  erase links t := (rbErase maxRounds t links).getD links
  next links t := (rbNext maxRounds t links).getD none

/-- The tree of `rbtree.c` with so many rounds for each loop. A call that runs out of them or dereferences
`NULL`, as it may on a tree that is none, has no effect. -/
def roundsRbTree (rounds : ℕ) (mem : TaskPtr → RbNode TaskPtr) : RbTree where
  Links := Links TaskPtr
  view links := readTree links rounds links.root
  empty := ⟨mem, none⟩
  linkNode := linkNodeAt
  insertColor links t := (rbInsertColor rounds t links).getD links
  erase links t := (rbErase rounds t links).getD links
  next links t := (rbNext rounds t links).getD none

variable {mem : TaskPtr → RbNode TaskPtr} {links : Links TaskPtr} {t : ColorTree TaskPtr}

/-- The node of a task that `ktask_spawn` has zeroed. -/
def zeroedNode : RbNode TaskPtr := ⟨none, .red, none, none⟩

/-- The links of the tree in the queue. -/
def RunQ.kernelLinks (rq : RunQ (kernelRbTree mem)) : Links TaskPtr := rq.links

/-- A balanced tree of tasks is not deep. -/
theorem depth_le_of_balanced (hnodup : t.order.Nodup) {n : ℕ} (hbal : t.Balanced .black n) : t.depth ≤ 128 := by
  have hlen : t.order.length < 2 ^ 64 := TaskPtr.length_lt hnodup
  have hlog : Nat.log 2 (t.order.length + 1) ≤ 64 := by
    calc Nat.log 2 (t.order.length + 1) ≤ Nat.log 2 (2 ^ 64) := Nat.log_mono_right hlen
      _ = 64 := Nat.log_pow (by decide) 64
  exact hbal.depth_le_log.trans (by omega)

/-- The nodes of a tree that the links hold are different. -/
theorem nodup_of_shows (h : Shows links [] t) : t.order.Nodup := (List.nodup_append.mp h.nodup).1

/-- What is read of the links is the tree that they hold. -/
theorem view_eq (h : Shows links [] t) (hdepth : t.depth ≤ maxRounds) :
    (kernelRbTree mem).view links = t.shape := by
  show readTree links maxRounds links.root = t.shape
  rw [show links.root = t.root from h.around]
  exact readTree_eq h.tree hdepth

/-- The order of the links is that of the tree. -/
theorem order_eq (h : Shows links [] t) (hdepth : t.depth ≤ maxRounds) :
    (kernelRbTree mem).order links = t.order := by
  show inorder ((kernelRbTree mem).view links) = t.order
  rw [view_eq h hdepth, ColorTree.inorder_shape]

/-- The tree of links that are in order, with its depth and its nodes. -/
theorem TreeOk.elim (h : TreeOk links) (mem : TaskPtr → RbNode TaskPtr) :
    ∃ t : ColorTree TaskPtr, Shows links [] t ∧ (∃ n, t.Balanced .black n) ∧ t.depth ≤ 128 ∧
      (kernelRbTree mem).view links = t.shape ∧ (kernelRbTree mem).order links = t.order := by
  obtain ⟨t, ht, n, hbal⟩ := h
  have hdepth := depth_le_of_balanced (nodup_of_shows ht) hbal
  have hrounds : t.depth ≤ maxRounds := hdepth.trans (by decide)
  exact ⟨t, ht, ⟨n, hbal⟩, hdepth, view_eq ht hrounds, order_eq ht hrounds⟩

/-- Linking a new node and repairing the tree: the tree is balanced again and keeps its order. -/
theorem linkNodeAt_cases (h : Shows links [] t) {n : ℕ} (hbal : t.Balanced .black n) {a : TaskPtr}
    (ha : a ∉ t.order) (path : List Bool) :
    ∃ u : ColorTree TaskPtr, Shows (linkNodeAt links a path) [] u ∧ u.shape = graft a path t.shape ∧
      u.depth ≤ t.depth + 1 ∧ ∃ links' u', rbInsertColor maxRounds a (linkNodeAt links a path) = some links' ∧
        Shows links' [] u' ∧ u'.order = u.order ∧ ∃ m, u'.Balanced .black m := by
  have hdepth := depth_le_of_balanced (nodup_of_shows h) hbal
  rcases followPath_cases h path with ⟨ctx, rfl, hrun, hgraft⟩ | ⟨hrun, hgraft⟩
  · have hplace : Shows links ctx .nil := shows_plug.mp h
    have hkeys : a ∉ ctx.keys := by
      rwa [(Context.perm_order_plug ctx .nil).mem_iff] at ha
    obtain ⟨k, haccepts, hnil⟩ := Context.accepts_of_plug hbal
    cases hnil
    have hlength := Context.length_add_depth_le ctx .nil
    have hrounds : ctx.length < maxRounds := by
      simp only [maxRounds]
      omega
    have hlinked : linkNodeAt links a path = rbLinkNode a ctx.parent (linkSide ctx) links := by
      have hplace : followPath links path none .left = some (ctx.parent, linkSide ctx) := by
        rwa [List.append_nil] at hrun
      rw [linkNodeAt, hplace]
    obtain ⟨links', hinsert, hshows⟩ := rbInsertColor_shows hplace hkeys haccepts hrounds
    refine ⟨ctx.plug (.node .red .nil a .nil), ?_, hgraft a, Context.depth_plug_le_add ctx le_rfl, links', _, hlinked ▸ hinsert, hshows,
      Context.order_insertFix ctx _, Context.balanced_insertFix haccepts (.red .nil .nil)⟩
    rw [hlinked]
    exact shows_plug.mpr (shows_rbLinkNode hplace hkeys)
  · have hlinked : linkNodeAt links a path = links.write a ⟨none, .red, none, none⟩ := by
      have hnone : followPath links path none .left = none := hrun
      rw [linkNodeAt, hnone]
    have hother : ∀ x ∈ t.order ++ Context.keys [], x ≠ a := by
      rintro x hx rfl
      exact ha (by simpa [Context.keys] using hx)
    have hshows : Shows (linkNodeAt links a path) [] t := by
      rw [hlinked]
      exact h.congr rfl fun x hx => Function.update_of_ne (hother x hx) _ _
    have hself : (linkNodeAt links a path).mem a = ⟨none, .red, none, none⟩ := by
      rw [hlinked]
      exact Function.update_self _ _ _
    refine ⟨t, hshows, (hgraft a).symm, Nat.le_succ _, (linkNodeAt links a path).setParentColor a none .black, t, ?_,
      hshows.congr rfl fun x hx => ?_, rfl, n, hbal⟩
    · rw [rbInsertColor, Links.redParent, hself]
      rfl
    · rw [Links.mem_setParentColor, if_neg (hother x hx)]

/-- Erasing a node: the tree is balanced again and keeps the order of the others. -/
theorem rbErase_cases (h : Shows links [] t) {n : ℕ} (hbal : t.Balanced .black n) {a : TaskPtr}
    (ha : a ∈ t.order) :
    ∃ links' u, rbErase maxRounds a links = some links' ∧ Shows links' [] u ∧ u.order = t.order.erase a ∧
      ∃ m, u.Balanced .black m :=
  rbErase_order h hbal ha ((depth_le_of_balanced (nodup_of_shows h) hbal).trans (by decide))

/-- An insertion that succeeds. -/
theorem insertColor_eq {links' : Links TaskPtr} {a : TaskPtr} {path : List Bool}
    (h : rbInsertColor maxRounds a (linkNodeAt links a path) = some links') :
    (kernelRbTree mem).insertColor ((kernelRbTree mem).linkNode links a path) a = links' := by
  show (rbInsertColor maxRounds a (linkNodeAt links a path)).getD (linkNodeAt links a path) = links'
  rw [h, Option.getD_some]

/-- An erasure that succeeds. -/
theorem erase_eq {links' : Links TaskPtr} {a : TaskPtr} (h : rbErase maxRounds a links = some links') :
    (kernelRbTree mem).erase links a = links' := by
  show (rbErase maxRounds a links).getD links = links'
  rw [h, Option.getD_some]

/-- The tree of `rbtree.c` is a tree as the run queue needs it. -/
theorem kernelRbTree_lawful (mem : TaskPtr → RbNode TaskPtr) : (kernelRbTree mem).Lawful TreeOk where
  ok_empty := ⟨.nil, ⟨rfl, trivial, List.nodup_nil⟩, 0, .nil⟩
  view_empty := rfl
  view_linkNode path hok ha := by
    obtain ⟨t, ht, ⟨n, hbal⟩, hdepth, hview, horder⟩ := hok.elim mem
    rw [horder] at ha
    obtain ⟨u, hu, hshape, hudepth, -⟩ := linkNodeAt_cases ht hbal ha path
    rw [hview, ← hshape]
    exact view_eq hu (hudepth.trans (by simp only [maxRounds]; omega))
  ok_insert path hok ha := by
    obtain ⟨t, ht, ⟨n, hbal⟩, -, -, horder⟩ := hok.elim mem
    rw [horder] at ha
    obtain ⟨u, -, -, -, links', u', hinsert, hu', -, hbal'⟩ := linkNodeAt_cases ht hbal ha path
    have hok' : TreeOk links' := ⟨u', hu', hbal'⟩
    exact Eq.mpr (congrArg TreeOk (insertColor_eq hinsert)) hok'
  order_insertColor path hok ha := by
    obtain ⟨t, ht, ⟨n, hbal⟩, hdepth, -, horder⟩ := hok.elim mem
    rw [horder] at ha
    obtain ⟨u, hu, -, hudepth, links', u', hinsert, hu', hsame, m, hbal'⟩ := linkNodeAt_cases ht hbal ha path
    have hudepth' : u'.depth ≤ maxRounds :=
      (depth_le_of_balanced (nodup_of_shows hu') hbal').trans (by decide)
    rw [insertColor_eq hinsert, order_eq hu' hudepth', hsame]
    exact (order_eq hu (hudepth.trans (by simp only [maxRounds]; omega))).symm
  ok_erase hok _ ha := by
    obtain ⟨t, ht, ⟨n, hbal⟩, -, -, horder⟩ := hok.elim mem
    rw [horder] at ha
    obtain ⟨links', u, herase, hu, -, hbal'⟩ := rbErase_cases ht hbal ha
    have hok' : TreeOk links' := ⟨u, hu, hbal'⟩
    exact Eq.mpr (congrArg TreeOk (erase_eq herase)) hok'
  order_erase hok _ ha := by
    obtain ⟨t, ht, ⟨n, hbal⟩, -, -, horder⟩ := hok.elim mem
    rw [horder] at ha ⊢
    obtain ⟨links', u, herase, hu, hrest, m, hbal'⟩ := rbErase_cases ht hbal ha
    rw [erase_eq herase, ← hrest]
    exact order_eq hu ((depth_le_of_balanced (nodup_of_shows hu) hbal').trans (by decide))
  next_eq hok _ hsplit := by
    obtain ⟨t, ht, -, hdepth, -, horder⟩ := hok.elim mem
    rw [horder] at hsplit
    show (rbNext maxRounds _ _).getD none = _
    rw [(rbNext_rbPrev_eq ht hsplit (hdepth.trans (by decide : 128 ≤ maxRounds))).1]
    rfl

end Flos.Sched
