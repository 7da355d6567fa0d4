import Flos.Lib.RedBlack
import Mathlib.Logic.Function.Basic

/-!
# The links of a red-black tree

The nodes of `rbtree.h` carry their parent, their colour and their children; the memory of a node that is in
no tree may be anything. A tree seen through a context is held by the links if every node on the way, in the
tree and beside the way has the links that its place calls for.
-/

namespace Flos.Rbtree

open Flos.Lib

/-- `struct rb_node`; `__rb_parent_color` is the address of the parent with the colour in its low bit. -/
structure RbNode (N : Type*) where
  parent : Option N
  color : Color
  right : Option N
  left : Option N

/-- The nodes in memory, and `struct rb_root`. -/
structure Links (N : Type*) where
  mem : N → RbNode N
  root : Option N

variable {N : Type*}

/-- A child of a node. -/
def RbNode.child (n : RbNode N) : Side → Option N
  | .left => n.left
  | .right => n.right

/-- The node with another child. -/
def RbNode.setChild (n : RbNode N) : Side → Option N → RbNode N
  | .left, v => { n with left := v }
  | .right, v => { n with right := v }

/-- The node with another parent and another colour. -/
def RbNode.moved (n : RbNode N) (p : Option N) (c : Color) : RbNode N := ⟨p, c, n.right, n.left⟩

/-- A node with `near` on the side and `far` on the other one. -/
def RbNode.linked (d : Side) (parent : Option N) (c : Color) (near far : Option N) : RbNode N :=
  match d with
  | .left => ⟨parent, c, far, near⟩
  | .right => ⟨parent, c, near, far⟩

section Node

variable (d : Side) (p q : Option N) (c c' : Color) (x y z : Option N)

/-- The child on the given side. -/
@[simp] theorem child_linked : (RbNode.linked d p c x y).child d = x := by cases d <;> rfl

/-- The child on the other side. -/
@[simp] theorem child_flip_linked : (RbNode.linked d p c x y).child d.flip = y := by cases d <;> rfl

/-- The parent of a node. -/
@[simp] theorem parent_linked : (RbNode.linked d p c x y).parent = p := by cases d <;> rfl

/-- The colour of a node. -/
@[simp] theorem color_linked : (RbNode.linked d p c x y).color = c := by cases d <;> rfl

/-- Writing the child on the given side. -/
@[simp] theorem setChild_linked : (RbNode.linked d p c x y).setChild d z = RbNode.linked d p c z y := by
  cases d <;> rfl

/-- Writing the child on the other side. -/
@[simp] theorem setChild_flip_linked :
    (RbNode.linked d p c x y).setChild d.flip z = RbNode.linked d p c x z := by cases d <;> rfl

/-- Writing the parent and the colour. -/
@[simp] theorem moved_linked : (RbNode.linked d p c x y).moved q c' = RbNode.linked d q c' x y := by
  cases d <;> rfl

/-- A node seen from the other side. -/
theorem linked_flip : RbNode.linked d.flip p c x y = RbNode.linked d p c y x := by cases d <;> rfl

end Node

namespace Links

variable [DecidableEq N] (s : Links N)

/-- A child of a node in memory. -/
def child (d : Side) (a : N) : Option N := (s.mem a).child d

/-- Write a node. -/
def write (a : N) (n : RbNode N) : Links N := { s with mem := Function.update s.mem a n }

/-- Write a child of a node. -/
def setChild (a : N) (d : Side) (v : Option N) : Links N := s.write a ((s.mem a).setChild d v)

/-- `rb_set_parent`. -/
def setParent (a : N) (p : Option N) : Links N := s.write a ((s.mem a).moved p (s.mem a).color)

/-- `rb_set_parent_color`. -/
def setParentColor (a : N) (p : Option N) (c : Color) : Links N :=
  s.write a ((s.mem a).moved p c)

/-- `rb_set_parent_color` of a node that is not `NULL`. -/
def setParentColorIf (t p : Option N) (c : Color) : Links N := t.elim s fun a => s.setParentColor a p c

/-- `rb_set_black` of a red node. -/
def setBlack (a : N) : Links N := s.write a ((s.mem a).moved (s.mem a).parent .black)

/-- `rb_red_parent`: the word of a red node is the address of its parent. -/
def redParent (a : N) : Option (Option N) :=
  if (s.mem a).color = .red then some (s.mem a).parent else none

/-- Not `NULL`, and red. -/
def IsRed (t : Option N) : Prop := (t.map fun a => (s.mem a).color) = some .red

instance (t : Option N) : Decidable (s.IsRed t) := inferInstanceAs (Decidable (_ = _))

/-- `__rb_change_child`. -/
def changeChild (old : N) (new parent : Option N) : Links N :=
  match parent with
  | some p => if s.child .left p = some old then s.setChild p .left new else s.setChild p .right new
  | none => { s with root := new }

/-- `__rb_rotate_set_parents`. -/
def rotateSetParents (old new : N) (c : Color) : Links N :=
  let parent := (s.mem old).parent
  let s := s.setParentColor new parent (s.mem old).color
  let s := s.setParentColor old (some new) c
  s.changeChild old (some new) parent

/-- A written node. -/
@[simp] theorem mem_write (a : N) (n : RbNode N) : (s.write a n).mem = Function.update s.mem a n := rfl

/-- Writing a node leaves the root. -/
@[simp] theorem root_write (a : N) (n : RbNode N) : (s.write a n).root = s.root := rfl

/-- Writing a child changes this link of one node. -/
theorem mem_setChild (a b : N) (d : Side) (v : Option N) :
    (s.setChild a d v).mem b = if b = a then (s.mem a).setChild d v else s.mem b :=
  Function.update_apply _ _ _ _

/-- Writing a parent keeps the colour, and every other node. -/
theorem mem_setParent (a b : N) (p : Option N) :
    (s.setParent a p).mem b = if b = a then (s.mem a).moved p (s.mem a).color else s.mem b :=
  Function.update_apply _ _ _ _

/-- `rb_set_parent` of a node that is not `NULL`. -/
theorem mem_setParent_elim (t p : Option N) (b : N) :
    (t.elim s fun a => s.setParent a p).mem b =
      if t = some b then (s.mem b).moved p (s.mem b).color else s.mem b := by
  cases t with
  | none => rfl
  | some a =>
    rw [Option.elim_some, mem_setParent]
    by_cases h : b = a
    · rw [if_pos h, if_pos (congrArg some h.symm), h]
    · rw [if_neg h, if_neg fun heq => h (Option.some.inj heq).symm]

/-- Writing a parent with a colour changes no other node. -/
theorem mem_setParentColor (a b : N) (p : Option N) (c : Color) :
    (s.setParentColor a p c).mem b =
      if b = a then (s.mem a).moved p c else s.mem b :=
  Function.update_apply _ _ _ _

/-- Writing the parent of a node that may be missing. -/
theorem mem_setParentColorIf (t p : Option N) (c : Color) (b : N) :
    (s.setParentColorIf t p c).mem b =
      if t = some b then (s.mem b).moved p c else s.mem b := by
  cases t with
  | none => rfl
  | some a =>
    rw [setParentColorIf, Option.elim_some, mem_setParentColor]
    by_cases h : b = a
    · rw [if_pos h, if_pos (congrArg some h.symm), h]
    · rw [if_neg h, if_neg fun heq => h (Option.some.inj heq).symm]

/-- Writing a child leaves the root. -/
@[simp] theorem root_setChild (a : N) (d : Side) (v : Option N) : (s.setChild a d v).root = s.root := rfl

/-- Writing a parent leaves the root. -/
@[simp] theorem root_setParent (a : N) (p : Option N) : (s.setParent a p).root = s.root := rfl

/-- So does writing the parent of a node that may be missing. -/
@[simp] theorem root_setParent_elim (t p : Option N) :
    (t.elim s fun a => s.setParent a p).root = s.root := by cases t <;> rfl

/-- Writing a parent with a colour leaves the root. -/
@[simp] theorem root_setParentColor (a : N) (p : Option N) (c : Color) :
    (s.setParentColor a p c).root = s.root := rfl

/-- So does writing both for a node that may be missing. -/
@[simp] theorem root_setParentColorIf (t p : Option N) (c : Color) :
    (s.setParentColorIf t p c).root = s.root := by cases t <;> rfl

end Links

/-! ## Trees in memory -/

/-- The nodes of the tree have the links of their places; the root hangs below the parent. -/
def Holds (mem : N → RbNode N) : Option N → ColorTree N → Prop
  | _, .nil => True
  | p, .node c l a r =>
    mem a = ⟨p, c, r.root, l.root⟩ ∧ Holds mem (some a) l ∧ Holds mem (some a) r

/-- The nodes around a hole have the links of their places; `hole` is the node in the hole. -/
def HoldsAround (s : Links N) : Context N → Option N → Prop
  | [], hole => s.root = hole
  | f :: ctx, hole =>
    s.mem f.key = RbNode.linked f.side (Context.parent ctx) f.color hole f.sibling.root ∧
      Holds s.mem (some f.key) f.sibling ∧ HoldsAround s ctx (some f.key)

/-- The links hold the tree in the context, and no node is in two places. -/
structure Shows (s : Links N) (ctx : Context N) (t : ColorTree N) : Prop where
  around : HoldsAround s ctx t.root
  tree : Holds s.mem ctx.parent t
  nodup : (t.order ++ ctx.keys).Nodup

/-- A node of the tree, seen from a side. -/
theorem holds_branch {mem : N → RbNode N} {p : Option N} {d : Side} {c : Color} {t u : ColorTree N} {a : N} :
    Holds mem p (ColorTree.branch d c t a u) ↔
      mem a = RbNode.linked d p c t.root u.root ∧ Holds mem (some a) t ∧ Holds mem (some a) u := by
  cases d
  · exact Iff.rfl
  · exact and_congr_right fun _ => and_comm

/-- A tree in memory that keeps its nodes. -/
theorem Holds.congr {mem mem' : N → RbNode N} {p : Option N} {t : ColorTree N} (h : Holds mem p t)
    (hsame : ∀ a ∈ t.order, mem' a = mem a) : Holds mem' p t := by
  induction t generalizing p with
  | nil => trivial
  | node c l a r ihl ihr =>
    obtain ⟨hnode, hl, hr⟩ := h
    refine ⟨(hsame a ?_).trans hnode, ihl hl fun b hb => hsame b ?_, ihr hr fun b hb => hsame b ?_⟩
    · exact List.mem_append_right _ List.mem_cons_self
    · exact List.mem_append_left _ hb
    · exact List.mem_append_right _ (List.mem_cons_of_mem _ hb)

/-- A tree in memory whose root gets another parent and another colour. -/
theorem Holds.move {mem mem' : N → RbNode N} {p q : Option N} {c : Color} {t : ColorTree N}
    (h : Holds mem p t) (hnodup : t.order.Nodup)
    (hroot : ∀ a, t.root = some a → mem' a = (mem a).moved q c)
    (hsame : ∀ a ∈ t.order, t.root ≠ some a → mem' a = mem a) : Holds mem' q (t.recolor c) := by
  cases t with
  | nil => trivial
  | node c' l a r =>
    obtain ⟨hnode, hl, hr⟩ := h
    obtain ⟨-, hanodup, hdisjoint⟩ := List.nodup_append.mp hnodup
    refine ⟨by rw [hroot a rfl, hnode]; rfl, hl.congr fun b hb => hsame b ?_ ?_, hr.congr fun b hb => hsame b ?_ ?_⟩
    · exact List.mem_append_left _ hb
    · rintro ⟨⟩
      exact hdisjoint a hb a List.mem_cons_self rfl
    · exact List.mem_append_right _ (List.mem_cons_of_mem _ hb)
    · rintro ⟨⟩
      exact (List.nodup_cons.mp hanodup).1 hb

/-- The root of a tree in memory has its colour and the parent. -/
theorem Holds.moved_root {mem : N → RbNode N} {p : Option N} {t : ColorTree N} {a : N} (h : Holds mem p t)
    (ha : t.root = some a) : (mem a).moved p t.color = mem a := by
  cases t with
  | nil => cases ha
  | node c l b r =>
    cases ha
    rw [h.1]
    rfl

/-- The root of a tree in memory hangs below the parent. -/
theorem Holds.parent_root {mem : N → RbNode N} {p : Option N} {t : ColorTree N} {a : N} (h : Holds mem p t)
    (ha : t.root = some a) : (mem a).parent = p := by
  cases t with
  | nil => cases ha
  | node c l b r =>
    cases ha
    rw [h.1]

/-- The surroundings of a hole keep their nodes. -/
theorem HoldsAround.congr {s s' : Links N} {ctx : Context N} {hole : Option N} (h : HoldsAround s ctx hole)
    (hroot : s'.root = s.root) (hsame : ∀ a ∈ ctx.keys, s'.mem a = s.mem a) : HoldsAround s' ctx hole := by
  induction ctx generalizing hole with
  | nil => exact hroot.trans h
  | cons f ctx ih =>
    obtain ⟨hnode, hsibling, hctx⟩ := h
    have hframe : ∀ a ∈ f.keys, s'.mem a = s.mem a := fun a ha =>
      hsame a (List.mem_append_left _ ha)
    refine ⟨(hframe f.key List.mem_cons_self).trans hnode,
      hsibling.congr fun a ha => hframe a (List.mem_cons_of_mem _ ha), ih hctx fun a ha => hsame a ?_⟩
    exact List.mem_append_right _ ha

/-- Nodes outside of the tree do not matter. -/
theorem Shows.congr {s s' : Links N} {ctx : Context N} {t : ColorTree N} (h : Shows s ctx t)
    (hroot : s'.root = s.root) (hsame : ∀ a ∈ t.order ++ ctx.keys, s'.mem a = s.mem a) : Shows s' ctx t :=
  ⟨h.around.congr hroot fun a ha => hsame a (List.mem_append_right _ ha),
    h.tree.congr fun a ha => hsame a (List.mem_append_left _ ha), h.nodup⟩

/-- A frame moves between the context and the tree. -/
theorem shows_fill {s : Links N} {f : Frame N} {ctx : Context N} {t : ColorTree N} :
    Shows s (f :: ctx) t ↔ Shows s ctx (f.fill t) := by
  have hperm : (t.order ++ Context.keys (f :: ctx)).Perm ((f.fill t).order ++ ctx.keys) :=
    (Context.perm_order_plug (f :: ctx) t).symm.trans (Context.perm_order_plug ctx (f.fill t))
  constructor
  · rintro ⟨⟨hnode, hsibling, hctx⟩, htree, hnodup⟩
    refine ⟨?_, holds_branch.mpr ⟨hnode, htree, hsibling⟩, hperm.nodup_iff.mp hnodup⟩
    rw [Frame.fill, ColorTree.root_branch]
    exact hctx
  · rintro ⟨haround, htree, hnodup⟩
    obtain ⟨hnode, ht, hsibling⟩ := holds_branch.mp htree
    rw [Frame.fill, ColorTree.root_branch] at haround
    exact ⟨⟨hnode, hsibling, haround⟩, ht, hperm.nodup_iff.mpr hnodup⟩

/-- The two subtrees of a node trade the hole. -/
theorem shows_swap {s : Links N} {d : Side} {c : Color} {a : N} {ctx : Context N} {t u : ColorTree N} :
    Shows s (⟨d, c, a, u⟩ :: ctx) t ↔ Shows s (⟨d.flip, c, a, t⟩ :: ctx) u := by
  rw [shows_fill, shows_fill, Frame.fill, Frame.fill, ColorTree.branch_flip]

/-- The links hold the whole tree exactly if they hold it at any place in it. -/
theorem shows_plug {s : Links N} {ctx : Context N} {t : ColorTree N} :
    Shows s [] (ctx.plug t) ↔ Shows s ctx t := by
  induction ctx generalizing t with
  | nil => exact Iff.rfl
  | cons f ctx ih => exact ih.trans shows_fill.symm

/-- A black node with two red children, for the runs on fixed inputs. -/
def threeNodes : Links ℕ where
  mem a := if a = 2 then ⟨none, .black, some 3, some 1⟩ else ⟨some 2, .red, none, none⟩
  root := some 2

/-- Three nodes by their links, as a tree. -/
theorem shows_threeNodes :
    Shows threeNodes [] (.node .black (.node .red .nil 1 .nil) 2 (.node .red .nil 3 .nil)) :=
  ⟨rfl, ⟨rfl, ⟨rfl, trivial, trivial⟩, rfl, trivial, trivial⟩, by decide⟩

variable [DecidableEq N] {s s₁ : Links N} {ctx : Context N}

/-- Only the parent sees that its child is exchanged. -/
theorem mem_changeChild (s : Links N) {old a : N} {new parent : Option N} (h : parent ≠ some a) :
    (s.changeChild old new parent).mem a = s.mem a := by
  cases parent with
  | none => rfl
  | some p =>
    have hne : a ≠ p := fun heq => h (congrArg some heq.symm)
    rw [Links.changeChild]
    split
    · exact Function.update_of_ne hne _ _
    · exact Function.update_of_ne hne _ _

/-- Below a node the root stays. -/
@[simp] theorem root_changeChild_some (s : Links N) (old p : N) (new : Option N) :
    (s.changeChild old new (some p)).root = s.root := by
  rw [Links.changeChild]
  split <;> rfl

omit [DecidableEq N] in
/-- The node above the hole is around it. -/
theorem mem_keys_of_parent {a : N} (h : ctx.parent = some a) : a ∈ ctx.keys := by
  cases ctx with
  | nil => cases h
  | cons f ctx =>
    cases h
    exact List.mem_append_left _ List.mem_cons_self

/-- The hole gets another node. -/
theorem HoldsAround.changeChild {old : N} (h : HoldsAround s ctx (some old)) (hnodup : ctx.keys.Nodup)
    (hold : old ∉ ctx.keys) (new : Option N) :
    HoldsAround (s.changeChild old new ctx.parent) ctx new := by
  cases ctx with
  | nil => rfl
  | cons f ctx =>
    obtain ⟨hnode, hsibling, hctx⟩ := h
    obtain ⟨hframe, -, hdisjoint⟩ := List.nodup_append.mp hnodup
    obtain ⟨hkey, -⟩ := List.nodup_cons.mp hframe
    have hchange : s.changeChild old new (some f.key) = s.setChild f.key f.side new := by
      simp only [Links.changeChild, Links.child, hnode]
      obtain ⟨d, c, a, u⟩ := f
      cases d
      · exact if_pos rfl
      · refine if_neg fun heq => hold ?_
        exact List.mem_append_left _ (List.mem_cons_of_mem _ (ColorTree.mem_order_of_root heq))
    have hsame : ∀ a, a ≠ f.key → (s.setChild f.key f.side new).mem a = s.mem a :=
      fun a ha => Function.update_of_ne ha _ _
    simp only [Context.parent]
    rw [hchange]
    refine ⟨?_, hsibling.congr fun a ha => hsame a ?_, hctx.congr rfl fun a ha => hsame a ?_⟩
    · rw [Links.setChild, Links.mem_write, Function.update_self, hnode, setChild_linked]
    · rintro rfl
      exact hkey ha
    · rintro rfl
      exact hdisjoint _ List.mem_cons_self _ ha rfl

/-- A subtree is rebuilt from its nodes, and then the parent is told of the new root. -/
theorem Shows.rebuild {t u : ColorTree N} (old : N) (h : Shows s ctx t) (hold : t.root = some old)
    (hroot : s₁.root = s.root) (hout : ∀ a ∈ ctx.keys, s₁.mem a = s.mem a)
    (hperm : u.order.Perm t.order) (hu : Holds s₁.mem ctx.parent u) :
    Shows (s₁.changeChild old u.root ctx.parent) ctx u := by
  obtain ⟨-, hkeys, hdisjoint⟩ := List.nodup_append.mp h.nodup
  have hnotin : old ∉ ctx.keys := fun hmem =>
    hdisjoint _ (ColorTree.mem_order_of_root hold) _ hmem rfl
  refine ⟨?_, hu.congr fun a ha => mem_changeChild s₁ fun hparent => ?_, ?_⟩
  · exact ((hold ▸ h.around).congr hroot hout).changeChild hkeys hnotin u.root
  · exact hdisjoint a (hperm.mem_iff.mp ha) a (mem_keys_of_parent hparent) rfl
  · exact ((hperm.append_right _).nodup_iff).mpr h.nodup

omit [DecidableEq N] in
/-- The colour of the root in memory. -/
theorem Holds.color_root {mem : N → RbNode N} {p : Option N} {t : ColorTree N} {a : N} (h : Holds mem p t)
    (ha : t.root = some a) : (mem a).color = t.color := by
  cases t with
  | nil => cases ha
  | node c l b r =>
    cases ha
    rw [h.1]
    rfl

omit [DecidableEq N] in
/-- A tree in memory is red exactly if its root is. -/
theorem Holds.isRed {p : Option N} {t : ColorTree N} (h : Holds s.mem p t) :
    s.IsRed t.root ↔ t.color = .red := by
  cases ht : t.root with
  | none =>
    cases t with
    | nil => exact iff_of_false (fun h => by cases h) (fun h => by cases h)
    | node => cases ht
  | some a =>
    rw [Links.IsRed, Option.map_some, h.color_root ht, Option.some.injEq]

/-- The test for the side on which a node hangs. -/
theorem side_of_linked {f : Side} {q hole other : Option N} {c : Color} {a : N}
    (h : s.mem a = RbNode.linked f q c hole other) (hne : other ≠ hole) :
    (if s.child .right a ≠ hole then Side.left else .right) = f := by
  cases f
  · rw [Links.child, h]
    exact if_pos hne
  · rw [Links.child, h]
    exact if_neg (not_not_intro rfl)

/-- The root of the whole tree gets another colour. -/
theorem Shows.recolor_root {t : ColorTree N} {a : N} (h : Shows s [] t) (ha : t.root = some a) (c : Color) :
    Shows (s.setParentColor a none c) [] (t.recolor c) := by
  have hnodup : t.order.Nodup := (List.nodup_append.mp h.nodup).1
  refine ⟨?_, h.tree.move hnodup (fun b hb => ?_) fun b _ hne => ?_, ?_⟩
  · rw [ColorTree.root_recolor]
    exact h.around
  · obtain rfl := Option.some.inj (ha.symm.trans hb)
    rw [Links.mem_setParentColor, if_pos rfl]
    rfl
  · rw [Links.mem_setParentColor, if_neg]
    rintro rfl
    exact hne ha
  · rw [ColorTree.order_recolor]
    exact h.nodup

/-! ## Nodes that leave -/

/-- Telling the parent of a new child does the same to the same nodes. -/
theorem mem_changeChild_congr {old a : N} {new parent : Option N} (hsame : s₁.mem a = s.mem a)
    (hparent : ∀ p, parent = some p → s₁.mem p = s.mem p) :
    (s₁.changeChild old new parent).mem a = (s.changeChild old new parent).mem a := by
  cases parent with
  | none => exact hsame
  | some p =>
    have hchild : s₁.child .left p = s.child .left p := congrArg (fun n => n.child .left) (hparent p rfl)
    by_cases hleft : s.child .left p = some old
    · simp only [Links.changeChild, if_pos hleft, if_pos (hchild.trans hleft), Links.mem_setChild,
        hparent p rfl, hsame]
    · simp only [Links.changeChild, if_neg hleft, if_neg (hchild ▸ hleft), Links.mem_setChild,
        hparent p rfl, hsame]

/-- Telling the parent of a new child does the same to the root. -/
theorem root_changeChild_congr {old : N} {new parent : Option N} (hroot : s₁.root = s.root) :
    (s₁.changeChild old new parent).root = (s.changeChild old new parent).root := by
  cases parent with
  | none => rfl
  | some p =>
    simp only [Links.changeChild]
    split <;> split <;> exact hroot

/-- Another tree takes the place of a subtree: the parent is told of its root. -/
theorem Shows.replace {t u : ColorTree N} {old : N} (h : Shows s ctx t) (hold : t.root = some old)
    (hroot : s₁.root = (s.changeChild old u.root ctx.parent).root)
    (hout : ∀ a ∈ ctx.keys, s₁.mem a = (s.changeChild old u.root ctx.parent).mem a)
    (hnodup : (u.order ++ ctx.keys).Nodup) (hu : Holds s₁.mem ctx.parent u) : Shows s₁ ctx u := by
  obtain ⟨-, hkeys, hdisjoint⟩ := List.nodup_append.mp h.nodup
  have hnotin : old ∉ ctx.keys := fun hmem =>
    hdisjoint _ (ColorTree.mem_order_of_root hold) _ hmem rfl
  exact ⟨((hold ▸ h.around).changeChild hkeys hnotin u.root).congr hroot hout, hu, hnodup⟩

section Leave

variable {d : Side} {t u r : ColorTree N} {a b : N} {c cr : Color}

/-- A node with at most one child leaves, and the child takes its place. -/
theorem Shows.detach (h : Shows s ctx (ColorTree.branch d c .nil a r))
    (hroot : s₁.root = (s.changeChild a r.root ctx.parent).root)
    (hout : ∀ x ∈ ctx.keys, s₁.mem x = (s.changeChild a r.root ctx.parent).mem x)
    (hr : ∀ x, r.root = some x → s₁.mem x = (s.mem x).moved ctx.parent cr)
    (hrest : ∀ x ∈ r.order, r.root ≠ some x → s₁.mem x = s.mem x) : Shows s₁ ctx (r.recolor cr) := by
  have hnodup := ((ColorTree.perm_order_branch d c .nil a r).append_right ctx.keys).nodup_iff.mp h.nodup
  have htail : (r.order ++ ctx.keys).Nodup := (List.nodup_cons.mp hnodup).2
  refine h.replace (ColorTree.root_branch _ _ _ _ _) ?_ ?_ ?_ ?_
  · rwa [ColorTree.root_recolor]
  · rwa [ColorTree.root_recolor]
  · rwa [ColorTree.order_recolor]
  · exact (holds_branch.mp h.tree).2.2.move (List.nodup_append.mp htail).1 hr hrest

/-- A node gives its place and its children to a node from outside. -/
theorem Shows.substitute (h : Shows s ctx (ColorTree.branch d c t a u)) (hb : b ∉ t.order ++ u.order ++ ctx.keys)
    (hroot : s₁.root = (s.changeChild a (some b) ctx.parent).root)
    (hout : ∀ x ∈ ctx.keys, s₁.mem x = (s.changeChild a (some b) ctx.parent).mem x)
    (hnode : s₁.mem b = RbNode.linked d ctx.parent c t.root u.root)
    (ht : ∀ x ∈ t.order, s₁.mem x =
      if t.root = some x then (s.mem x).moved (some b) (s.mem x).color else s.mem x)
    (hu : ∀ x ∈ u.order, s₁.mem x =
      if u.root = some x then (s.mem x).moved (some b) (s.mem x).color else s.mem x) :
    Shows s₁ ctx (ColorTree.branch d c t b u) := by
  have hnodup := ((ColorTree.perm_order_branch d c t a u).append_right ctx.keys).nodup_iff.mp h.nodup
  obtain ⟨-, htt, huu⟩ := holds_branch.mp h.tree
  simp only [List.append_assoc, List.cons_append, List.nodup_append, List.nodup_cons, List.mem_append, List.mem_cons]
    at hnodup hb
  have hmove : ∀ v : ColorTree N, Holds s.mem (some a) v → v.order.Nodup → (∀ x ∈ v.order, s₁.mem x =
      if v.root = some x then (s.mem x).moved (some b) (s.mem x).color else s.mem x) →
      Holds s₁.mem (some b) v := by
    intro v hv hvnodup hmem
    rw [← ColorTree.recolor_of_color (t := v) rfl]
    refine hv.move hvnodup (fun x hx => ?_) fun x hx hne => ?_
    · rw [hmem x (ColorTree.mem_order_of_root hx), if_pos hx, hv.color_root hx]
    · rw [hmem x hx, if_neg hne]
  refine h.replace (ColorTree.root_branch _ _ _ _ _) ?_ ?_ ?_ ?_
  · rwa [ColorTree.root_branch]
  · rwa [ColorTree.root_branch]
  · refine ((ColorTree.perm_order_branch d c t b u).append_right ctx.keys).nodup_iff.mpr ?_
    simp only [List.append_assoc, List.cons_append, List.nodup_append, List.nodup_cons, List.mem_append, List.mem_cons]
    grind
  · refine holds_branch.mpr ⟨hnode, hmove t htt ?_ ht, hmove u huu ?_ hu⟩
    · grind
    · grind

end Leave

/-! ## Rotations -/

section Rotations

variable {d : Side} {t u v w : ColorTree N} {a b n : N} {cu ct ca cb ca' cb' : Color}

/-- A rotation: the child `a` of `b` takes the place of `b`, and `b` takes over the inner subtree of `a`. The
roots of the subtrees of `a` may change their colours. -/
theorem Shows.rotate (h : Shows s (⟨d, ca, a, u⟩ :: ⟨d, cb, b, v⟩ :: ctx) t)
    (hroot : s₁.root = s.root) (ha : s₁.mem a = RbNode.linked d ctx.parent ca' t.root (some b))
    (hb : s₁.mem b = RbNode.linked d (some a) cb' u.root v.root)
    (hu : ∀ x, u.root = some x → s₁.mem x = (s.mem x).moved (some b) cu)
    (ht : ∀ x, t.root = some x → s₁.mem x = (s.mem x).moved (some a) ct)
    (hrest : ∀ x, x ≠ a → x ≠ b → u.root ≠ some x → t.root ≠ some x → s₁.mem x = s.mem x) :
    Shows (s₁.changeChild b (some a) ctx.parent) ctx
      (ColorTree.branch d ca' (t.recolor ct) a (ColorTree.branch d cb' (u.recolor cu) b v)) := by
  have hnodup := h.nodup
  simp only [Context.keys_cons, Frame.keys, List.nodup_append, List.nodup_cons,
    List.mem_append, List.mem_cons] at hnodup
  have hplaces := h
  obtain ⟨⟨-, huu, -, hvv, -⟩, htt, -⟩ := hplaces
  have hmemT : ∀ x, t.root = some x → x ∈ t.order := fun _ => ColorTree.mem_order_of_root
  have hmemU : ∀ x, u.root = some x → x ∈ u.order := fun _ => ColorTree.mem_order_of_root
  have hbuild := (shows_fill.mp (shows_fill.mp h)).rebuild b (by simp [Frame.fill]) hroot
    (u := ColorTree.branch d ca' (t.recolor ct) a (ColorTree.branch d cb' (u.recolor cu) b v))
    (fun x hx => hrest x ?_ ?_ ?_ ?_) ?_ ?_
  · simpa using hbuild
  · grind
  · grind
  · grind
  · grind
  · cases d <;> simp [Frame.fill]
  · refine holds_branch.mpr ⟨?_, htt.move ?_ ht fun x hx hne => hrest x ?_ ?_ ?_ hne,
      holds_branch.mpr ⟨?_, huu.move ?_ hu fun x hx hne => hrest x ?_ ?_ hne ?_,
        hvv.congr fun x hx => hrest x ?_ ?_ ?_ ?_⟩⟩
    · simpa using ha
    · grind
    · grind
    · grind
    · grind
    · simpa using hb
    all_goals grind

/-- Two rotations: the inner child `n` of the child `a` of `b` takes the place of `b` and gives its subtrees
to `a` and `b`, where their roots may change their colours. -/
theorem Shows.rotateTwice {x y : ColorTree N} {cx cy cn : Color}
    (h : Shows s (⟨d.flip, ca, a, u⟩ :: ⟨d, cb, b, v⟩ :: ctx) (ColorTree.branch d cn x n y))
    (hroot : s₁.root = s.root) (hn : s₁.mem n = RbNode.linked d ctx.parent c (some a) (some b))
    (ha : s₁.mem a = RbNode.linked d (some n) ca' u.root x.root)
    (hb : s₁.mem b = RbNode.linked d (some n) cb' y.root v.root)
    (hx : ∀ z, x.root = some z → s₁.mem z = (s.mem z).moved (some a) cx)
    (hy : ∀ z, y.root = some z → s₁.mem z = (s.mem z).moved (some b) cy)
    (hu : ∀ z, u.root = some z → s₁.mem z = (s.mem z).moved (some a) cu)
    (hrest : ∀ z, z ≠ n → z ≠ a → z ≠ b → x.root ≠ some z → y.root ≠ some z → u.root ≠ some z →
      s₁.mem z = s.mem z) :
    Shows (s₁.changeChild b (some n) ctx.parent) ctx
      (ColorTree.branch d c (ColorTree.branch d ca' (u.recolor cu) a (x.recolor cx)) n
        (ColorTree.branch d cb' (y.recolor cy) b v)) := by
  have hnodup : ((x.order ++ n :: y.order) ++ Context.keys (⟨d.flip, ca, a, u⟩ :: ⟨d, cb, b, v⟩ :: ctx)).Nodup := by
    refine (List.Perm.nodup_iff ?_).mp h.nodup
    exact (ColorTree.perm_order_branch d cn x n y).append_right _
  simp only [Context.keys_cons, Frame.keys, List.nodup_append, List.nodup_cons,
    List.mem_append, List.mem_cons] at hnodup
  have hplaces := h
  obtain ⟨⟨-, huu, -, hvv, -⟩, htree, -⟩ := hplaces
  obtain ⟨-, hxx, hyy⟩ := holds_branch.mp htree
  have hmemX : ∀ z, x.root = some z → z ∈ x.order := fun _ => ColorTree.mem_order_of_root
  have hmemY : ∀ z, y.root = some z → z ∈ y.order := fun _ => ColorTree.mem_order_of_root
  have hmemU : ∀ z, u.root = some z → z ∈ u.order := fun _ => ColorTree.mem_order_of_root
  have hbuild := (shows_fill.mp (shows_fill.mp h)).rebuild b (by simp [Frame.fill]) hroot
    (u := ColorTree.branch d c (ColorTree.branch d ca' (u.recolor cu) a (x.recolor cx)) n
        (ColorTree.branch d cb' (y.recolor cy) b v))
    (fun z hz => hrest z ?_ ?_ ?_ ?_ ?_ ?_) ?_ ?_
  · simpa using hbuild
  all_goals try grind
  · cases d <;> simp [Frame.fill, Side.flip]
  · refine holds_branch.mpr ⟨by simpa using hn, holds_branch.mpr ⟨by simpa using ha, huu.move ?_ hu ?_,
      hxx.move ?_ hx ?_⟩, holds_branch.mpr ⟨by simpa using hb, hyy.move ?_ hy ?_, hvv.congr ?_⟩⟩
    all_goals grind

/-- `__rb_rotate_set_parents` where the old node is already linked as in its new place but for its parent
and its colour. -/
theorem rotateSetParents_eq {old new : N} {q r : Option N} {c₀ c₁ c : Color} {x y z w : Option N} {e : Side}
    (hne : new ≠ old) (hold : s.mem old = RbNode.linked d q c₀ x y)
    (hnew : s.mem new = RbNode.linked e r c₁ z w) :
    ∃ s₁ : Links N, s.rotateSetParents old new c = s₁.changeChild old (some new) q ∧ s₁.root = s.root ∧
      s₁.mem new = RbNode.linked e q c₀ z w ∧ s₁.mem old = RbNode.linked d (some new) c x y ∧
      ∀ a, a ≠ new → a ≠ old → s₁.mem a = s.mem a := by
  refine ⟨(s.setParentColor new q c₀).setParentColor old (some new) c, ?_, rfl, ?_, ?_, ?_⟩
  · rw [Links.rotateSetParents, hold, parent_linked, color_linked]
  · rw [Links.mem_setParentColor, if_neg hne, Links.mem_setParentColor, if_pos rfl, hnew, moved_linked]
  · rw [Links.mem_setParentColor, if_pos rfl, Links.mem_setParentColor, if_neg hne.symm, hold, moved_linked]
  · intro a ha hb
    rw [Links.mem_setParentColor, if_neg hb, Links.mem_setParentColor, if_neg ha]

end Rotations

end Flos.Rbtree
