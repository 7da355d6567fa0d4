import Flos.Lib.SearchTree
import Mathlib.Algebra.Group.Nat.Defs
import Mathlib.Data.Nat.Log

/-!
# Red-black trees with a hole

A tree is entered through a context: the frames on the way from a place in it up to the root. Mirrored
cases are one case with a side. Insertion leaves a red node below a context that wants a black one, and
erasure leaves a subtree that lacks one black node; each is repaired upwards, and the repair keeps the order.
-/

namespace Flos.Lib

/-- The colour of a node. -/
inductive Color
  | red
  | black
  deriving DecidableEq

/-- One of the two sides of a node. -/
inductive Side
  | left
  | right
  deriving DecidableEq

/-- The other side. -/
def Side.flip : Side → Side
  | .left => .right
  | .right => .left

/-- The other side of the other side. -/
@[simp] theorem Side.flip_flip (d : Side) : d.flip.flip = d := by cases d <;> rfl

/-- A side is not the other one. -/
@[simp] theorem Side.flip_ne (d : Side) : d.flip ≠ d := by cases d <;> decide

/-- A side is not the other one. -/
@[simp] theorem Side.ne_flip (d : Side) : d ≠ d.flip := by cases d <;> decide

/-- A side is one of two. -/
theorem Side.eq_or_flip (d e : Side) : e = d ∨ e = d.flip := by cases d <;> cases e <;> decide

/-- A binary tree with coloured nodes. -/
inductive ColorTree (α : Type*)
  | nil
  | node (c : Color) (l : ColorTree α) (a : α) (r : ColorTree α)

namespace ColorTree

variable {α : Type*}

/-- The colour of the root; an empty tree counts as black. -/
def color : ColorTree α → Color
  | nil => .black
  | node c _ _ _ => c

/-- The value at the root. -/
def root : ColorTree α → Option α
  | nil => none
  | node _ _ a _ => some a

/-- The subtree on one side. -/
def child : Side → ColorTree α → ColorTree α
  | _, nil => nil
  | .left, node _ l _ _ => l
  | .right, node _ _ _ r => r

/-- The tree with the root in another colour. -/
def recolor (c : Color) : ColorTree α → ColorTree α
  | nil => nil
  | node _ l a r => node c l a r

/-- The node with the first subtree on the side. -/
def branch : Side → Color → ColorTree α → α → ColorTree α → ColorTree α
  | .left, c, t, a, u => node c t a u
  | .right, c, t, a, u => node c u a t

/-- The values in order. -/
def order : ColorTree α → List α
  | nil => []
  | node _ l a r => l.order ++ a :: r.order

/-- The values in order, beginning on one side. -/
def orderFrom : Side → ColorTree α → List α
  | .left, t => t.order
  | .right, t => t.order.reverse

/-- The values with every node behind its subtrees. -/
def postorder : ColorTree α → List α
  | nil => []
  | node _ l a r => l.postorder ++ (r.postorder ++ [a])

/-- The number of nodes on the longest way down. -/
def depth : ColorTree α → ℕ
  | nil => 0
  | node _ l _ r => max l.depth r.depth + 1

/-- The tree without its colours. -/
def shape : ColorTree α → BinaryTree α
  | nil => .nil
  | node _ l a r => .node a l.shape r.shape

/-- No red node has a red child, and all ways down meet `n` black nodes; the root has the given colour. -/
inductive Balanced : ColorTree α → Color → ℕ → Prop
  | nil : Balanced nil .black 0
  | red {l r : ColorTree α} {a : α} {n : ℕ} (hl : Balanced l .black n) (hr : Balanced r .black n) :
    Balanced (node .red l a r) .red n
  | black {l r : ColorTree α} {a : α} {c c' : Color} {n : ℕ} (hl : Balanced l c n)
    (hr : Balanced r c' n) : Balanced (node .black l a r) .black (n + 1)

/-- A node with its first subtree on the left. -/
@[simp] theorem order_branch_left (c : Color) (t : ColorTree α) (a : α) (u : ColorTree α) :
    (branch .left c t a u).order = t.order ++ a :: u.order := rfl

/-- A node with its first subtree on the right. -/
@[simp] theorem order_branch_right (c : Color) (t : ColorTree α) (a : α) (u : ColorTree α) :
    (branch .right c t a u).order = u.order ++ a :: t.order := rfl

/-- The value of a node, whichever side comes first. -/
@[simp] theorem root_branch (d : Side) (c : Color) (t : ColorTree α) (a : α) (u : ColorTree α) :
    (branch d c t a u).root = some a := by cases d <;> rfl

/-- The colour of a node. -/
@[simp] theorem color_branch (d : Side) (c : Color) (t : ColorTree α) (a : α) (u : ColorTree α) :
    (branch d c t a u).color = c := by cases d <;> rfl

/-- The subtree on the given side. -/
@[simp] theorem child_branch (d : Side) (c : Color) (t : ColorTree α) (a : α) (u : ColorTree α) :
    (branch d c t a u).child d = t := by cases d <;> rfl

/-- The subtree on the other side. -/
@[simp] theorem child_flip_branch (d : Side) (c : Color) (t : ColorTree α) (a : α) (u : ColorTree α) :
    (branch d c t a u).child d.flip = u := by cases d <;> rfl

/-- The values of a node, seen from a side. -/
theorem perm_order_branch (d : Side) (c : Color) (t : ColorTree α) (a : α) (u : ColorTree α) :
    (branch d c t a u).order.Perm (t.order ++ a :: u.order) := by
  cases d
  · exact List.Perm.refl _
  · exact List.perm_middle.trans ((List.perm_append_comm.cons a).trans List.perm_middle.symm)

/-- The values of a node, beginning on a side. -/
theorem orderFrom_branch (d : Side) (c : Color) (t : ColorTree α) (a : α) (u : ColorTree α) :
    (branch d c t a u).orderFrom d = t.orderFrom d ++ a :: u.orderFrom d := by
  cases d <;> simp [branch, orderFrom, order]

/-- The same node, seen from the other side. -/
theorem branch_flip (d : Side) (c : Color) (t : ColorTree α) (a : α) (u : ColorTree α) :
    branch d.flip c t a u = branch d c u a t := by cases d <;> rfl

/-- The values of a node are its own and those of its subtrees. -/
theorem mem_order_branch {d : Side} {c : Color} {t u : ColorTree α} {a b : α} :
    b ∈ (branch d c t a u).order ↔ b ∈ t.order ∨ b = a ∨ b ∈ u.order := by
  rw [(perm_order_branch d c t a u).mem_iff, List.mem_append, List.mem_cons]

/-- A node, seen from a side. -/
theorem node_eq_branch (d : Side) (c : Color) (l : ColorTree α) (a : α) (r : ColorTree α) :
    node c l a r = branch d c ((node c l a r).child d) a ((node c l a r).child d.flip) := by
  cases d <;> rfl

/-- A tree is empty or a node, seen from any side. -/
theorem eq_nil_or_branch (d : Side) (t : ColorTree α) : t = nil ∨ ∃ c u a v, t = branch d c u a v := by
  cases t with
  | nil => exact .inl rfl
  | node c l a r => exact .inr ⟨c, _, a, _, node_eq_branch d c l a r⟩

/-- A colour does not change the value at the root. -/
@[simp] theorem root_recolor (c : Color) (t : ColorTree α) : (t.recolor c).root = t.root := by
  cases t <;> rfl

/-- A colour does not change the order. -/
@[simp] theorem order_recolor (c : Color) (t : ColorTree α) : (t.recolor c).order = t.order := by
  cases t <;> rfl

/-- A tree that already has the colour. -/
theorem recolor_of_color {t : ColorTree α} {c : Color} (h : t.color = c) : t.recolor c = t := by
  cases t
  · rfl
  · exact h ▸ rfl

/-- The order does not depend on the colours. -/
theorem inorder_shape (t : ColorTree α) : inorder t.shape = t.order := by
  induction t with
  | nil => rfl
  | node c l a r ihl ihr => rw [shape, inorder, ihl, ihr, order]

/-- A tree without a root is empty. -/
theorem eq_nil_of_root {t : ColorTree α} (h : t.root = none) : t = nil := by
  cases t with
  | nil => rfl
  | node => cases h

/-- The root comes in the order. -/
theorem mem_order_of_root {t : ColorTree α} {a : α} (h : t.root = some a) : a ∈ t.order := by
  cases t with
  | nil => cases h
  | node c l b r =>
    cases h
    exact List.mem_append_right _ List.mem_cons_self

/-- A tree with a root has a first value. -/
theorem orderFrom_ne_nil {t : ColorTree α} {a : α} (h : t.root = some a) (d : Side) : t.orderFrom d ≠ [] := by
  have horder : t.order ≠ [] := List.ne_nil_of_mem (mem_order_of_root h)
  cases d
  · exact horder
  · exact fun hnil => horder (List.reverse_eq_nil_iff.mp hnil)

/-- The postorder visits the same values. -/
theorem perm_postorder (t : ColorTree α) : t.postorder.Perm t.order := by
  induction t with
  | nil => exact List.Perm.refl _
  | node c l b r ihl ihr =>
    rw [postorder, order]
    exact ihl.append ((List.perm_append_singleton b r.postorder).trans (ihr.cons b))

/-! ## Balance -/

/-- A balanced tree has the colour that it is balanced for. -/
theorem Balanced.color {t : ColorTree α} {c : Color} {n : ℕ} (h : t.Balanced c n) : t.color = c := by
  cases h <;> rfl

/-- A red node has black subtrees. -/
theorem balanced_branch_red {d : Side} {t u : ColorTree α} {a : α} {c : Color} {n : ℕ} :
    (branch d .red t a u).Balanced c n ↔ c = .red ∧ t.Balanced .black n ∧ u.Balanced .black n := by
  constructor
  · intro h
    cases d <;> cases h
    case mp.left.red hl hr => exact ⟨rfl, hl, hr⟩
    case mp.right.red hl hr => exact ⟨rfl, hr, hl⟩
  · rintro ⟨rfl, ht, hu⟩
    cases d
    · exact .red ht hu
    · exact .red hu ht

/-- A black node counts itself. -/
theorem balanced_branch_black {d : Side} {t u : ColorTree α} {a : α} {c : Color} {n : ℕ} :
    (branch d .black t a u).Balanced c n ↔
      c = .black ∧ ∃ m, n = m + 1 ∧ t.Balanced t.color m ∧ u.Balanced u.color m := by
  constructor
  · intro h
    cases d <;> cases h
    case mp.left.black hl hr => exact ⟨rfl, _, rfl, hl.color ▸ hl, hr.color ▸ hr⟩
    case mp.right.black hl hr => exact ⟨rfl, _, rfl, hr.color ▸ hr, hl.color ▸ hl⟩
  · rintro ⟨rfl, m, rfl, ht, hu⟩
    cases d
    · exact .black ht hu
    · exact .black hu ht

/-- A red tree turned black counts one node more. -/
theorem Balanced.blacken {t : ColorTree α} {n : ℕ} (h : t.Balanced .red n) :
    (t.recolor .black).Balanced .black (n + 1) := by
  cases h with
  | red hl hr => exact .black hl hr

/-- The longest way down is at most twice as long as the black nodes on it, one more below a red root. -/
theorem Balanced.depth_le {t : ColorTree α} {c : Color} {n : ℕ} (h : t.Balanced c n) :
    t.depth ≤ 2 * n + if c = .red then 1 else 0 := by
  induction h with
  | nil => exact le_rfl
  | red hl hr ihl ihr =>
    simp only [if_neg (show Color.black ≠ .red by decide), Nat.add_zero] at ihl ihr
    simp only [depth, if_true]
    omega
  | @black l r a c c' n hl hr ihl ihr =>
    have hone : ∀ c : Color, (if c = .red then 1 else 0) ≤ 1 := by
      intro c
      split <;> omega
    have h1 := hone c
    have h2 := hone c'
    simp only [depth, if_neg (show Color.black ≠ .red by decide)]
    omega

/-- Black nodes make a tree large. -/
theorem Balanced.pow_le {t : ColorTree α} {c : Color} {n : ℕ} (h : t.Balanced c n) :
    2 ^ n ≤ t.order.length + 1 := by
  induction h with
  | nil => exact le_rfl
  | red hl hr ihl ihr =>
    simp only [order, List.length_append, List.length_cons]
    omega
  | black hl hr ihl ihr =>
    simp only [order, List.length_append, List.length_cons, Nat.pow_succ]
    omega

/-- The way down in a tree with a black root is logarithmic. -/
theorem Balanced.depth_le_log {t : ColorTree α} {n : ℕ} (h : t.Balanced .black n) :
    t.depth ≤ 2 * Nat.log 2 (t.order.length + 1) := by
  have hdepth := h.depth_le
  have hlog := Nat.le_log_of_pow_le (by decide) h.pow_le
  simp only [if_neg (show Color.black ≠ .red by decide)] at hdepth
  omega

/-! ## Contexts -/

end ColorTree

open ColorTree

/-- A step on the way to a place in a tree: the node, the side the way takes, and what hangs on the other
side. -/
structure Frame (α : Type*) where
  side : Side
  color : Color
  key : α
  sibling : ColorTree α

namespace Frame

variable {α : Type*}

/-- The node of the frame with a tree on its open side. -/
def fill (f : Frame α) (t : ColorTree α) : ColorTree α := branch f.side f.color t f.key f.sibling

/-- The values of the frame that come before those of the open side. -/
def before (f : Frame α) : List α :=
  match f.side with
  | .left => []
  | .right => f.sibling.order ++ [f.key]

/-- The values of the frame that come behind those of the open side. -/
def after (f : Frame α) : List α :=
  match f.side with
  | .left => f.key :: f.sibling.order
  | .right => []

/-- A subtree in a frame lies between the values before and behind it. -/
theorem order_fill (f : Frame α) (t : ColorTree α) : (f.fill t).order = f.before ++ t.order ++ f.after := by
  obtain ⟨d, c, a, u⟩ := f
  cases d <;> simp [fill, before, after]

/-- The values of the frame. -/
def keys (f : Frame α) : List α := f.key :: f.sibling.order

end Frame

/-- The frames from a place in a tree up to the root. -/
abbrev Context (α : Type*) := List (Frame α)

namespace Context

variable {α : Type*}

/-- The tree with something put into the hole. -/
def plug : Context α → ColorTree α → ColorTree α
  | [], t => t
  | f :: ctx, t => plug ctx (f.fill t)

/-- The node above the hole. -/
def parent : Context α → Option α
  | [] => none
  | f :: _ => some f.key

/-- The values before those in the hole. -/
def before : Context α → List α
  | [] => []
  | f :: ctx => before ctx ++ f.before

/-- The values behind those in the hole. -/
def after : Context α → List α
  | [] => []
  | f :: ctx => f.after ++ after ctx

/-- The values behind those in the hole on the way towards a side. -/
def beyond : Side → Context α → List α
  | .left, ctx => ctx.before.reverse
  | .right, ctx => ctx.after

/-- The values behind those in the hole, with every node behind its subtrees. -/
def later : Context α → List α
  | [] => []
  | f :: ctx => (if f.side = .left then f.sibling.postorder else []) ++ f.key :: later ctx

/-- The values outside of the hole. -/
def keys (ctx : Context α) : List α := ctx.flatMap Frame.keys

/-- An empty context is the tree itself. -/
@[simp] theorem plug_nil (t : ColorTree α) : plug [] t = t := rfl

/-- The innermost frame is filled first. -/
@[simp] theorem plug_cons (f : Frame α) (ctx : Context α) (t : ColorTree α) :
    plug (f :: ctx) t = plug ctx (f.fill t) := rfl

/-- The parent is the value of the innermost frame. -/
@[simp] theorem parent_cons (f : Frame α) (ctx : Context α) : parent (f :: ctx) = some f.key := rfl

/-- The way towards a side passes the node above, unless the hole is on that side of it. -/
theorem beyond_cons (d : Side) (f : Frame α) (ctx : Context α) :
    beyond d (f :: ctx) =
      if f.side = d then beyond d ctx else f.key :: (f.sibling.orderFrom d.flip ++ beyond d ctx) := by
  obtain ⟨e, c, a, u⟩ := f
  cases d <;> cases e <;> simp [beyond, before, after, Frame.before, Frame.after, orderFrom, Side.flip]

/-- The values of a frame come before those above it. -/
theorem keys_cons (f : Frame α) (ctx : Context α) : keys (f :: ctx) = f.keys ++ ctx.keys := rfl

/-- The values of a context in two parts. -/
theorem keys_append (ctx ctx' : Context α) : keys (ctx ++ ctx') = ctx.keys ++ ctx'.keys :=
  List.flatMap_append

/-- A context in two parts is plugged from the inside. -/
theorem plug_append (ctx ctx' : Context α) (t : ColorTree α) :
    plug (ctx ++ ctx') t = plug ctx' (plug ctx t) := by
  induction ctx generalizing t with
  | nil => rfl
  | cons f ctx ih => exact ih (f.fill t)

/-- A subtree in a context lies between the values before and behind it. -/
theorem order_plug (ctx : Context α) (t : ColorTree α) :
    (plug ctx t).order = ctx.before ++ t.order ++ ctx.after := by
  induction ctx generalizing t with
  | nil => simp [before, after]
  | cons f ctx ih => simp [plug_cons, ih, Frame.order_fill, before, after]

/-- Trees with the same order are the same to the order of the whole. -/
theorem order_plug_congr (ctx : Context α) {t u : ColorTree α} (h : t.order = u.order) :
    (plug ctx t).order = (plug ctx u).order := by
  rw [order_plug, order_plug, h]

/-- The values of the whole are those in the hole and those around it. -/
theorem perm_order_plug (ctx : Context α) (t : ColorTree α) :
    (plug ctx t).order.Perm (t.order ++ ctx.keys) := by
  induction ctx generalizing t with
  | nil => simp [keys]
  | cons f ctx ih =>
    refine (ih (f.fill t)).trans ?_
    rw [keys_cons, ← List.append_assoc]
    refine List.Perm.append_right _ ?_
    obtain ⟨d, c, a, u⟩ := f
    cases d
    · exact List.Perm.refl _
    · have hswap : (a :: t.order ++ u.order).Perm (t.order ++ a :: u.order) := List.perm_middle.symm
      exact List.perm_append_comm.trans hswap

/-- Every place of a value in the order is a place in the tree. -/
theorem exists_plug {t : ColorTree α} {a : α} (h : a ∈ t.order) :
    ∃ ctx c l r, t = plug ctx (node c l a r) := by
  induction t with
  | nil => cases h
  | node c l b r ihl ihr =>
    rcases List.mem_append.mp h with hl | hr
    · obtain ⟨ctx, c', l', r', rfl⟩ := ihl hl
      exact ⟨ctx ++ [⟨.left, c, b, r⟩], c', l', r', by rw [plug_append]; rfl⟩
    rcases List.mem_cons.mp hr with rfl | hr
    · exact ⟨[], c, l, r, rfl⟩
    · obtain ⟨ctx, c', l', r', rfl⟩ := ihr hr
      exact ⟨ctx ++ [⟨.right, c, b, l⟩], c', l', r', by rw [plug_append]; rfl⟩

/-- The way to the hole is part of a way down. -/
theorem length_add_depth_le (ctx : Context α) (t : ColorTree α) :
    ctx.length + t.depth ≤ (plug ctx t).depth := by
  induction ctx generalizing t with
  | nil => simp
  | cons f ctx ih =>
    have hfill : t.depth + 1 ≤ (f.fill t).depth := by
      obtain ⟨d, c, a, u⟩ := f
      cases d <;> simp [Frame.fill, branch, depth]
    have := ih (f.fill t)
    simp only [List.length_cons, plug_cons]
    omega

/-- A deeper subtree makes the tree deeper by no more. -/
theorem depth_plug_le_add {t u : ColorTree α} {k : ℕ} (ctx : Context α) (h : u.depth ≤ t.depth + k) :
    (plug ctx u).depth ≤ (plug ctx t).depth + k := by
  induction ctx generalizing t u with
  | nil => exact h
  | cons f ctx ih =>
    refine ih ?_
    obtain ⟨d, c, a, v⟩ := f
    cases d <;> simp only [Frame.fill, branch, depth] <;> omega

/-- A context in a balanced tree with a black root, for a subtree with a root of the given colour and `n`
black nodes on every way down. -/
inductive Accepts : Context α → Color → ℕ → Prop
  | root (n : ℕ) : Accepts [] .black n
  | red {f : Frame α} {ctx : Context α} {n : ℕ} (hcolor : f.color = .red)
    (hsibling : f.sibling.Balanced .black n) (hctx : Accepts ctx .red n) : Accepts (f :: ctx) .black n
  | black {f : Frame α} {ctx : Context α} {c : Color} {n : ℕ} (hcolor : f.color = .black)
    (hsibling : f.sibling.Balanced f.sibling.color n) (hctx : Accepts ctx .black (n + 1)) :
    Accepts (f :: ctx) c n

/-- A tree of the right kind completes the context to a balanced tree. -/
theorem Accepts.plug {ctx : Context α} {t : ColorTree α} {c : Color} {n : ℕ} (h : Accepts ctx c n)
    (ht : t.Balanced c n) : ∃ m, (plug ctx t).Balanced .black m := by
  induction h generalizing t with
  | root n => exact ⟨n, ht⟩
  | red hcolor hsibling _ ih =>
    refine ih ?_
    rw [Frame.fill, hcolor]
    exact balanced_branch_red.mpr ⟨rfl, ht, hsibling⟩
  | black hcolor hsibling _ ih =>
    refine ih ?_
    rw [Frame.fill, hcolor]
    exact balanced_branch_black.mpr ⟨rfl, _, rfl, ht.color.symm ▸ ht, hsibling⟩

/-- Every place in a balanced tree has a context of the right kind. -/
theorem accepts_of_plug {ctx : Context α} {t : ColorTree α} {m : ℕ} (h : (Context.plug ctx t).Balanced .black m) :
    ∃ n, Accepts ctx t.color n ∧ t.Balanced t.color n := by
  induction ctx generalizing t with
  | nil => exact ⟨m, h.color ▸ .root m, h.color ▸ h⟩
  | cons f ctx ih =>
    obtain ⟨n, hctx, hfill⟩ := ih (t := f.fill t) h
    have hcolor : (f.fill t).color = f.color := color_branch _ _ _ _ _
    rw [hcolor] at hctx hfill
    cases hf : f.color with
    | red =>
      rw [Frame.fill, hf] at hfill
      obtain ⟨-, ht, hsibling⟩ := balanced_branch_red.mp hfill
      exact ⟨n, ht.color ▸ .red hf hsibling (hf ▸ hctx), ht.color.symm ▸ ht⟩
    | black =>
      rw [Frame.fill, hf] at hfill
      obtain ⟨-, k, rfl, ht, hsibling⟩ := balanced_branch_black.mp hfill
      exact ⟨k, .black hf hsibling (hf ▸ hctx), ht⟩

end Context

namespace Context

variable {α : Type*}

/-! ## Repair after an insertion -/

/-- A red tree below a red node `p` and a black node `g` whose other child is black: the rotations. -/
def insertRotate (p g : Frame α) (t : ColorTree α) : ColorTree α :=
  if p.side = g.side then
    branch g.side .black t p.key (branch g.side .red p.sibling g.key g.sibling)
  else
    match t with
    | .nil => g.fill (p.fill .nil)
    | .node c l a r =>
      branch g.side .black (branch g.side .red p.sibling p.key ((node c l a r).child g.side)) a
        (branch g.side .red ((node c l a r).child g.side.flip) g.key g.sibling)

/-- A new node on the side of its parent is lifted with the parent. -/
theorem insertRotate_same (d : Side) (c c' : Color) (a b : α) (t u v : ColorTree α) :
    insertRotate ⟨d, c, a, u⟩ ⟨d, c', b, v⟩ t = branch d .black t a (branch d .red u b v) := by
  simp [insertRotate]

/-- A new node on the other side becomes the root. -/
theorem insertRotate_flip (d : Side) (c c' c'' : Color) (a b n : α) (u v x y : ColorTree α) :
    insertRotate ⟨d.flip, c, a, u⟩ ⟨d, c', b, v⟩ (branch d c'' x n y) =
      branch d .black (branch d .red u a x) n (branch d .red y b v) := by
  cases d <;> rfl

/-- The colours of a red tree below a red node `p` whose sibling is red as well are flipped. -/
def insertFlip (p g : Frame α) (t : ColorTree α) : ColorTree α :=
  branch g.side .red (branch p.side .black t p.key p.sibling) g.key (g.sibling.recolor .black)

/-- The whole tree after the repair of a red tree in the hole. -/
def insertFix : Context α → ColorTree α → ColorTree α
  | [], t => t.recolor .black
  | p :: ctx, t =>
    match p.color, ctx with
    | .black, ctx => plug (p :: ctx) t
    | .red, [] => plug [p] t
    | .red, g :: ctx =>
      if g.sibling.color = .red then insertFix ctx (insertFlip p g t) else plug ctx (insertRotate p g t)

/-- The rotations of an insertion keep the order. -/
@[simp] theorem order_insertRotate (p g : Frame α) (t : ColorTree α) :
    (insertRotate p g t).order = (g.fill (p.fill t)).order := by
  obtain ⟨d, c, a, u⟩ := p
  obtain ⟨e, c', b, v⟩ := g
  cases d <;> cases e <;> cases t <;>
    simp [insertRotate, Frame.fill, ColorTree.branch, ColorTree.order, ColorTree.child, Side.flip]

/-- Flipping colours keeps the order. -/
@[simp] theorem order_insertFlip (p g : Frame α) (t : ColorTree α) :
    (insertFlip p g t).order = (g.fill (p.fill t)).order := by
  obtain ⟨d, c, a, u⟩ := p
  obtain ⟨e, c', b, v⟩ := g
  cases d <;> cases e <;> simp [insertFlip, Frame.fill]

/-- The repair keeps the order. -/
theorem order_insertFix (ctx : Context α) (t : ColorTree α) :
    (insertFix ctx t).order = (plug ctx t).order := by
  fun_induction insertFix ctx t with
  | case1 t => exact order_recolor _ t
  | case2 => rfl
  | case3 => rfl
  | case4 p t g ctx _ _ ih =>
    rw [ih]
    exact order_plug_congr ctx (order_insertFlip p g t)
  | case5 p t g ctx _ _ => exact order_plug_congr ctx (order_insertRotate p g t)

/-- The rotations leave no two red nodes in a row. -/
theorem balanced_insertRotate {p g : Frame α} {t : ColorTree α} {n : ℕ} (ht : t.Balanced .red n)
    (hp : p.sibling.Balanced .black n) (hg : g.sibling.Balanced .black n) :
    (insertRotate p g t).Balanced .black (n + 1) := by
  simp only [insertRotate]
  split
  · refine balanced_branch_black.mpr ⟨rfl, n, rfl, ht.color.symm ▸ ht, ?_⟩
    rw [color_branch]
    exact balanced_branch_red.mpr ⟨rfl, hp, hg⟩
  · cases t with
    | nil => cases ht
    | node c l a r =>
      rw [node_eq_branch g.side] at ht
      cases ht.color.symm.trans (color_branch _ _ _ _ _)
      obtain ⟨-, hnear, hfar⟩ := balanced_branch_red.mp ht
      refine balanced_branch_black.mpr ⟨rfl, n, rfl, ?_, ?_⟩
      · rw [color_branch]
        exact balanced_branch_red.mpr ⟨rfl, hp, hnear⟩
      · rw [color_branch]
        exact balanced_branch_red.mpr ⟨rfl, hfar, hg⟩

/-- The flip moves the red node up. -/
theorem balanced_insertFlip {p g : Frame α} {t : ColorTree α} {n : ℕ} (ht : t.Balanced .red n)
    (hp : p.sibling.Balanced .black n) (hg : g.sibling.Balanced .red n) :
    (insertFlip p g t).Balanced .red (n + 1) := by
  refine balanced_branch_red.mpr ⟨rfl, balanced_branch_black.mpr ⟨rfl, n, rfl, ?_, ?_⟩, hg.blacken⟩
  · exact ht.color.symm ▸ ht
  · exact hp.color.symm ▸ hp

/-- A red tree in a hole that wants a black one is repaired. -/
theorem balanced_insertFix {ctx : Context α} {t : ColorTree α} {n : ℕ} (hctx : Accepts ctx .black n)
    (ht : t.Balanced .red n) : ∃ m, (insertFix ctx t).Balanced .black m := by
  fun_induction insertFix ctx t generalizing n with
  | case1 t => exact ⟨n + 1, ht.blacken⟩
  | case2 p t ctx hp =>
    cases hctx with
    | red hcolor => rw [hp] at hcolor; cases hcolor
    | black hcolor hsibling hctx => exact (Accepts.black hcolor hsibling hctx).plug ht
  | case3 p t hp =>
    cases hctx with
    | red _ _ hctx => cases hctx
    | black hcolor => rw [hp] at hcolor; cases hcolor
  | case4 p t g ctx hp hred ih =>
    cases hctx with
    | black hcolor => rw [hp] at hcolor; cases hcolor
    | red _ hsibling hctx =>
      cases hctx with
      | black hg huncle hctx => exact ih hctx (balanced_insertFlip ht hsibling (hred ▸ huncle))
  | case5 p t g ctx hp hred =>
    cases hctx with
    | black hcolor => rw [hp] at hcolor; cases hcolor
    | red _ hsibling hctx =>
      cases hctx with
      | black hg huncle hctx =>
        have hblack : g.sibling.color = .black := by
          cases hc : g.sibling.color with
          | red => exact absurd hc hred
          | black => rfl
        exact hctx.plug (balanced_insertRotate ht hsibling (hblack ▸ huncle))

/-! ## Repair after an erasure -/

/-- A subtree that lacks a black node, below a node whose other child is black: the sibling turns red, or
the rotations. -/
def eraseRotate (f : Frame α) (t : ColorTree α) : ColorTree α :=
  match f.sibling with
  | .nil => f.fill t
  | .node c l s r =>
    let near := (node c l s r).child f.side
    let far := (node c l s r).child f.side.flip
    if far.color = .red then
      branch f.side f.color (branch f.side .black t f.key near) s (far.recolor .black)
    else
      match near with
      | .node .red l' a r' =>
        branch f.side f.color (branch f.side .black t f.key ((node .red l' a r').child f.side)) a
          (branch f.side .black ((node .red l' a r').child f.side.flip) s far)
      | near => branch f.side .black t f.key (branch f.side .red near s far)

/-- The sibling of a subtree that lacks a black node is red: a rotation makes the parent red, and the
repair ends below it. -/
def eraseLift (f : Frame α) (t : ColorTree α) : ColorTree α :=
  match f.sibling with
  | .nil => f.fill t
  | .node c l s r =>
    branch f.side f.color
      (eraseRotate ⟨f.side, .red, f.key, (node c l s r).child f.side⟩ t) s
      ((node c l s r).child f.side.flip)

/-- The node and both children of its other child are black. -/
def AllBlack (f : Frame α) : Prop :=
  f.color = .black ∧ (f.sibling.child f.side).color = .black ∧ (f.sibling.child f.side.flip).color = .black

instance (f : Frame α) : Decidable (AllBlack f) := inferInstanceAs (Decidable (_ ∧ _))

/-- The whole tree after the repair of a tree in the hole that lacks a black node. -/
def eraseFix : Context α → ColorTree α → ColorTree α
  | [], t => t
  | f :: ctx, t =>
    if f.sibling.color = .red then plug ctx (eraseLift f t)
    else if AllBlack f then eraseFix ctx (eraseRotate f t)
    else plug ctx (eraseRotate f t)

section Equations

variable {d : Side} {c cs : Color} {a b n : α} {t near far x y : ColorTree α}

/-- A red far nephew: one rotation. -/
theorem eraseRotate_far (hfar : far.color = .red) :
    eraseRotate ⟨d, c, a, branch d cs near b far⟩ t =
      branch d c (branch d .black t a near) b (far.recolor .black) := by
  cases d <;> exact if_pos hfar

/-- A red near nephew: two rotations. -/
theorem eraseRotate_near (hfar : far.color ≠ .red) :
    eraseRotate ⟨d, c, a, branch d cs (branch d .red x n y) b far⟩ t =
      branch d c (branch d .black t a x) n (branch d .black y b far) := by
  cases d <;> exact if_neg hfar

/-- No red nephew: the sibling becomes red. -/
theorem eraseRotate_flip (hfar : far.color ≠ .red) (hnear : near.color ≠ .red) :
    eraseRotate ⟨d, c, a, branch d cs near b far⟩ t =
      branch d .black t a (branch d .red near b far) := by
  rcases near with _ | ⟨_ | _, l, e, r⟩
  case node.red => exact absurd rfl hnear
  all_goals cases d <;> exact if_neg hfar

/-- A red sibling is lifted, and its near child is the new sibling. -/
theorem eraseLift_branch :
    eraseLift ⟨d, c, a, branch d cs near b far⟩ t =
      branch d c (eraseRotate ⟨d, .red, a, near⟩ t) b far := by
  cases d <;> rfl

end Equations

/-- The rotations of a removal keep the order. -/
@[simp] theorem order_eraseRotate (f : Frame α) (t : ColorTree α) :
    (eraseRotate f t).order = (f.fill t).order := by
  obtain ⟨d, c, a, u⟩ := f
  cases u with
  | nil => rfl
  | node c' l s r =>
    simp only [eraseRotate]
    split
    · cases d <;> simp [Frame.fill, ColorTree.child, ColorTree.branch, ColorTree.order, Side.flip]
    · split
      next heq =>
        have horder := congrArg ColorTree.order heq
        cases d
        · simp only [ColorTree.child] at horder
          simp [Frame.fill, ColorTree.child, ColorTree.branch, ColorTree.order, Side.flip, horder]
        · simp only [ColorTree.child] at horder
          simp [Frame.fill, ColorTree.child, ColorTree.branch, ColorTree.order, Side.flip, horder]
      next => cases d <;> simp [Frame.fill, ColorTree.child, ColorTree.branch, ColorTree.order, Side.flip]

/-- Lifting a red sibling keeps the order. -/
@[simp] theorem order_eraseLift (f : Frame α) (t : ColorTree α) :
    (eraseLift f t).order = (f.fill t).order := by
  obtain ⟨d, c, a, u⟩ := f
  cases u with
  | nil => rfl
  | node c' l s r =>
    cases d <;> simp [eraseLift, Frame.fill, ColorTree.child, ColorTree.branch, ColorTree.order, Side.flip]

/-- The repair keeps the order. -/
theorem order_eraseFix (ctx : Context α) (t : ColorTree α) :
    (eraseFix ctx t).order = (plug ctx t).order := by
  induction ctx generalizing t with
  | nil => rfl
  | cons f ctx ih =>
    rw [eraseFix, plug_cons]
    split
    · exact order_plug_congr ctx (order_eraseLift f t)
    split
    · rw [ih]
      exact order_plug_congr ctx (order_eraseRotate f t)
    · exact order_plug_congr ctx (order_eraseRotate f t)

/-- A colour that is not red. -/
theorem color_eq_black {c : Color} (h : c ≠ .red) : c = .black := by
  cases c
  · exact absurd rfl h
  · rfl

/-- Any context for a red tree has room for a black one. -/
theorem Accepts.of_red {ctx : Context α} {n : ℕ} (h : Accepts ctx .red n) : Accepts ctx .black n := by
  cases h with
  | black hcolor hsibling hctx => exact .black hcolor hsibling hctx

/-- What a frame asks of its sibling, and what its node gives the context above. -/
theorem Accepts.cons {f : Frame α} {ctx : Context α} {n : ℕ} (h : Accepts (f :: ctx) .black n) :
    f.sibling.Balanced f.sibling.color n ∧
      ∀ t u : ColorTree α, ∀ a : α, t.Balanced .black n → u.Balanced .black n →
        ∃ c m, Accepts ctx c m ∧ (branch f.side f.color t a u).Balanced c m := by
  cases h with
  | red hcolor hsibling hctx =>
    refine ⟨hsibling.color.symm ▸ hsibling, fun t u a ht hu => ⟨.red, n, hctx, ?_⟩⟩
    rw [hcolor]
    exact balanced_branch_red.mpr ⟨rfl, ht, hu⟩
  | black hcolor hsibling hctx =>
    refine ⟨hsibling, fun t u a ht hu => ⟨.black, n + 1, hctx, ?_⟩⟩
    rw [hcolor]
    exact balanced_branch_black.mpr ⟨rfl, n, rfl, ht.color.symm ▸ ht, hu.color.symm ▸ hu⟩

variable {f : Frame α} {ctx : Context α} {t : ColorTree α} {n : ℕ}

/-- A black node over two trees that count the same. -/
theorem balanced_black {d : Side} {t u : ColorTree α} {a : α} (ht : t.Balanced t.color n)
    (hu : u.Balanced u.color n) : (branch d .black t a u).Balanced .black (n + 1) :=
  balanced_branch_black.mpr ⟨rfl, n, rfl, ht, hu⟩

/-- Below a black sibling the rotations give a tree that fits the context above, unless all nodes around
are black; then the tree above lacks a black node. -/
theorem fits_eraseRotate (ht : t.Balanced .black n) (hctx : Accepts (f :: ctx) .black (n + 1))
    (hsibling : f.sibling.color ≠ .red) :
    if AllBlack f then (eraseRotate f t).Balanced .black (n + 1) ∧ Accepts ctx .black (n + 2)
    else ∃ c m, Accepts ctx c m ∧ (eraseRotate f t).Balanced c m := by
  obtain ⟨hs, hfill⟩ := hctx.cons
  have ht' : t.Balanced t.color n := ht.color.symm ▸ ht
  rw [color_eq_black hsibling] at hs
  cases hu : f.sibling with
  | nil => rw [hu] at hs; cases hs
  | node c l s r =>
    rw [hu] at hs hsibling
    obtain rfl : c = .black := color_eq_black hsibling
    rw [node_eq_branch f.side] at hs
    obtain ⟨-, k, hk, hnear, hfar⟩ := balanced_branch_black.mp hs
    obtain rfl : n = k := by omega
    have hall : AllBlack f ↔ f.color = .black ∧ ((node .black l s r).child f.side).color = .black ∧
        ((node .black l s r).child f.side.flip).color = .black := by
      rw [AllBlack, hu]
    simp only [eraseRotate, hu]
    generalize (node .black l s r).child f.side = near at hnear hall ⊢
    generalize (node .black l s r).child f.side.flip = far at hfar hall ⊢
    by_cases hred : far.color = .red
    · -- the far nephew turns black
      rw [if_neg (by rw [hall, hred]; rintro ⟨-, -, h⟩; cases h), if_pos hred]
      exact hfill _ _ _ (balanced_black ht' hnear) (hred ▸ hfar).blacken
    · have hfar' := color_eq_black hred
      have hflip : ∀ u : ColorTree α, u.Balanced .black n →
          (branch f.side .black t f.key (branch f.side .red u s far)).Balanced .black (n + 1) := by
        intro u hu
        refine balanced_black ht' ?_
        rw [color_branch]
        exact balanced_branch_red.mpr ⟨rfl, hu, hfar' ▸ hfar⟩
      rw [if_neg hred]
      rcases near with _ | ⟨_ | _, l', a, r'⟩
      case neg.node.red =>
        -- the near nephew goes up
        rw [if_neg (by rw [hall]; rintro ⟨-, h, -⟩; cases h)]
        rw [node_eq_branch f.side, color_branch] at hnear
        obtain ⟨-, hx, hy⟩ := balanced_branch_red.mp hnear
        exact hfill _ _ _ (balanced_black ht' (hx.color.symm ▸ hx)) (balanced_black (hy.color.symm ▸ hy) hfar)
      all_goals
        -- the sibling turns red
        cases hctx with
        | red hcolor _ hctx =>
          rw [if_neg (by rw [hall, hcolor]; rintro ⟨h, -⟩; cases h)]
          exact ⟨.black, n + 1, hctx.of_red, hflip _ hnear⟩
        | black hcolor _ hctx =>
          rw [if_pos (hall.mpr ⟨hcolor, rfl, hfar'⟩)]
          exact ⟨hflip _ hnear, hctx⟩

/-- Where all nodes around are black, the node stays at the top. -/
theorem root_eraseRotate (hall : AllBlack f) : (eraseRotate f t).root = some f.key := by
  obtain ⟨d, c, a, u⟩ := f
  obtain rfl | ⟨cs, near, b, far, rfl⟩ := u.eq_nil_or_branch d
  · exact root_branch _ _ _ _ _
  · obtain ⟨-, hnear, hfar⟩ := hall
    rw [child_branch] at hnear
    rw [child_flip_branch] at hfar
    rw [eraseRotate_flip (by rw [hfar]; decide) (by rw [hnear]; decide), root_branch]

/-- A red sibling gives way to a black one below a red node, where the repair ends. -/
theorem fits_eraseLift (ht : t.Balanced .black n) (hctx : Accepts (f :: ctx) .black (n + 1))
    (hred : f.sibling.color = .red) : ∃ m, (plug ctx (eraseLift f t)).Balanced .black m := by
  have hs := hctx.cons.1
  cases hu : f.sibling with
  | nil => rw [hu] at hred; cases hred
  | node c l s r =>
    rw [hu] at hs hred
    obtain rfl : c = .red := hred
    rw [node_eq_branch f.side, color_branch] at hs
    obtain ⟨-, hnear, hfar⟩ := balanced_branch_red.mp hs
    rw [eraseLift, hu]
    dsimp only
    generalize (node .red l s r).child f.side = near at hnear ⊢
    generalize (node .red l s r).child f.side.flip = far at hfar ⊢
    cases hctx with
    | red _ hsibling => rw [hu] at hsibling; cases hsibling.color
    | black hcolor _ hctx =>
      have habove : Accepts (⟨f.side, .red, f.key, near⟩ :: ⟨f.side, .black, s, far⟩ :: ctx) .black (n + 1) :=
        .red rfl hnear (.black rfl (hfar.color.symm ▸ hfar) hctx)
      have hfits := fits_eraseRotate ht habove (by simp only [hnear.color]; decide)
      rw [if_neg (by rintro ⟨h, -⟩; cases h)] at hfits
      obtain ⟨c', m, haccepts, hbal⟩ := hfits
      rw [hcolor]
      exact haccepts.plug hbal

/-- A tree that lacks a black node is repaired. -/
theorem balanced_eraseFix (hctx : Accepts ctx .black (n + 1)) (ht : t.Balanced .black n) :
    ∃ m, (eraseFix ctx t).Balanced .black m := by
  induction ctx generalizing t n with
  | nil => exact ⟨n, ht⟩
  | cons f ctx ih =>
    rw [eraseFix]
    split
    next hred => exact fits_eraseLift ht hctx hred
    next hblack =>
      have hfits := fits_eraseRotate ht hctx hblack
      split
      next hall =>
        rw [if_pos hall] at hfits
        exact ih hfits.2 hfits.1
      next hall =>
        rw [if_neg hall] at hfits
        obtain ⟨c, m, haccepts, hbal⟩ := hfits
        exact haccepts.plug hbal

/-! ## Places without a subtree on one side -/

/-- What is left of a node without a subtree on one side: the other subtree, turned black. If both are
empty and the node was black, the place lacks a black node. -/
theorem accepts_of_detach {d : Side} {c : Color} {a : α} {r : ColorTree α}
    (h : (branch d c .nil a r).Balanced c n) (hctx : Accepts ctx c n) :
    r ≠ .nil ∧ c = .black ∧ (∃ m, (plug ctx (r.recolor .black)).Balanced .black m) ∨
    r = .nil ∧ c = .red ∧ (∃ m, (plug ctx .nil).Balanced .black m) ∨
    r = .nil ∧ c = .black ∧ Accepts ctx .black 1 := by
  cases c with
  | red =>
    obtain ⟨-, hnil, hr⟩ := balanced_branch_red.mp h
    cases hnil
    cases hr
    exact .inr (.inl ⟨rfl, rfl, hctx.of_red.plug .nil⟩)
  | black =>
    obtain ⟨-, m, rfl, hnil, hr⟩ := balanced_branch_black.mp h
    cases hnil
    cases hcolor : r.color with
    | red =>
      rw [hcolor] at hr
      refine .inl ⟨fun h => ?_, rfl, hctx.plug hr.blacken⟩
      rw [h] at hcolor
      cases hcolor
    | black =>
      rw [hcolor] at hr
      cases hr
      exact .inr (.inr ⟨rfl, rfl, hctx⟩)

/-- The values on the frames do not matter. -/
theorem Accepts.rekey {ctx' : Context α} {c cc : Color} {d : Side} {a b : α} {u : ColorTree α}
    (h : Accepts (ctx ++ ⟨d, cc, a, u⟩ :: ctx') c n) : Accepts (ctx ++ ⟨d, cc, b, u⟩ :: ctx') c n := by
  induction ctx generalizing c n with
  | nil =>
    cases h with
    | red hcolor hsibling hctx => exact .red hcolor hsibling hctx
    | black hcolor hsibling hctx => exact .black hcolor hsibling hctx
  | cons f ctx ih =>
    cases h with
    | red hcolor hsibling hctx => exact .red hcolor hsibling (ih hctx)
    | black hcolor hsibling hctx => exact .black hcolor hsibling (ih hctx)

end Context

end Flos.Lib
