import Flos.Rbtree.Links

/-!
# Walking through a red-black tree

`rb_next` and `rb_prev` are one walk towards a side: down to the nearest node of the subtree there, or up to
the first node whose subtree on the other side has been left. `rb_first` and `rb_last` go down from the root.
-/

namespace Flos.Rbtree

open Flos.Lib

variable {N : Type*} [DecidableEq N]

/-- `RB_EMPTY_NODE`: the word of the node is its own address. -/
def Links.IsEmptyNode (s : Links N) (a : N) : Prop := (s.mem a).parent = some a ∧ (s.mem a).color = .red

instance (s : Links N) (a : N) : Decidable (s.IsEmptyNode a) := inferInstanceAs (Decidable (_ ∧ _))

/-- Go down on one side as far as there are children. -/
def farthest (s : Links N) (d : Side) : ℕ → N → Option N
  | 0, _ => none
  | fuel + 1, n =>
    match s.child d n with
    | none => some n
    | some m => farthest s d fuel m

/-- Go up as long as the node is the child of its parent on one side. -/
def climb (s : Links N) (d : Side) : ℕ → N → Option (Option N)
  | 0, _ => none
  | fuel + 1, node =>
    match (s.mem node).parent with
    | none => some none
    | some parent => if s.child d parent = some node then climb s d fuel parent else some (some parent)

/-- The neighbour of a node on one side. -/
def rbStep (d : Side) (fuel : ℕ) (node : N) (s : Links N) : Option (Option N) :=
  if s.IsEmptyNode node then some none
  else
    match s.child d node with
    | some n => (farthest s d.flip fuel n).map some
    | none => climb s d fuel node

/-- `rb_next`. -/
def rbNext (fuel : ℕ) (node : N) (s : Links N) : Option (Option N) := rbStep .right fuel node s

/-- `rb_prev`. -/
def rbPrev (fuel : ℕ) (node : N) (s : Links N) : Option (Option N) := rbStep .left fuel node s

/-- The outermost node on one side. -/
def rbEnd (d : Side) (fuel : ℕ) (s : Links N) : Option (Option N) :=
  match s.root with
  | none => some none
  | some n => (farthest s d fuel n).map some

/-- `rb_first`. -/
def rbFirst (fuel : ℕ) (s : Links N) : Option (Option N) := rbEnd .left fuel s

/-- `rb_last`. -/
def rbLast (fuel : ℕ) (s : Links N) : Option (Option N) := rbEnd .right fuel s

variable {s : Links N} {ctx : Context N} {t u : ColorTree N} {d : Side} {c : Color} {a n : N} {fuel : ℕ}

omit [DecidableEq N] in
/-- Going down on one side ends at the outermost node of the tree. -/
theorem farthest_eq {p : Option N} (h : Holds s.mem p t) (hn : t.root = some n) (hfuel : t.depth ≤ fuel) :
    farthest s d fuel n = (t.orderFrom d).head? := by
  induction t generalizing p n fuel with
  | nil => cases hn
  | node c l a r ihl ihr =>
    obtain rfl : a = n := Option.some.inj hn
    rw [ColorTree.depth] at hfuel
    obtain ⟨k, rfl⟩ := Nat.exists_eq_succ_of_ne_zero (show fuel ≠ 0 by omega)
    have ih : ∀ {p : Option N} {m : N}, Holds s.mem p ((ColorTree.node c l a r).child d) →
        ((ColorTree.node c l a r).child d).root = some m →
        farthest s d k m = (((ColorTree.node c l a r).child d).orderFrom d).head? := by
      cases d
      · exact fun h hm => ihl h hm (by omega)
      · exact fun h hm => ihr h hm (by omega)
    rw [ColorTree.node_eq_branch d c l a r] at h ⊢
    generalize (ColorTree.node c l a r).child d = u at h ih ⊢
    obtain ⟨hnode, hu, -⟩ := holds_branch.mp h
    have hchild : s.child d a = u.root := by rw [Links.child, hnode, child_linked]
    rw [farthest, hchild, ColorTree.orderFrom_branch]
    cases u with
    | nil => cases d <;> rfl
    | node c' l' m r' =>
      exact (ih hu rfl).trans (List.head?_append_of_ne_nil _ (ColorTree.orderFrom_ne_nil rfl d)).symm

/-- Going up ends at the first node behind the hole. -/
theorem climb_eq (h : HoldsAround s ctx (some a)) (hparent : (s.mem a).parent = ctx.parent)
    (hnodup : (a :: ctx.keys).Nodup) (hfuel : ctx.length < fuel) :
    climb s d fuel a = some (ctx.beyond d).head? := by
  induction ctx generalizing a fuel with
  | nil =>
    obtain ⟨k, rfl⟩ := Nat.exists_eq_succ_of_ne_zero (Nat.ne_zero_of_lt hfuel)
    rw [climb, hparent]
    cases d <;> rfl
  | cons f ctx ih =>
    obtain ⟨k, rfl⟩ := Nat.exists_eq_succ_of_ne_zero (Nat.ne_zero_of_lt hfuel)
    obtain ⟨hnode, -, hctx⟩ := h
    rw [Context.keys_cons] at hnodup
    obtain ⟨ha, hkeys⟩ := List.nodup_cons.mp hnodup
    obtain ⟨hframe, hrest, hdisjoint⟩ := List.nodup_append.mp hkeys
    rw [climb, hparent, Context.parent_cons, Context.beyond_cons]
    dsimp only
    by_cases hside : f.side = d
    · subst hside
      have hchild : s.child f.side f.key = some a := by rw [Links.child, hnode, child_linked]
      rw [if_pos hchild, if_pos rfl]
      refine ih hctx (by rw [hnode, parent_linked]) ?_ (Nat.lt_of_succ_lt_succ hfuel)
      exact List.nodup_cons.mpr ⟨fun hmem => hdisjoint _ List.mem_cons_self _ hmem rfl, hrest⟩
    · obtain rfl : d = f.side.flip := (Side.eq_or_flip f.side d).resolve_left fun heq => hside heq.symm
      have hchild : s.child f.side.flip f.key = f.sibling.root := by
        rw [Links.child, hnode, child_flip_linked]
      rw [if_neg, if_neg hside]
      · rfl
      · rw [hchild]
        intro hroot
        exact ha (List.mem_append_left _ (List.mem_cons_of_mem _ (ColorTree.mem_order_of_root hroot)))

/-- The neighbour of a node is the next value towards the side. -/
theorem rbStep_eq (h : Shows s ctx (.branch d c t a u))
    (hfuel : (ctx.plug (.branch d c t a u)).depth ≤ fuel) :
    rbStep d fuel a s = some (t.orderFrom d.flip ++ ctx.beyond d).head? := by
  have hdepth := Context.length_add_depth_le ctx (.branch d c t a u)
  have hbranch : t.depth + 1 ≤ (ColorTree.branch d c t a u).depth := by
    cases d <;> simp [ColorTree.branch, ColorTree.depth]
  have hnodup := ((ColorTree.perm_order_branch d c t a u).append_right ctx.keys).nodup_iff.mp h.nodup
  have ha : (a :: ctx.keys).Nodup := by
    rw [List.append_assoc, List.cons_append] at hnodup
    refine (List.nodup_append.mp hnodup).2.1.sublist ?_
    exact (List.sublist_append_right _ _).cons_cons a
  obtain ⟨hnode, ht, -⟩ := holds_branch.mp h.tree
  have hparent : (s.mem a).parent = ctx.parent := by rw [hnode, parent_linked]
  have hchild : s.child d a = t.root := by rw [Links.child, hnode, child_linked]
  rw [rbStep, if_neg, hchild]
  · cases t with
    | nil =>
      have haround := h.around
      rw [ColorTree.root_branch] at haround
      rw [show ColorTree.nil.orderFrom d.flip = ([] : List N) by cases d <;> rfl, List.nil_append]
      exact climb_eq haround hparent ha (by omega)
    | node c' l' m r' =>
      have hne : (ColorTree.node c' l' m r').orderFrom d.flip ≠ [] := ColorTree.orderFrom_ne_nil rfl d.flip
      have hfar : farthest s d.flip fuel m = ((ColorTree.node c' l' m r').orderFrom d.flip).head? :=
        farthest_eq ht rfl (by omega)
      rw [ColorTree.root]
      dsimp only
      rw [hfar, List.head?_append_of_ne_nil _ hne, List.head?_eq_some_head hne, Option.map_some]
  · rintro ⟨hself, -⟩
    exact (List.nodup_cons.mp ha).1 (mem_keys_of_parent (hparent.symm.trans hself))

omit [DecidableEq N] in
/-- The outermost node is the first value from its side. -/
theorem rbEnd_eq (h : Shows s [] t) (d : Side) (hfuel : t.depth ≤ fuel) :
    rbEnd d fuel s = some (t.orderFrom d).head? := by
  have hroot : s.root = t.root := h.around
  rw [rbEnd, hroot]
  cases t with
  | nil => cases d <;> rfl
  | node c l a r =>
    have hne : (ColorTree.node c l a r).orderFrom d ≠ [] := ColorTree.orderFrom_ne_nil rfl d
    rw [ColorTree.root]
    dsimp only
    rw [farthest_eq h.tree rfl hfuel, List.head?_eq_some_head hne, Option.map_some]

/-- `rb_next` finds the node behind and `rb_prev` the one before, in any tree whose depth the fuel covers. -/
theorem rbNext_rbPrev_eq (h : Shows s [] t) {l l' : List N} (horder : t.order = l ++ a :: l')
    (hfuel : t.depth ≤ fuel) :
    rbNext fuel a s = some l'.head? ∧ rbPrev fuel a s = some l.getLast? := by
  have hmem : a ∈ t.order := by rw [horder]; exact List.mem_append_right _ List.mem_cons_self
  obtain ⟨ctx, c, x, y, rfl⟩ := Context.exists_plug hmem
  have hnodup := (List.nodup_append.mp h.nodup).1
  rw [Context.order_plug, ColorTree.order] at horder hnodup
  simp only [List.append_assoc, List.cons_append] at horder hnodup
  rw [← List.append_assoc] at horder hnodup
  have hplace := shows_plug.mp h
  obtain ⟨hl, -, hl'⟩ := (List.append_cons_inj_of_notMem (by grind) (by grind)).mp horder
  constructor
  · rw [← hl', rbNext, rbStep_eq (d := .right) hplace hfuel]
    rfl
  · rw [← hl, rbPrev, rbStep_eq (d := .left) hplace hfuel, ← List.head?_reverse, List.reverse_append]
    rfl

end Flos.Rbtree
