import Flos.Lib.Runs
import Flos.Rbtree.EraseNode
import Flos.Rbtree.Search
import Flos.Rbtree.Traverse

/-!
# A red-black tree as a list

A user of `rbtree.h` sees the nodes of a tree in a row: a new node goes beside the parent to which it is
linked, an erased one leaves, a replaced one hands over its place, and the walks read the row. The calls keep
the tree balanced, so no loop takes more rounds than twice the logarithm of the number of nodes.
-/

namespace Flos.Rbtree

open Flos.Lib

variable {N : Type*} [DecidableEq N]

/-- A call on the tree: `rb_link_node` with `rb_insert_color`, `rb_erase`, `rb_replace_node`, `rb_first`,
`rb_last`, `rb_next` and `rb_prev`. -/
inductive RbOp (N : Type*)
  | insert (node : N) (parent : Option N) (d : Side)
  | erase (node : N)
  | replace (victim new : N)
  | first
  | last
  | next (node : N)
  | prev (node : N)

/-- The nodes of the tree in order, read down to a depth. -/
def Links.nodes (fuel : ℕ) (s : Links N) : List N := inorder (readTree s fuel s.root)

/-- New nodes are not in the tree and go to an empty link of it; the other nodes are in the tree. -/
def RbOp.Allowed (fuel : ℕ) (s : Links N) : RbOp N → Prop
  | .insert node parent d =>
    node ∉ s.nodes fuel ∧ (∀ p ∈ parent, p ∈ s.nodes fuel) ∧ s.linkAt parent d = none
  | .erase node => node ∈ s.nodes fuel
  | .replace victim new => victim ∈ s.nodes fuel ∧ new ∉ s.nodes fuel
  | .next node => node ∈ s.nodes fuel
  | .prev node => node ∈ s.nodes fuel
  | _ => True

instance RbOp.decidableAllowed (fuel : ℕ) (s : Links N) : (op : RbOp N) → Decidable (op.Allowed fuel s)
  | .insert node parent d => inferInstanceAs (Decidable (node ∉ s.nodes fuel ∧ (∀ p ∈ parent, p ∈ s.nodes fuel) ∧
      s.linkAt parent d = none))
  | .erase node => inferInstanceAs (Decidable (node ∈ s.nodes fuel))
  | .replace victim new => inferInstanceAs (Decidable (victim ∈ s.nodes fuel ∧ new ∉ s.nodes fuel))
  | .first => .isTrue trivial
  | .last => .isTrue trivial
  | .next node => inferInstanceAs (Decidable (node ∈ s.nodes fuel))
  | .prev node => inferInstanceAs (Decidable (node ∈ s.nodes fuel))

/-- A call on the links, with the node that it returns. -/
def RbOp.exec (fuel : ℕ) (s : Links N) : RbOp N → Option (Links N × Option N)
  | .insert node parent d => (rbInsertColor fuel node (rbLinkNode node parent d s)).map fun s => (s, none)
  | .erase node => (rbErase fuel node s).map fun s => (s, none)
  | .replace victim new => some (rbReplaceNode victim new s, none)
  | .first => (rbFirst fuel s).map fun r => (s, r)
  | .last => (rbLast fuel s).map fun r => (s, r)
  | .next node => (rbNext fuel node s).map fun r => (s, r)
  | .prev node => (rbPrev fuel node s).map fun r => (s, r)

/-- Put a node beside its parent; a node without a parent is the only one. -/
def insertBeside (n : N) (parent : Option N) (d : Side) (l : List N) : List N :=
  match parent with
  | none => [n]
  | some p => l.flatMap fun a => if a = p then (if d = .left then [n, a] else [a, n]) else [a]

/-- The call on the row of nodes. -/
def RbOp.onList (l : List N) : RbOp N → List N × Option N
  | .insert node parent d => (insertBeside node parent d l, none)
  | .erase node => (l.erase node, none)
  | .replace victim new => (l.map fun a => if a = victim then new else a, none)
  | .first => (l, l.head?)
  | .last => (l, l.getLast?)
  | .next node => (l, (l.dropWhile (· ≠ node)).tail.head?)
  | .prev node => (l, (l.takeWhile (· ≠ node)).getLast?)

/-- A step on the links, labelled with the call and its result. -/
def RbStep (fuel : ℕ) (s : Links N) (c : RbOp N × Option N) (s' : Links N) : Prop :=
  c.1.Allowed fuel s ∧ c.1.exec fuel s = some (s', c.2)

/-- A step on the row of nodes. -/
def RowStep (l : List N) (c : RbOp N × Option N) (l' : List N) : Prop := c.1.onList l = (l', c.2)

/-- The links hold a balanced tree with these nodes in order. -/
def HoldsRow (s : Links N) (l : List N) : Prop :=
  ∃ t : ColorTree N, Shows s [] t ∧ t.order = l ∧ ∃ n, t.Balanced .black n

variable {s : Links N} {l before after : List N} {a n : N} {fuel : ℕ}

/-! ## The row of nodes -/

/-- Beside a node that comes once. -/
theorem insertBeside_split (d : Side) (hbefore : a ∉ before) (hafter : a ∉ after) :
    insertBeside n (some a) d (before ++ a :: after) =
      before ++ (if d = .left then [n, a] else [a, n]) ++ after := by
  have hother : ∀ l : List N, a ∉ l →
      (l.flatMap fun b => if b = a then (if d = .left then [n, b] else [b, n]) else [b]) = l := by
    intro l hl
    induction l with
    | nil => rfl
    | cons b l ih =>
      rw [List.mem_cons, not_or] at hl
      rw [List.flatMap_cons, if_neg (Ne.symm hl.1), ih hl.2]
      rfl
  rw [insertBeside, List.flatMap_append, List.flatMap_cons, hother before hbefore, hother after hafter, if_pos rfl,
    List.append_assoc]

/-- In place of a node that comes once. -/
theorem map_replace_split (hbefore : a ∉ before) (hafter : a ∉ after) :
    ((before ++ a :: after).map fun b => if b = a then n else b) = before ++ n :: after := by
  have hother : ∀ l : List N, a ∉ l → (l.map fun b => if b = a then n else b) = l := by
    intro l hl
    refine (List.map_congr_left fun b hb => ?_).trans (List.map_id l)
    exact if_neg (ne_of_mem_of_not_mem hb hl)
  rw [List.map_append, List.map_cons, hother before hbefore, hother after hafter, if_pos rfl]

/-- Behind and before a node that comes once. -/
theorem neighbours_split (hbefore : a ∉ before) (after : List N) :
    ((before ++ a :: after).dropWhile (· ≠ a)).tail.head? = after.head? ∧
      ((before ++ a :: after).takeWhile (· ≠ a)).getLast? = before.getLast? := by
  have hother : ∀ b ∈ before, decide (b ≠ a) = true := fun b hb => decide_eq_true (ne_of_mem_of_not_mem hb hbefore)
  rw [List.dropWhile_append_of_pos hother, List.takeWhile_append_of_pos hother,
    List.dropWhile_cons_of_neg (by simp), List.takeWhile_cons_of_neg (by simp), List.append_nil]
  exact ⟨rfl, rfl⟩

/-- Every node is there, and a new one for each that is the parent. -/
theorem length_insertBeside (p : N) (d : Side) :
    (insertBeside n (some p) d l).length = l.length + l.count p := by
  induction l with
  | nil => rfl
  | cons b l ih =>
    rw [insertBeside] at ih ⊢
    rw [List.flatMap_cons, List.length_append, ih, List.length_cons, List.count_cons]
    by_cases hb : b = p
    · subst hb
      cases d <;> simp <;> omega
    · simp [hb]
      omega

/-! ## The calls -/

omit [DecidableEq N] in
/-- The tree of a row is logarithmically deep. -/
theorem HoldsRow.elim (h : HoldsRow s l) :
    ∃ t : ColorTree N, Shows s [] t ∧ t.order = l ∧ (∃ n, t.Balanced .black n) ∧ l.Nodup ∧
      t.depth ≤ 2 * Nat.log 2 (l.length + 1) := by
  obtain ⟨t, ht, rfl, n, hbal⟩ := h
  exact ⟨t, ht, rfl, ⟨n, hbal⟩, (List.nodup_append.mp ht.nodup).1, hbal.depth_le_log⟩

omit [DecidableEq N] in
/-- What is read of the links is the row. -/
theorem HoldsRow.nodes_eq (h : HoldsRow s l) (hfuel : 2 * Nat.log 2 (l.length + 1) < fuel) : s.nodes fuel = l := by
  obtain ⟨t, ht, horder, -, -, hdepth⟩ := h.elim
  have hroot : s.root = t.root := ht.around
  rw [Links.nodes, hroot, readTree_eq ht.tree (hdepth.trans hfuel.le), ColorTree.inorder_shape, horder]

/-- A new node at an empty link. -/
theorem HoldsRow.insert (h : HoldsRow s l) (hfuel : 2 * Nat.log 2 (l.length + 1) < fuel) {parent : Option N}
    {d : Side} (hn : n ∉ l) (hparent : ∀ p ∈ parent, p ∈ l) (hlink : s.linkAt parent d = none) :
    ∃ s', rbInsertColor fuel n (rbLinkNode n parent d s) = some s' ∧ HoldsRow s' (insertBeside n parent d l) := by
  obtain ⟨t, ht, rfl, ⟨m, hbal⟩, hnodup, hdepth⟩ := h.elim
  cases parent with
  | none =>
    have hroot : t.root = none := ht.around.symm.trans hlink
    obtain rfl := ColorTree.eq_nil_of_root hroot
    obtain ⟨s', heq, hs'⟩ := rbInsertColor_shows ht (n := n) (by simp [Context.keys]) (.root 0)
      (Nat.zero_lt_of_lt hfuel)
    exact ⟨s', heq, _, hs', Context.order_insertFix _ _, Context.balanced_insertFix (.root 0) (.red .nil .nil)⟩
  | some p =>
    obtain ⟨ctx, c, x, y, rfl⟩ := Context.exists_plug (hparent p rfl)
    have hnode := (shows_plug.mp ht).tree.1
    rw [ColorTree.node_eq_branch d c x p y] at ht hbal hn hnodup hdepth hfuel ⊢
    have hempty : (ColorTree.node c x p y).child d = .nil := by
      refine ColorTree.eq_nil_of_root ?_
      rw [Links.linkAt, Option.elim_some, Links.child, hnode] at hlink
      cases d
      · exact hlink
      · exact hlink
    rw [hempty] at ht hbal hn hnodup hdepth hfuel ⊢
    generalize (ColorTree.node c x p y).child d.flip = u at ht hbal hn hnodup hdepth hfuel ⊢
    obtain ⟨s', t', heq, hs', horder, hbal'⟩ :=
      rbLinkNode_insertColor (⟨d, c, p, u⟩ :: ctx) ht hbal hn (hdepth.trans_lt hfuel)
    refine ⟨s', heq, t', hs', ?_, hbal'⟩
    rw [horder]
    rw [Context.order_plug] at hnodup ⊢
    cases d with
    | left =>
      simp only [ColorTree.order_branch_left, ColorTree.order, List.nil_append, List.append_assoc,
        List.cons_append] at hnodup ⊢
      rw [insertBeside_split .left (by grind) (by grind)]
      simp [Context.before, Context.after, Frame.before, Frame.after]
    | right =>
      simp only [ColorTree.order_branch_right, ColorTree.order, List.append_assoc, List.cons_append,
        List.nil_append] at hnodup ⊢
      rw [← List.append_assoc, insertBeside_split .right (by grind) (by grind)]
      simp [Context.before, Context.after, Frame.before, Frame.after]

/-- A node leaves. -/
theorem HoldsRow.erase (h : HoldsRow s l) (hfuel : 2 * Nat.log 2 (l.length + 1) < fuel) (ha : a ∈ l) :
    ∃ s', rbErase fuel a s = some s' ∧ HoldsRow s' (l.erase a) := by
  obtain ⟨t, ht, rfl, ⟨m, hbal⟩, -, hdepth⟩ := h.elim
  obtain ⟨s', u, heq, hs', horder, hbal'⟩ := rbErase_order ht hbal ha (hdepth.trans hfuel.le)
  exact ⟨s', heq, u, hs', horder, hbal'⟩

/-- A node hands over its place. -/
theorem HoldsRow.replace (h : HoldsRow s l) (ha : a ∈ l) (hn : n ∉ l) :
    HoldsRow (rbReplaceNode a n s) (l.map fun b => if b = a then n else b) := by
  obtain ⟨t, ht, rfl, ⟨m, hbal⟩, hnodup, -⟩ := h.elim
  obtain ⟨ctx, c, x, y, rfl⟩ := Context.exists_plug ha
  have hs' := rbReplaceNode_shows (shows_plug.mp ht) hn
  refine ⟨ctx.plug (.node c x n y), shows_plug.mpr hs', ?_, ?_⟩
  · rw [Context.order_plug] at hnodup ⊢
    rw [Context.order_plug]
    simp only [ColorTree.order, List.append_assoc, List.cons_append] at hnodup ⊢
    rw [← List.append_assoc, ← List.append_assoc, map_replace_split (by grind) (by grind)]
  · obtain ⟨k, haccepts, hplace⟩ := Context.accepts_of_plug hbal
    refine haccepts.plug ?_
    cases hplace with
    | red hx hy => exact .red hx hy
    | black hx hy => exact .black hx hy

/-- The walks read the row. -/
theorem HoldsRow.walks (h : HoldsRow s l) (hfuel : 2 * Nat.log 2 (l.length + 1) < fuel) :
    rbFirst fuel s = some l.head? ∧ rbLast fuel s = some l.getLast? ∧
      ∀ a ∈ l, rbNext fuel a s = some (l.dropWhile (· ≠ a)).tail.head? ∧
        rbPrev fuel a s = some (l.takeWhile (· ≠ a)).getLast? := by
  obtain ⟨t, ht, rfl, -, hnodup, hdepth⟩ := h.elim
  have hdepth' := hdepth.trans hfuel.le
  refine ⟨rbEnd_eq ht .left hdepth', ?_, fun a ha => ?_⟩
  · rw [rbLast, rbEnd_eq ht .right hdepth', ← List.head?_reverse]
    rfl
  · obtain ⟨before, after, hsplit⟩ := List.append_of_mem ha
    obtain ⟨hnext, hprev⟩ := rbNext_rbPrev_eq ht hsplit hdepth'
    rw [hsplit] at hnodup ⊢
    obtain ⟨hbehind, hahead⟩ := neighbours_split (show a ∉ before by grind) after
    rw [hnext, hprev, hbehind, hahead]
    exact ⟨rfl, rfl⟩

/-- An allowed call succeeds, and does to the links what it does to the row. -/
theorem HoldsRow.exec (h : HoldsRow s l) (hfuel : 2 * Nat.log 2 (l.length + 1) < fuel) {op : RbOp N}
    (hop : op.Allowed fuel s) :
    ∃ s', op.exec fuel s = some (s', (op.onList l).2) ∧ HoldsRow s' (op.onList l).1 := by
  have hnodes := h.nodes_eq hfuel
  obtain ⟨hfirst, hlast, hwalks⟩ := h.walks hfuel
  cases op with
  | insert node parent d =>
    obtain ⟨hn, hparent, hlink⟩ := hop
    rw [hnodes] at hn hparent
    obtain ⟨s', heq, hs'⟩ := h.insert hfuel hn hparent hlink
    exact ⟨s', by rw [RbOp.exec, heq]; rfl, hs'⟩
  | erase node =>
    obtain ⟨s', heq, hs'⟩ := h.erase hfuel (hnodes ▸ hop : node ∈ l)
    exact ⟨s', by rw [RbOp.exec, heq]; rfl, hs'⟩
  | replace victim new =>
    obtain ⟨hvictim, hnew⟩ := hop
    rw [hnodes] at hvictim hnew
    exact ⟨_, rfl, h.replace hvictim hnew⟩
  | first => exact ⟨s, by rw [RbOp.exec, hfirst]; rfl, h⟩
  | last => exact ⟨s, by rw [RbOp.exec, hlast]; rfl, h⟩
  | next node => exact ⟨s, by rw [RbOp.exec, (hwalks node (hnodes ▸ hop : node ∈ l)).1]; rfl, h⟩
  | prev node => exact ⟨s, by rw [RbOp.exec, (hwalks node (hnodes ▸ hop : node ∈ l)).2]; rfl, h⟩

/-- A call adds at most one node. -/
theorem length_onList_le (op : RbOp N) (hnodup : l.Nodup) : (op.onList l).1.length ≤ l.length + 1 := by
  cases op with
  | insert node parent d =>
    cases parent with
    | none => exact Nat.succ_le_succ (Nat.zero_le _)
    | some p =>
      have hcount := List.nodup_iff_count_le_one.mp hnodup p
      rw [RbOp.onList, length_insertBeside]
      omega
  | erase node => exact (List.length_erase_le).trans (Nat.le_succ _)
  | replace victim new => exact (List.length_map _).le.trans (Nat.le_succ _)
  | first => exact Nat.le_succ _
  | last => exact Nat.le_succ _
  | next node => exact Nat.le_succ _
  | prev node => exact Nat.le_succ _

/-- From an empty tree on any memory, every sequence of calls on the links is answered like the calls on a
row of nodes. The links hold a balanced tree of the row, at most logarithmically deep, and with the rounds for
so many nodes every further call that is allowed succeeds. -/
theorem rbtree_run_refines_row (mem : N → RbNode N) {calls : List (RbOp N × Option N)} {s : Links N}
    (hrun : Run (RbStep fuel) ⟨mem, none⟩ calls s) (hfuel : 2 * Nat.log 2 (calls.length + 1) < fuel) :
    ∃ l : List N, Run RowStep [] calls l ∧ l.length ≤ calls.length ∧
      (∃ (t : ColorTree N) (n : ℕ), Shows s [] t ∧ t.order = l ∧ t.Balanced .black n ∧
        t.depth ≤ 2 * Nat.log 2 (l.length + 1)) ∧
      ∀ op : RbOp N, op.Allowed fuel s → ∃ s' out, RbStep fuel s (op, out) s' := by
  have hrow : ∃ l : List N, Run RowStep [] calls l ∧ l.length ≤ calls.length ∧ HoldsRow s l := by
    induction hrun with
    | nil => exact ⟨[], Run.nil _, le_rfl, .nil, ⟨rfl, trivial, List.nodup_nil⟩, rfl, 0, .nil⟩
    | @snoc s s' calls c _ hlast ih =>
      rw [List.length_append, List.length_singleton] at hfuel ⊢
      have hlog := Nat.log_mono_right (b := 2) (show calls.length + 1 ≤ calls.length + 1 + 1 by omega)
      obtain ⟨l, hlist, hlength, h⟩ := ih (show 2 * Nat.log 2 (calls.length + 1) < fuel by omega)
      have hlog' := Nat.log_mono_right (b := 2) (show l.length + 1 ≤ calls.length + 1 by omega)
      obtain ⟨s'', hexec, hs''⟩ := h.exec (show 2 * Nat.log 2 (l.length + 1) < fuel by omega) hlast.1
      obtain ⟨rfl, hout⟩ := Prod.mk.inj (Option.some.inj (hexec.symm.trans hlast.2))
      obtain ⟨t, -, -, -, hnodup, -⟩ := h.elim
      have hrowStep : RowStep l c (c.1.onList l).1 := Prod.ext rfl hout
      exact ⟨_, hlist.snoc hrowStep, (length_onList_le c.1 hnodup).trans (Nat.succ_le_succ hlength), hs''⟩
  obtain ⟨l, hlist, hlength, h⟩ := hrow
  obtain ⟨t, ht, horder, ⟨n, hbal⟩, -, hdepth⟩ := h.elim
  refine ⟨l, hlist, hlength, ⟨t, n, ht, horder, hbal, hdepth⟩, fun op hop => ?_⟩
  have hlog := Nat.log_mono_right (b := 2) (show l.length + 1 ≤ calls.length + 1 by omega)
  obtain ⟨s', hexec, -⟩ := h.exec (show 2 * Nat.log 2 (l.length + 1) < fuel by omega) hop
  exact ⟨s', _, hop, hexec⟩

/-- Three nodes come, the middle one hands over its place and its successor is read, and one leaves. -/
theorem rbtree_run_refines_row_fourNodes :
    ∃ l : List ℕ, Run RowStep []
      [(.insert 2 none .left, none), (.insert 1 (some 2) .left, none), (.insert 3 (some 2) .right, none),
        (.replace 2 5, none), (.next 5, some 3), (.erase 5, none), (.last, some 3)] l ∧ l.length ≤ 7 := by
  have hrun : Run (RbStep 7) (⟨fun _ => ⟨none, .red, none, none⟩, none⟩ : Links ℕ)
      [(.insert 2 none .left, none), (.insert 1 (some 2) .left, none), (.insert 3 (some 2) .right, none),
        (.replace 2 5, none), (.next 5, some 3), (.erase 5, none), (.last, some 3)] _ :=
    Run.cons ⟨by decide, rfl⟩ (Run.cons ⟨by decide, rfl⟩ (Run.cons ⟨by decide, rfl⟩ (Run.cons ⟨by decide, rfl⟩
      (Run.cons ⟨by decide, rfl⟩ (Run.cons ⟨by decide, rfl⟩ (Run.cons ⟨by decide, rfl⟩ (Run.nil _)))))))
  obtain ⟨l, hlist, hlength, _⟩ := rbtree_run_refines_row _ hrun (by decide)
  exact ⟨l, hlist, hlength⟩

end Flos.Rbtree
