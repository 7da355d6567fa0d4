import Flos.Rbtree.Links

/-!
# Insertion into a red-black tree

`rb_insert_color` repairs the tree behind `rb_link_node`: it climbs from the new node as long as parent and
uncle are red, and rotates at most twice. The two halves of the loop are one with a side.
-/

namespace Flos.Rbtree

open Flos.Lib

variable {N : Type*} [DecidableEq N]

/-- `rb_link_node` with the link on a side of the parent, or that of the root. -/
def rbLinkNode (node : N) (parent : Option N) (d : Side) (s : Links N) : Links N :=
  let s := s.write node ⟨parent, .red, none, none⟩
  match parent with
  | some p => s.setChild p d (some node)
  | none => { s with root := some node }

/-- Cases 2 and 3 of `__rb_insert`, with the parent on the side `d` of the grandparent. -/
def rbInsertRotate (d : Side) (node parent gparent : N) (s : Links N) : Links N :=
  if s.child d.flip parent = some node then
    -- Case 2, and case 3 with the node as the parent
    let tmp := s.child d node
    let s := s.setChild parent d.flip tmp
    let s := s.setChild node d (some parent)
    let s := s.setParentColorIf tmp (some parent) .black
    let s := s.setParentColor parent (some node) .red
    let tmp := s.child d.flip node
    let s := s.setChild gparent d tmp
    let s := s.setChild node d.flip (some gparent)
    let s := s.setParentColorIf tmp (some gparent) .black
    s.rotateSetParents gparent node .red
  else
    -- Case 3
    let tmp := s.child d.flip parent
    let s := s.setChild gparent d tmp
    let s := s.setChild parent d.flip (some gparent)
    let s := s.setParentColorIf tmp (some gparent) .black
    s.rotateSetParents gparent parent .red

/-- The loop of `__rb_insert`, for so many rounds; no result if they do not suffice or `NULL` is
dereferenced. -/
def rbInsertLoop : ℕ → N → Option N → Links N → Option (Links N)
  | 0, _, _, _ => none
  | _ + 1, node, none, s => some (s.setParentColor node none .black)
  | fuel + 1, node, some parent, s =>
    if (s.mem parent).color = .black then some s
    else do
      let gparent ← (← s.redParent parent)
      let d : Side := if s.child .right gparent ≠ some parent then .left else .right
      let tmp := s.child d.flip gparent
      if s.IsRed tmp then
        -- Case 1
        let s := s.setParentColorIf tmp (some gparent) .black
        let s := s.setParentColor parent (some gparent) .black
        let node := gparent
        let parent := (s.mem node).parent
        let s := s.setParentColor node parent .red
        rbInsertLoop fuel node parent s
      else
        some (rbInsertRotate d node parent gparent s)

/-- `rb_insert_color`. -/
def rbInsertColor (fuel : ℕ) (node : N) (s : Links N) : Option (Links N) := do
  rbInsertLoop fuel node (← s.redParent node) s

variable {s : Links N} {p g : Frame N} {ctx : Context N} {t : ColorTree N}


/-- The rotations of a red tree below a red node whose sibling is black. -/
theorem shows_insertRotate (h : Shows s (p :: g :: ctx) t) {n : N} (ht : t.root = some n)
    (hred : t.color = .red) (hchildren : ∀ d, (t.child d).color = .black)
    (hp : p.sibling.color = .black) (hg : g.color = .black) :
    Shows (rbInsertRotate g.side n p.key g.key s) ctx (Context.insertRotate p g t) := by
  obtain ⟨d, pc, a, u⟩ := p
  obtain ⟨e, gc, b, v⟩ := g
  have hnodup := h.nodup
  simp only [Context.keys_cons, Frame.keys, List.nodup_append, List.nodup_cons, List.mem_append,
    List.mem_cons] at hnodup
  have hplaces := h
  obtain ⟨⟨hnodeP, hu, hnodeG, hv, hctx⟩, htree, -⟩ := hplaces
  dsimp only at hp hg hnodeP hu hnodeG hv hctx ⊢
  rw [hg] at hnodeG
  have htree : Holds s.mem (some a) t := htree
  have hmemT : ∀ x, t.root = some x → x ∈ t.order := fun _ => ColorTree.mem_order_of_root
  have hmemU : ∀ x, u.root = some x → x ∈ u.order := fun _ => ColorTree.mem_order_of_root
  rcases Side.eq_or_flip e d with rfl | rfl
  · -- Case 3
    have hchild : s.child d.flip a = u.root := by rw [Links.child, hnodeP, child_flip_linked]
    rw [rbInsertRotate, if_neg (by grind), hchild, Context.insertRotate_same]
    dsimp only
    generalize hs₀ : (((s.setChild b d u.root).setChild a d.flip (some b)).setParentColorIf u.root (some b)
      .black) = s₀
    have hb : s₀.mem b = RbNode.linked d ctx.parent .black u.root v.root := by
      rw [← hs₀, Links.mem_setParentColorIf, if_neg (by grind), Links.mem_setChild, if_neg (by grind),
        Links.mem_setChild, if_pos rfl, hnodeG, setChild_linked]
    have ha : s₀.mem a = RbNode.linked d (some b) pc t.root (some b) := by
      rw [← hs₀, Links.mem_setParentColorIf, if_neg (by grind), Links.mem_setChild, if_pos rfl,
        Links.mem_setChild, if_neg (by grind), hnodeP, setChild_flip_linked]
      rfl
    obtain ⟨s₁, heq, hroot, ha₁, hb₁, hrest⟩ := rotateSetParents_eq (c := .red) (by grind) hb ha
    have hmem : ∀ x, x ≠ a → x ≠ b → s₁.mem x =
        if u.root = some x then (s.mem x).moved (some b) .black else s.mem x := by
      intro x hxa hxb
      rw [hrest x hxa hxb, ← hs₀, Links.mem_setParentColorIf, Links.mem_setChild, if_neg hxa,
        Links.mem_setChild, if_neg hxb]
    have hrotate := h.rotate (by rw [hroot, ← hs₀]; simp) ha₁ hb₁
      (fun x hx => by rw [hmem x (by grind) (by grind), if_pos hx])
      (fun x hx => by
        rw [hmem x (by grind) (by grind), if_neg (by grind)]
        exact (htree.moved_root hx).symm)
      (fun x hxa hxb hxu _ => by rw [hmem x hxa hxb, if_neg hxu])
    rw [ColorTree.recolor_of_color rfl, ColorTree.recolor_of_color hp] at hrotate
    rw [heq]
    exact hrotate
  · -- Case 2
    obtain rfl | ⟨c, x, n', y, rfl⟩ := t.eq_nil_or_branch e
    · cases ht
    obtain rfl : n' = n := by simpa using ht
    obtain rfl : c = .red := by simpa using hred
    have hx : x.color = .black := by simpa using hchildren e
    have hy : y.color = .black := by simpa using hchildren e.flip
    rw [linked_flip, ColorTree.root_branch] at hnodeP
    obtain ⟨hnode, hxx, hyy⟩ := holds_branch.mp htree
    have hchild : s.child e.flip a = some n' := by rw [Links.child, hnodeP, child_flip_linked]
    have hnear : s.child e n' = x.root := by rw [Links.child, hnode, child_linked]
    have hmemX : ∀ z, x.root = some z → z ∈ x.order := fun _ => ColorTree.mem_order_of_root
    have hmemY : ∀ z, y.root = some z → z ∈ y.order := fun _ => ColorTree.mem_order_of_root
    have hnodup' := (ColorTree.perm_order_branch e .red x n' y).nodup_iff.mp hnodup.1
    simp only [ColorTree.mem_order_branch, List.nodup_append, List.nodup_cons, List.mem_cons] at hnodup hnodup'
    rw [rbInsertRotate, if_pos hchild, hnear, Context.insertRotate_flip]
    dsimp only
    generalize hs₀ : (((s.setChild a e.flip x.root).setChild n' e (some a)).setParentColorIf x.root (some a)
      .black).setParentColor a (some n') .red = s₀
    have hn : s₀.mem n' = RbNode.linked e (some a) .red (some a) y.root := by
      rw [← hs₀, Links.mem_setParentColor, if_neg (by grind), Links.mem_setParentColorIf, if_neg (by grind),
        Links.mem_setChild, if_pos rfl, Links.mem_setChild, if_neg (by grind), hnode, setChild_linked]
      rfl
    have ha : s₀.mem a = RbNode.linked e (some n') .red u.root x.root := by
      rw [← hs₀, Links.mem_setParentColor, if_pos rfl, Links.mem_setParentColorIf, if_neg (by grind),
        Links.mem_setChild, if_neg (by grind), Links.mem_setChild, if_pos rfl, hnodeP, setChild_flip_linked,
        moved_linked]
    have hmem : ∀ z, z ≠ n' → z ≠ a → s₀.mem z =
        if x.root = some z then (s.mem z).moved (some a) .black else s.mem z := by
      intro z hzn hza
      rw [← hs₀, Links.mem_setParentColor, if_neg hza, Links.mem_setParentColorIf, Links.mem_setChild,
        if_neg hzn, Links.mem_setChild, if_neg hza]
    have hfar : s₀.child e.flip n' = y.root := by rw [Links.child, hn, child_flip_linked]
    have hroot : s₀.root = s.root := by rw [← hs₀]; simp
    rw [hfar]
    generalize hs₁ : (((s₀.setChild b e y.root).setChild n' e.flip (some b)).setParentColorIf y.root (some b)
      .black) = s₁
    have hb₁ : s₁.mem b = RbNode.linked e ctx.parent .black y.root v.root := by
      rw [← hs₁, Links.mem_setParentColorIf, if_neg (by grind), Links.mem_setChild, if_neg (by grind),
        Links.mem_setChild, if_pos rfl, hmem b (by grind) (by grind), if_neg (by grind), hnodeG,
        setChild_linked]
    have hn₁ : s₁.mem n' = RbNode.linked e (some a) .red (some a) (some b) := by
      rw [← hs₁, Links.mem_setParentColorIf, if_neg (by grind), Links.mem_setChild, if_pos rfl,
        Links.mem_setChild, if_neg (by grind), hn, setChild_flip_linked]
    obtain ⟨s₂, heq, hroot₂, hn₂, hb₂, hrest⟩ := rotateSetParents_eq (c := .red) (by grind) hb₁ hn₁
    have hmem₂ : ∀ z, z ≠ n' → z ≠ b → s₂.mem z =
        if y.root = some z then (s₀.mem z).moved (some b) .black else s₀.mem z := by
      intro z hzn hzb
      rw [hrest z hzn hzb, ← hs₁, Links.mem_setParentColorIf, Links.mem_setChild, if_neg hzn,
        Links.mem_setChild, if_neg hzb]
    have hrotate := h.rotateTwice (by rw [hroot₂, ← hs₁, ← hroot]; simp) hn₂
      (by rw [hmem₂ a (by grind) (by grind), if_neg (by grind), ha]) hb₂
      (fun z hz => by
        rw [hmem₂ z (by grind) (by grind), if_neg (by grind), hmem z (by grind) (by grind), if_pos hz])
      (fun z hz => by
        rw [hmem₂ z (by grind) (by grind), if_pos hz, hmem z (by grind) (by grind), if_neg (by grind)])
      (fun z hz => by
        rw [hmem₂ z (by grind) (by grind), if_neg (by grind), hmem z (by grind) (by grind), if_neg (by grind)]
        exact (hu.moved_root hz).symm)
      (fun z hzn hza hzb hzx hzy _ => by rw [hmem₂ z hzn hzb, if_neg hzy, hmem z hzn hza, if_neg hzx])
    rw [ColorTree.recolor_of_color rfl, ColorTree.recolor_of_color hx, ColorTree.recolor_of_color hy] at hrotate
    rw [heq]
    exact hrotate

/-- The flip of the colours of a red node, its red sibling and their parent. -/
theorem shows_insertFlip (h : Shows s (p :: g :: ctx) t) {s' : Links N}
    (hs' : s' = ((s.setParentColorIf g.sibling.root (some g.key) .black).setParentColor p.key
      (some g.key) .black).setParentColor g.key ctx.parent .red) :
    Shows s' ctx (Context.insertFlip p g t) := by
  obtain ⟨d, pc, a, u⟩ := p
  obtain ⟨e, gc, b, v⟩ := g
  have hnodup := h.nodup
  simp only [Context.keys_cons, Frame.keys, List.nodup_append, List.nodup_cons, List.mem_append,
    List.mem_cons] at hnodup
  have hwhole := (shows_fill.mp (shows_fill.mp h)).nodup
  obtain ⟨⟨hnodeP, hu, hnodeG, hv, hctx⟩, htree, -⟩ := h
  dsimp only at hnodeP hu hnodeG hv hctx hs'
  have hmemV : ∀ x, v.root = some x → x ∈ v.order := fun _ => ColorTree.mem_order_of_root
  have hmem : ∀ x, x ≠ a → x ≠ b → s'.mem x =
      if v.root = some x then (s.mem x).moved (some b) .black else s.mem x := by
    intro x hxa hxb
    rw [hs', Links.mem_setParentColor, if_neg hxb, Links.mem_setParentColor, if_neg hxa,
      Links.mem_setParentColorIf]
  have ha : s'.mem a = RbNode.linked d (some b) .black t.root u.root := by
    rw [hs', Links.mem_setParentColor, if_neg (by grind), Links.mem_setParentColor, if_pos rfl,
      Links.mem_setParentColorIf, if_neg (by grind), hnodeP, moved_linked]
  have hb : s'.mem b = RbNode.linked e ctx.parent .red (some a) v.root := by
    rw [hs', Links.mem_setParentColor, if_pos rfl, Links.mem_setParentColor, if_neg (by grind),
      Links.mem_setParentColorIf, if_neg (by grind), hnodeG, moved_linked]
  have hout : ∀ x ∈ ctx.keys, s'.mem x = s.mem x := fun x hx => by
    rw [hmem x (by grind) (by grind), if_neg (by grind)]
  refine ⟨?_, holds_branch.mpr ⟨?_, holds_branch.mpr ⟨ha, htree.congr fun x hx => ?_,
    hu.congr fun x hx => ?_⟩, hv.move ?_ (fun x hx => ?_) fun x hx hne => ?_⟩, ?_⟩
  · rw [Context.insertFlip, ColorTree.root_branch]
    exact hctx.congr (by rw [hs']; simp) hout
  · simpa using hb
  · rw [hmem x (by grind) (by grind), if_neg (by grind)]
  · rw [hmem x (by grind) (by grind), if_neg (by grind)]
  · grind
  · rw [hmem x (by grind) (by grind), if_pos hx]
  · rw [hmem x (by grind) (by grind), if_neg hne]
  · rw [Context.order_insertFlip]
    exact hwhole

/-- A round below a red parent: the flip, or the rotations. -/
theorem rbInsertLoop_red (h : Shows s (p :: g :: ctx) t) (hp : p.color = .red) (fuel : ℕ) (n : N) :
    rbInsertLoop (fuel + 1) n (some p.key) s =
      if g.sibling.color = .red then
        rbInsertLoop fuel g.key ctx.parent (((s.setParentColorIf g.sibling.root (some g.key) .black).setParentColor
          p.key (some g.key) .black).setParentColor g.key ctx.parent .red)
      else some (rbInsertRotate g.side n p.key g.key s) := by
  have hnodup := h.nodup
  simp only [Context.keys_cons, Frame.keys, List.nodup_append, List.nodup_cons, List.mem_append,
    List.mem_cons] at hnodup
  obtain ⟨⟨hnodeP, -, hnodeG, hv, -⟩, -, -⟩ := h
  have hmemV : ∀ x, g.sibling.root = some x → x ∈ g.sibling.order := fun _ => ColorTree.mem_order_of_root
  have hcolor : (s.mem p.key).color = .red := by rw [hnodeP, color_linked, hp]
  have hparent : s.redParent p.key = some (some g.key) := by
    rw [Links.redParent, if_pos hcolor, hnodeP, parent_linked]
    rfl
  have hside := side_of_linked hnodeG (by grind)
  have huncle : s.child g.side.flip g.key = g.sibling.root := by rw [Links.child, hnodeG, child_flip_linked]
  rw [rbInsertLoop, if_neg (by rw [hcolor]; decide), hparent]
  simp only [Option.bind_eq_bind, Option.bind_some, hside, huncle, hv.isRed]
  split
  · rw [Links.mem_setParentColor, if_neg (by grind), Links.mem_setParentColorIf, if_neg (by grind), hnodeG,
      parent_linked]
  · rfl

/-- The loop of `__rb_insert` repairs a red tree in a context that wants a black one. -/
theorem rbInsertLoop_shows {n : N} {m fuel : ℕ} (h : Shows s ctx t) (ht : t.root = some n)
    (hbal : t.Balanced .red m) (hctx : Context.Accepts ctx .black m) (hfuel : ctx.length < fuel) :
    ∃ s', rbInsertLoop fuel n ctx.parent s = some s' ∧ Shows s' [] (Context.insertFix ctx t) := by
  fun_induction Context.insertFix ctx t generalizing s n m fuel with
  | case1 t =>
    obtain ⟨k, rfl⟩ := Nat.exists_eq_succ_of_ne_zero (Nat.ne_zero_of_lt hfuel)
    exact ⟨_, rfl, h.recolor_root ht .black⟩
  | case2 p t ctx hp =>
    obtain ⟨k, rfl⟩ := Nat.exists_eq_succ_of_ne_zero (Nat.ne_zero_of_lt hfuel)
    have hcolor : (s.mem p.key).color = .black := by rw [h.around.1, color_linked, hp]
    exact ⟨s, by rw [Context.parent_cons, rbInsertLoop, if_pos hcolor], shows_plug.mpr h⟩
  | case3 p t hp =>
    cases hctx with
    | red _ _ hctx => cases hctx
    | black hcolor => rw [hp] at hcolor; cases hcolor
  | case4 p t g ctx hp hred ih =>
    obtain ⟨k, rfl⟩ := Nat.exists_eq_succ_of_ne_zero (Nat.ne_zero_of_lt hfuel)
    cases hctx with
    | black hcolor => rw [hp] at hcolor; cases hcolor
    | red _ hsibling hctx =>
      cases hctx with
      | black _ huncle hctx =>
        rw [Context.parent_cons, Nat.succ_eq_add_one, rbInsertLoop_red h hp, if_pos hred]
        refine ih (shows_insertFlip h rfl) (ColorTree.root_branch _ _ _ _ _)
          (Context.balanced_insertFlip hbal hsibling (hred ▸ huncle)) hctx ?_
        simp only [List.length_cons] at hfuel
        omega
  | case5 p t g ctx hp hred =>
    obtain ⟨k, rfl⟩ := Nat.exists_eq_succ_of_ne_zero (Nat.ne_zero_of_lt hfuel)
    cases hctx with
    | black hcolor => rw [hp] at hcolor; cases hcolor
    | red _ hsibling hctx =>
      cases hctx with
      | black hg _ hctx =>
        rw [Context.parent_cons, Nat.succ_eq_add_one, rbInsertLoop_red h hp, if_neg hred]
        refine ⟨_, rfl, shows_plug.mpr (shows_insertRotate h ht hbal.color (fun d => ?_) hsibling.color hg)⟩
        cases hbal with
        | red hl hr =>
          cases d
          · exact hl.color
          · exact hr.color

/-- The side of the parent on which the hole is. -/
def linkSide : Context N → Side
  | [] => .left
  | f :: _ => f.side

/-- `rb_link_node` puts a new red node into an empty place. -/
theorem shows_rbLinkNode (h : Shows s ctx .nil) {n : N} (hn : n ∉ ctx.keys) :
    Shows (rbLinkNode n ctx.parent (linkSide ctx) s) ctx (.node .red .nil n .nil) := by
  have hmem : ∀ x, x ≠ n → (s.write n ⟨ctx.parent, .red, none, none⟩).mem x = s.mem x :=
    fun x hx => Function.update_of_ne hx _ _
  have hself : (s.write n ⟨ctx.parent, .red, none, none⟩).mem n = ⟨ctx.parent, .red, none, none⟩ :=
    Function.update_self _ _ _
  have hnodup : ((ColorTree.node .red .nil n .nil).order ++ ctx.keys).Nodup :=
    List.nodup_cons.mpr ⟨hn, h.nodup⟩
  obtain ⟨haround, -, -⟩ := h
  have haround' : HoldsAround (s.write n ⟨ctx.parent, .red, none, none⟩) ctx none :=
    haround.congr rfl fun x hx => hmem x (ne_of_mem_of_not_mem hx hn)
  cases ctx with
  | nil => exact ⟨rfl, ⟨hself, trivial, trivial⟩, hnodup⟩
  | cons f ctx =>
    simp only [Context.parent_cons] at haround' hself
    obtain ⟨hnode, hsibling, hctx⟩ := haround'
    have hne : n ≠ f.key := by
      rintro rfl
      exact hn List.mem_cons_self
    rw [Context.keys_cons, Frame.keys] at hnodup
    simp only [ColorTree.order, List.nil_append, List.cons_append, List.nodup_cons, List.mem_cons, List.mem_append,
      List.nodup_append] at hnodup
    refine ⟨⟨?_, hsibling.congr fun x hx => ?_, hctx.congr rfl fun x hx => ?_⟩, ⟨?_, trivial, trivial⟩, ?_⟩
    · simp only [rbLinkNode, Context.parent_cons, linkSide, Links.mem_setChild, if_true]
      rw [hnode, setChild_linked]
      rfl
    · simp only [rbLinkNode, Context.parent_cons, linkSide, Links.mem_setChild]
      rw [if_neg (by grind)]
    · simp only [rbLinkNode, Context.parent_cons, linkSide, Links.mem_setChild]
      rw [if_neg (by grind)]
    · simp only [rbLinkNode, Context.parent_cons, linkSide, Links.mem_setChild]
      rw [if_neg hne]
      exact hself
    · rw [Context.keys_cons, Frame.keys]
      simp only [ColorTree.order, List.nil_append, List.cons_append, List.nodup_cons, List.mem_cons,
        List.mem_append, List.nodup_append]
      exact hnodup

/-- A new node is linked into an empty place of a balanced tree, and the repair succeeds. -/
theorem rbInsertColor_shows (h : Shows s ctx .nil) {n : N} (hn : n ∉ ctx.keys)
    (hctx : Context.Accepts ctx .black 0) {fuel : ℕ} (hfuel : ctx.length < fuel) :
    ∃ s', rbInsertColor fuel n (rbLinkNode n ctx.parent (linkSide ctx) s) = some s' ∧
      Shows s' [] (Context.insertFix ctx (.node .red .nil n .nil)) := by
  have hlink := shows_rbLinkNode h hn
  have hred : (rbLinkNode n ctx.parent (linkSide ctx) s).redParent n = some ctx.parent := by
    rw [Links.redParent, hlink.tree.1]
    exact if_pos rfl
  rw [rbInsertColor, hred, Option.bind_eq_bind, Option.bind_some]
  exact rbInsertLoop_shows hlink rfl (.red .nil .nil) hctx hfuel

/-- `rb_link_node` at an empty place of a balanced tree and `rb_insert_color` succeed: the new node comes
between the nodes before and behind the place, and the tree is balanced again. -/
theorem rbLinkNode_insertColor (ctx : Context N) (h : Shows s [] (ctx.plug .nil)) {m : ℕ} (hbal : (ctx.plug .nil).Balanced .black m)
    {n : N} (hn : n ∉ (ctx.plug .nil).order) {fuel : ℕ} (hfuel : (ctx.plug .nil).depth < fuel) :
    ∃ s' t, rbInsertColor fuel n (rbLinkNode n ctx.parent (linkSide ctx) s) = some s' ∧ Shows s' [] t ∧
      t.order = ctx.before ++ n :: ctx.after ∧ ∃ k, t.Balanced .black k := by
  rw [(Context.perm_order_plug ctx .nil).mem_iff] at hn
  obtain ⟨k, haccepts, hnil⟩ := Context.accepts_of_plug hbal
  cases hnil
  have hlength := Context.length_add_depth_le ctx .nil
  obtain ⟨s', heq, hs'⟩ := rbInsertColor_shows (shows_plug.mp h) hn haccepts (show ctx.length < fuel by omega)
  refine ⟨s', _, heq, hs', ?_, Context.balanced_insertFix haccepts (.red .nil .nil)⟩
  rw [Context.order_insertFix, Context.order_plug, ColorTree.order, List.append_assoc]
  rfl

end Flos.Rbtree
