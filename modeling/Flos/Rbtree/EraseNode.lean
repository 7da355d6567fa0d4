import Flos.Rbtree.Erase

/-!
# The node that leaves a red-black tree

A node with at most one child leaves its place to the child. Otherwise its successor, which has no left
child, leaves its own place and takes over that of the node. Where the place that is left lacks a black node,
`rb_erase` has the tree repaired.
-/

namespace Flos.Rbtree

open Flos.Lib

variable {N : Type*} [DecidableEq N] {s : Links N} {ctx : Context N}

/-- What is left of a place and the tree around it: the tree is balanced already, or the empty place lacks a
black node and the repair starts above it, with so many rounds left at most. -/
def Unlinked (s : Links N) (rebalance : Option N) (order : List N) (rounds : ℕ) : Prop :=
  ∃ (ctx : Context N) (t : ColorTree N), Shows s ctx t ∧ (ctx.plug t).order = order ∧
    (rebalance = none ∧ (∃ m, (ctx.plug t).Balanced .black m) ∨
      rebalance = ctx.parent ∧ t = .nil ∧ ctx.Accepts .black 1 ∧ ctx.length ≤ rounds)

omit [DecidableEq N] in
/-- The place of a node with at most one child. -/
theorem unlinked_of_detach {s' : Links N} {d : Side} {c : Color} {a : N} {r : ColorTree N} {n : ℕ}
    (hbal : (ColorTree.branch d c .nil a r).Balanced c n) (hctx : ctx.Accepts c n)
    (hshows : Shows s' ctx (r.recolor .black)) {rebalance : Option N}
    (hrebalance : rebalance = if r.root = none ∧ c = .black then ctx.parent else none) {rounds : ℕ}
    (hrounds : ctx.length ≤ rounds) : Unlinked s' rebalance (ctx.plug r).order rounds := by
  refine ⟨ctx, r.recolor .black, hshows, Context.order_plug_congr ctx (ColorTree.order_recolor _ r), ?_⟩
  rcases Context.accepts_of_detach hbal hctx with ⟨hr, -, hwhole⟩ | ⟨rfl, rfl, hwhole⟩ | ⟨rfl, rfl, haccepts⟩
  · refine .inl ⟨?_, hwhole⟩
    rw [hrebalance, if_neg]
    rintro ⟨hnone, -⟩
    cases r with
    | nil => exact hr rfl
    | node => cases hnone
  · refine .inl ⟨?_, hwhole⟩
    rw [hrebalance, if_neg]
    rintro ⟨-, hc⟩
    cases hc
  · exact .inr ⟨hrebalance.trans (if_pos ⟨rfl, rfl⟩), rfl, haccepts, hrounds⟩

/-- Case 1 of `__rb_erase_augmented`, on either side. -/
theorem rbEraseAugmented_one {d : Side} {c : Color} {a : N} {r : ColorTree N} {n : ℕ}
    (h : Shows s ctx (.branch d c .nil a r)) (hbal : (ColorTree.branch d c .nil a r).Balanced c n)
    (hctx : ctx.Accepts c n) {fuel : ℕ} (hfuel : ctx.length ≤ fuel) :
    ∃ s' rebalance, rbEraseAugmented fuel a s = some (s', rebalance) ∧
      Unlinked s' rebalance (ctx.plug r).order fuel := by
  have hnodup := ((ColorTree.perm_order_branch d c .nil a r).append_right ctx.keys).nodup_iff.mp h.nodup
  simp only [ColorTree.order, List.nil_append, List.cons_append, List.nodup_cons, List.nodup_append,
    List.mem_append] at hnodup
  have hmemR : ∀ x, r.root = some x → x ∈ r.order := fun _ => ColorTree.mem_order_of_root
  have hmemP : ∀ x, ctx.parent = some x → x ∈ ctx.keys := fun _ => mem_keys_of_parent
  obtain ⟨hnode, -, hr⟩ := holds_branch.mp h.tree
  have hparent : (s.mem a).parent = ctx.parent := by rw [hnode, parent_linked]
  have hcolor : (s.mem a).color = c := by rw [hnode, color_linked]
  cases hroot : r.root with
  | none =>
    have hnone : ∀ e, s.child e a = none := by
      intro e
      rcases Side.eq_or_flip d e with rfl | rfl
      · rw [Links.child, hnode, child_linked]
        rfl
      · rw [Links.child, hnode, child_flip_linked, hroot]
    refine ⟨s.changeChild a none ctx.parent, _, ?_, unlinked_of_detach hbal hctx ?_ rfl hfuel⟩
    · rw [rbEraseAugmented, hnone, hnone]
      dsimp only
      rw [hparent, hcolor, hroot]
      simp only [true_and]
    · refine h.detach (by rw [hroot]) (fun x _ => by rw [hroot]) (fun x hx => ?_) fun x hx _ =>
        mem_changeChild s (by grind)
      rw [hroot] at hx
      cases hx
  | some x =>
    have hblack : c = .black := by
      rcases Context.accepts_of_detach hbal hctx with ⟨-, hc, -⟩ | ⟨rfl, -⟩ | ⟨rfl, -⟩
      · exact hc
      · cases hroot
      · cases hroot
    subst hblack
    cases d with
    | left =>
      have hleft : s.child .left a = none := by rw [Links.child, hnode]; rfl
      have hright : s.child .right a = some x := by rw [Links.child, hnode, ← hroot]; rfl
      refine ⟨_, none, ?_, @unlinked_of_detach _ _ (copyParentColor (s.changeChild a (some x) ctx.parent) x
        (s.mem a)) _ _ _ _ _ hbal hctx ?_ _ ?_ _ hfuel⟩
      · rw [rbEraseAugmented, hleft, hright]
        dsimp only
        rw [hparent]
      · refine h.detach (by rw [hroot]; rfl) (fun y hy => ?_) (fun y hy => ?_) fun y hy hne => ?_
        · rw [hroot, copyParentColor, Links.mem_setParentColor, if_neg (by grind)]
        · obtain rfl := Option.some.inj (hroot.symm.trans hy)
          rw [copyParentColor, Links.mem_setParentColor, if_pos rfl, mem_changeChild s (by grind), hparent, hcolor]
        · rw [copyParentColor, Links.mem_setParentColor, if_neg (by grind), mem_changeChild s (by grind)]
      · rw [if_neg]
        rintro ⟨hn, -⟩
        rw [hroot] at hn
        cases hn
    | right =>
      have hright : s.child .right a = none := by rw [Links.child, hnode]; rfl
      have hleft : s.child .left a = some x := by rw [Links.child, hnode, ← hroot]; rfl
      refine ⟨_, none, ?_, @unlinked_of_detach _ _ ((copyParentColor s x (s.mem a)).changeChild a (some x)
        ctx.parent) _ _ _ _ _ hbal hctx ?_ _ ?_ _ hfuel⟩
      · rw [rbEraseAugmented, hleft, hright]
        dsimp only
        rw [hparent]
      · refine h.detach (by rw [hroot]; exact root_changeChild_congr rfl) (fun y hy => ?_) (fun y hy => ?_)
          fun y hy hne => ?_
        · rw [hroot]
          refine mem_changeChild_congr ?_ fun p hp => ?_
          · rw [copyParentColor, Links.mem_setParentColor, if_neg (by grind)]
          · rw [copyParentColor, Links.mem_setParentColor, if_neg (by grind)]
        · obtain rfl := Option.some.inj (hroot.symm.trans hy)
          rw [mem_changeChild _ (by grind), copyParentColor, Links.mem_setParentColor, if_pos rfl, hparent, hcolor]
        · rw [mem_changeChild _ (by grind), copyParentColor, Links.mem_setParentColor, if_neg (by grind)]
      · rw [if_neg]
        rintro ⟨hn, -⟩
        rw [hroot] at hn
        cases hn

/-! ## The successor -/

omit [DecidableEq N] in
/-- Going left from the root of a tree ends at its first node. -/
theorem leftmostBelow_spec {p : Option N} {t : ColorTree N} {n : N} (h : Holds s.mem p t) (hn : t.root = some n)
    (q : N) {fuel : ℕ} (hfuel : t.depth ≤ fuel) :
    ∃ (rctx : Context N) (c : Color) (m : N) (r : ColorTree N), t = rctx.plug (.node c .nil m r) ∧
      (∀ f ∈ rctx, f.side = .left) ∧ leftmostBelow s fuel q n = some (rctx.parent.getD q, m) := by
  induction t generalizing p n q fuel with
  | nil => cases hn
  | node c l a r ihl _ =>
    obtain rfl : a = n := Option.some.inj hn
    obtain ⟨hnode, hl, -⟩ := h
    have hchild : s.child .left a = l.root := by rw [Links.child, hnode]; rfl
    rw [ColorTree.depth] at hfuel
    obtain ⟨k, rfl⟩ := Nat.exists_eq_succ_of_ne_zero (show fuel ≠ 0 by omega)
    cases l with
    | nil =>
      refine ⟨[], c, a, r, rfl, by simp, ?_⟩
      rw [leftmostBelow, hchild]
      rfl
    | node c' l' b r' =>
      have hdepth : (ColorTree.node c' l' b r').depth ≤ k := by omega
      obtain ⟨rctx, c₁, m, r₁, hplug, hside, hrun⟩ := ihl hl rfl a hdepth
      refine ⟨rctx ++ [⟨.left, c, a, r⟩], c₁, m, r₁, ?_, fun f hf => ?_, ?_⟩
      · rw [Context.plug_append, ← hplug]
        rfl
      · rcases List.mem_append.mp hf with hf | hf
        · exact hside f hf
        · rw [List.mem_singleton.mp hf]
      · rw [leftmostBelow, hchild]
        refine hrun.trans ?_
        cases rctx <;> rfl

/-- What the end of `__rb_erase_augmented` writes. -/
theorem rbEraseReplace_mem (par : N) {node m lr : N} {P ml mr nr : Option N} {c sc : Color} {q : Option N}
    (child2 : Option N) (hnode : s.mem node = ⟨P, c, nr, some lr⟩) (hm : s.mem m = ⟨q, sc, mr, ml⟩)
    (hnm : node ≠ m) (hlm : lr ≠ m) (hln : lr ≠ node) (hPm : P ≠ some m) (hPl : P ≠ some lr)
    (hcm : child2 ≠ some m) (hcl : child2 ≠ some lr) :
    ∃ s', rbEraseReplace node m par child2 s =
        some (s', if child2 = none ∧ sc = .black then some par else none) ∧
      s'.root = (s.changeChild node (some m) P).root ∧ s'.mem m = ⟨P, c, mr, some lr⟩ ∧
      s'.mem lr = (s.mem lr).moved (some m) (s.mem lr).color ∧
      ∀ x, x ≠ m → x ≠ lr → s'.mem x =
        if child2 = some x then ((s.changeChild node (some m) P).mem x).moved (some par) .black
        else (s.changeChild node (some m) P).mem x := by
  have hleft : s.child .left node = some lr := by rw [Links.child, hnode]; rfl
  generalize hs₂ : (s.setChild m .left (some lr)).setParent lr (some m) = s₂
  have hm₂ : s₂.mem m = ⟨q, sc, mr, some lr⟩ := by
    rw [← hs₂, Links.mem_setParent, if_neg hlm.symm, Links.mem_setChild, if_pos rfl, hm]
    rfl
  have hl₂ : s₂.mem lr = (s.mem lr).moved (some m) (s.mem lr).color := by
    rw [← hs₂, Links.mem_setParent, if_pos rfl, Links.mem_setChild, if_neg hlm]
  have hrest₂ : ∀ x, x ≠ m → x ≠ lr → s₂.mem x = s.mem x := by
    intro x hxm hxl
    rw [← hs₂, Links.mem_setParent, if_neg hxl, Links.mem_setChild, if_neg hxm]
  have hn₂ : s₂.mem node = ⟨P, c, nr, some lr⟩ := (hrest₂ node hnm hln.symm).trans hnode
  have hm₃ : (s₂.changeChild node (some m) P).mem m = ⟨q, sc, mr, some lr⟩ :=
    (mem_changeChild s₂ hPm).trans hm₂
  have hl₃ : (s₂.changeChild node (some m) P).mem lr = (s.mem lr).moved (some m) (s.mem lr).color :=
    (mem_changeChild s₂ hPl).trans hl₂
  have hrest₃ : ∀ x, x ≠ m → x ≠ lr →
      (s₂.changeChild node (some m) P).mem x = (s.changeChild node (some m) P).mem x := by
    intro x hxm hxl
    refine mem_changeChild_congr (hrest₂ x hxm hxl) fun p hp => hrest₂ p ?_ ?_
    · rintro rfl
      exact hPm hp
    · rintro rfl
      exact hPl hp
  have hroot₃ : (s₂.changeChild node (some m) P).root = (s.changeChild node (some m) P).root :=
    root_changeChild_congr (by rw [← hs₂]; rfl)
  cases child2 with
  | none =>
    refine ⟨copyParentColor (s₂.changeChild node (some m) P) m (s₂.mem node), ?_, hroot₃, ?_, ?_,
      fun x hxm hxl => ?_⟩
    · simp only [rbEraseReplace, hleft, Option.bind_eq_bind, Option.bind_some, hs₂, hn₂, hm₃, true_and]
    · rw [copyParentColor, Links.mem_setParentColor, if_pos rfl, hm₃, hn₂]
      rfl
    · rw [copyParentColor, Links.mem_setParentColor, if_neg hlm, hl₃]
    · rw [copyParentColor, Links.mem_setParentColor, if_neg hxm, if_neg (by simp), hrest₃ x hxm hxl]
  | some w =>
    have hwm : w ≠ m := fun heq => hcm (congrArg some heq)
    have hwl : w ≠ lr := fun heq => hcl (congrArg some heq)
    refine ⟨copyParentColor ((s₂.changeChild node (some m) P).setParentColor w (some par) .black) m
      (s₂.mem node), ?_, hroot₃, ?_, ?_, fun x hxm hxl => ?_⟩
    · simp only [rbEraseReplace, hleft, Option.bind_eq_bind, Option.bind_some, hs₂, hn₂, reduceCtorEq, false_and,
        if_false]
    · rw [copyParentColor, Links.mem_setParentColor, if_pos rfl, Links.mem_setParentColor, if_neg hwm.symm, hm₃,
        hn₂]
      rfl
    · rw [copyParentColor, Links.mem_setParentColor, if_neg hlm, Links.mem_setParentColor, if_neg hwl.symm, hl₃]
    · rw [copyParentColor, Links.mem_setParentColor, if_neg hxm, Links.mem_setParentColor]
      by_cases hxw : x = w
      · subst hxw
        rw [if_pos rfl, if_pos rfl, hrest₃ x hxm hxl]
      · rw [if_neg hxw, if_neg fun heq => hxw (Option.some.inj heq).symm, hrest₃ x hxm hxl]

/-! ## A node with two children -/

omit [DecidableEq N] in
/-- The parent of a place below a frame. -/
theorem parent_append_cons (rctx ctx : Context N) (f : Frame N) :
    (rctx ++ f :: ctx).parent = some (rctx.parent.getD f.key) := by
  cases rctx <;> rfl

omit [DecidableEq N] in
/-- On a way that only goes left nothing comes before the place. -/
theorem order_plug_of_left {rctx : Context N} (hleft : ∀ f ∈ rctx, f.side = .left) (t : ColorTree N) :
    (rctx.plug t).order = t.order ++ rctx.after := by
  have hbefore : rctx.before = [] := by
    induction rctx with
    | nil => rfl
    | cons f rctx ih =>
      obtain ⟨d, c, a, u⟩ := f
      obtain rfl : d = .left := hleft _ List.mem_cons_self
      rw [Context.before, ih fun g hg => hleft g (List.mem_cons_of_mem _ hg)]
      rfl
  rw [Context.order_plug, hbefore, List.nil_append]

/-- The end of `__rb_erase_augmented`: a node gives its place to its successor `m`. In `v` the successor has
left its place completely; `s` differs from it in the parents of the child of `m` and of the root of `r`. -/
theorem rbEraseReplace_shows (par : N) {v : Links N} {c sc : Color} {a m lr : N} {l r : ColorTree N}
    {q ml nr child2 : Option N} (h : Shows v ctx (.branch .right c r a l)) (hl : l.root = some lr)
    (hmout : m ∉ r.order ++ l.order ++ ctx.keys) (ham : a ≠ m) (hroot : s.root = v.root)
    (hsame : ∀ x ∈ l.order ++ ctx.keys, s.mem x = v.mem x) (ha : s.mem a = ⟨ctx.parent, c, nr, some lr⟩)
    (hm : s.mem m = ⟨q, sc, r.root, ml⟩) (hchild2 : ∀ x, child2 = some x → x ∈ r.order)
    (hr : ∀ x ∈ r.order, (if child2 = some x then (s.mem x).moved (some par) .black else s.mem x) =
      if r.root = some x then (v.mem x).moved (some m) (v.mem x).color else v.mem x) :
    ∃ s', rbEraseReplace a m par child2 s =
        some (s', if child2 = none ∧ sc = .black then some par else none) ∧
      Shows s' ctx (.branch .right c r m l) := by
  have hnodup := ((ColorTree.perm_order_branch .right c r a l).append_right ctx.keys).nodup_iff.mp h.nodup
  simp only [List.append_assoc, List.cons_append, List.nodup_append, List.nodup_cons, List.mem_append,
    List.mem_cons] at hnodup hmout hsame
  have hmemL : ∀ x, l.root = some x → x ∈ l.order := fun _ => ColorTree.mem_order_of_root
  have hmemP : ∀ x, ctx.parent = some x → x ∈ ctx.keys := fun _ => mem_keys_of_parent
  obtain ⟨s', heq, hroot', hm', hl', hrest⟩ := rbEraseReplace_mem par child2 ha hm ham (by grind)
    (by grind) (by grind) (by grind) (by grind) (by grind)
  have hchange : ∀ x, x ≠ a → x ∉ ctx.keys → (s.changeChild a (some m) ctx.parent).mem x = s.mem x :=
    fun x _ hx => mem_changeChild s fun hp => hx (hmemP x hp)
  refine ⟨s', heq, h.substitute (by grind) ?_ (fun x hx => ?_) (hl ▸ hm') (fun x hx => ?_) fun x hx => ?_⟩
  · rw [hroot', root_changeChild_congr hroot]
  · rw [hrest x (by grind) (by grind), if_neg (by grind)]
    exact mem_changeChild_congr (hsame x (.inr hx)) fun p hp => hsame p (.inr (hmemP p hp))
  · rw [hrest x (by grind) (by grind), hchange x (by grind) (by grind), hr x hx]
  · by_cases hxl : x = lr
    · subst hxl
      rw [if_pos hl, hl', hsame x (.inl hx)]
    · rw [if_neg (by grind), hrest x (by grind) hxl, if_neg (by grind), hchange x (by grind) (by grind),
        hsame x (.inl hx)]

omit [DecidableEq N] in
/-- What hangs lowest does not matter to the root. -/
theorem root_plug_cons (f : Frame N) (ctx : Context N) (t u : ColorTree N) :
    (Context.plug (f :: ctx) t).root = (Context.plug (f :: ctx) u).root := by
  induction ctx generalizing f t u with
  | nil => simp [Frame.fill]
  | cons g ctx ih => exact ih g (f.fill t) (f.fill u)

/-- The successor leaves its place: its parent and its child are told. -/
theorem shows_unlinkSuccessor (rctx : Context N) {c sc : Color} {a m p : N} {l sr : ColorTree N}
    (h : Shows s (rctx ++ ⟨.right, c, a, l⟩ :: ctx) (.node sc .nil m sr)) (hp : rctx.parent.getD a = p) :
    Shows ((s.changeChild m sr.root (some p)).setParentColorIf sr.root (some p) .black) ctx
      (.branch .right c (rctx.plug (sr.recolor .black)) a l) := by
  have hparent : (rctx ++ ⟨.right, c, a, l⟩ :: ctx).parent = some p :=
    (parent_append_cons rctx ctx _).trans (congrArg some hp)
  have hnodup := h.nodup
  simp only [ColorTree.order, List.nil_append, List.cons_append, List.nodup_cons, List.nodup_append,
    List.mem_append] at hnodup
  have hmemS : ∀ x, sr.root = some x → x ∈ sr.order := fun _ => ColorTree.mem_order_of_root
  have hmemP : ∀ x, some p = some x → x ∈ (rctx ++ ⟨.right, c, a, l⟩ :: ctx).keys :=
    fun x hx => mem_keys_of_parent (hparent.trans hx)
  have hdetach : Shows ((s.changeChild m sr.root (some p)).setParentColorIf sr.root (some p) .black)
      (rctx ++ ⟨.right, c, a, l⟩ :: ctx) (sr.recolor .black) := by
    refine Shows.detach (d := .left) h ?_ (fun x hx => ?_) (fun x hx => ?_) fun x hx hne => ?_
    · rw [hparent]
      simp
    · rw [hparent, Links.mem_setParentColorIf, if_neg (by grind)]
    · rw [hparent, Links.mem_setParentColorIf, if_pos hx, mem_changeChild s (by grind)]
    · rw [Links.mem_setParentColorIf, if_neg hne, mem_changeChild s (by grind)]
  rw [← shows_plug, Context.plug_append] at hdetach
  exact shows_plug.mp hdetach

/-- Case 2 of `__rb_erase_augmented`: the successor is the right child. -/
theorem rbEraseAugmented_next {c sc : Color} {a m lr : N} {l sr : ColorTree N}
    (h : Shows s (⟨.right, c, a, l⟩ :: ctx) (.node sc .nil m sr)) (hl : l.root = some lr) (fuel : ℕ) :
    ∃ s', rbEraseAugmented fuel a s =
        some (s', if sr.root = none ∧ sc = .black then some m else none) ∧
      Shows s' ctx (.branch .right c (sr.recolor .black) m l) := by
  have hnodup := h.nodup
  simp only [ColorTree.order, List.nil_append, List.cons_append, List.nodup_cons, List.nodup_append,
    List.mem_append, Context.keys_cons, Frame.keys, List.mem_cons] at hnodup
  have hmemS : ∀ x, sr.root = some x → x ∈ sr.order := fun _ => ColorTree.mem_order_of_root
  obtain ⟨⟨hnode, -, -⟩, ⟨hm, -, -⟩, -⟩ := id h
  have hunlink : Shows ((s.changeChild m sr.root (some a)).setParentColorIf sr.root (some a) .black) ctx
      (.branch .right c (sr.recolor .black) a l) := shows_unlinkSuccessor [] h rfl
  have hsame : ∀ x, x ≠ a → ((s.changeChild m sr.root (some a)).setParentColorIf sr.root (some a) .black).mem x =
      if sr.root = some x then (s.mem x).moved (some a) .black else s.mem x := by
    intro x hx
    rw [Links.mem_setParentColorIf, mem_changeChild s fun hp => hx (Option.some.inj hp).symm]
  have hroot : (sr.recolor .black).root = sr.root := ColorTree.root_recolor _ _
  have horder : (sr.recolor .black).order = sr.order := ColorTree.order_recolor _ _
  obtain ⟨s', heq, hs'⟩ := rbEraseReplace_shows m hunlink hl (by rw [horder]; grind) (by grind)
    (s := s) (by simp) (fun x hx => ((hsame x (by grind)).trans (if_neg (by grind))).symm) (hl ▸ hnode)
    (hroot.symm ▸ hm) (fun x hx => horder.symm ▸ hmemS x hx) fun x hx => by
      rw [horder] at hx
      rw [hroot, hsame x (by grind)]
      by_cases hxr : sr.root = some x
      · simp only [if_pos hxr]
        rfl
      · simp only [if_neg hxr]
  refine ⟨s', ?_, hs'⟩
  rw [rbEraseAugmented, show s.child .left a = some lr by rw [Links.child, hnode, ← hl]; rfl,
    show s.child .right a = some m by rw [Links.child, hnode]; rfl]
  dsimp only
  rw [show s.child .left m = none by rw [Links.child, hm]; rfl,
    show s.child .right m = sr.root by rw [Links.child, hm]; rfl]
  exact heq

/-- Case 3 of `__rb_erase_augmented`: the successor is further down. -/
theorem rbEraseAugmented_below {f : Frame N} {rctx : Context N} {c sc : Color} {a m lr rr : N}
    {l sr : ColorTree N} {fuel : ℕ} (h : Shows s (f :: rctx ++ ⟨.right, c, a, l⟩ :: ctx) (.node sc .nil m sr))
    (hl : l.root = some lr) (hf : f.side = .left)
    (hrr : (Context.plug (f :: rctx) (.node sc .nil m sr)).root = some rr)
    (hrun : leftmostBelow s (fuel + 1) rr rr = some (f.key, m)) :
    ∃ s', rbEraseAugmented fuel a s =
        some (s', if sr.root = none ∧ sc = .black then some f.key else none) ∧
      Shows s' ctx (.branch .right c (Context.plug (f :: rctx) (sr.recolor .black)) m l) := by
  have hwhole : Shows s (⟨.right, c, a, l⟩ :: ctx) (Context.plug (f :: rctx) (.node sc .nil m sr)) := by
    rwa [← shows_plug, Context.plug_append, shows_plug] at h
  obtain ⟨⟨hnode, -, -⟩, -, -⟩ := hwhole
  obtain ⟨⟨hpar, -, -⟩, ⟨hm, -, -⟩, -⟩ := id h
  have hroot : (Context.plug (f :: rctx) (sr.recolor .black)).root = some rr :=
    (root_plug_cons f rctx _ _).trans hrr
  have horder : ∀ x, x ∈ (Context.plug (f :: rctx) (sr.recolor .black)).order ↔
      x ∈ sr.order ∨ x ∈ Context.keys (f :: rctx) := by
    intro x
    rw [(Context.perm_order_plug (f :: rctx) _).mem_iff, ColorTree.order_recolor, List.mem_append]
  have hrrmem : rr ∈ Context.keys (f :: rctx) := by
    have := ColorTree.mem_order_of_root ((root_plug_cons f rctx .nil _).trans hrr)
    rwa [(Context.perm_order_plug (f :: rctx) _).mem_iff] at this
  have hfmem : f.key ∈ Context.keys (f :: rctx) := List.mem_append_left _ List.mem_cons_self
  have hmemS : ∀ x, sr.root = some x → x ∈ sr.order := fun _ => ColorTree.mem_order_of_root
  have hnodup := h.nodup
  rw [Context.keys_append, Context.keys_cons ⟨.right, c, a, l⟩] at hnodup
  simp only [ColorTree.order, List.nil_append, List.cons_append, List.nodup_cons, List.nodup_append,
    List.mem_append, Frame.keys, List.mem_cons] at hnodup
  -- the successor has left its place
  have hchange : s.changeChild m sr.root (some f.key) = s.setChild f.key .left sr.root := by
    refine if_pos ?_
    rw [Links.child, hpar, hf]
    rfl
  have hunlink : Shows ((s.setChild f.key .left sr.root).setParentColorIf sr.root (some f.key) .black) ctx
      (.branch .right c (Context.plug (f :: rctx) (sr.recolor .black)) a l) :=
    hchange ▸ shows_unlinkSuccessor _ h rfl
  generalize hs₁ : s.setChild f.key .left sr.root = s₁ at hunlink
  have hmem₁ : ∀ x, x ≠ f.key → s₁.mem x = s.mem x := by
    intro x hx
    rw [← hs₁, Links.mem_setChild, if_neg hx]
  have hv : ∀ x, (s₁.setParentColorIf sr.root (some f.key) .black).mem x =
      if sr.root = some x then (s₁.mem x).moved (some f.key) .black else s₁.mem x :=
    Links.mem_setParentColorIf _ _ _ _
  generalize hs₀ : (s₁.setChild m .right (some rr)).setParent rr (some m) = s₀
  have hmem₀ : ∀ x, x ≠ m → s₀.mem x = if x = rr then (s₁.mem x).moved (some m) (s₁.mem x).color else s₁.mem x := by
    intro x hx
    rw [← hs₀, Links.mem_setParent, Links.mem_setChild, Links.mem_setChild, if_neg hx]
    by_cases hxr : x = rr
    · subst hxr
      rw [if_pos rfl, if_pos rfl, if_neg hx]
    · rw [if_neg hxr, if_neg hxr]
  have hm₀ : s₀.mem m = ⟨some f.key, sc, some rr, none⟩ := by
    rw [← hs₀, Links.mem_setParent, if_neg (by grind), Links.mem_setChild, if_pos rfl, hmem₁ m (by grind), hm]
    rfl
  have hout : ∀ x, x ≠ m → x ∉ sr.order → x ∉ Context.keys (f :: rctx) →
      s₀.mem x = s.mem x ∧ (s₁.setParentColorIf sr.root (some f.key) .black).mem x = s.mem x := by
    intro x hxm hxs hxk
    rw [hmem₀ x hxm, if_neg (by grind), hv, if_neg (by grind), hmem₁ x (by grind)]
    exact ⟨rfl, rfl⟩
  obtain ⟨s', heq, hs'⟩ := rbEraseReplace_shows f.key (s := s₀) hunlink hl
    (by simp only [List.mem_append, horder]; grind) (by grind)
    (by rw [Links.root_setParentColorIf, ← hs₀]; rfl)
    (fun x hx => by
      rw [List.mem_append] at hx
      obtain ⟨h₀, h₁⟩ := hout x (by grind) (by grind) (by grind)
      exact h₀.trans h₁.symm)
    (by rw [(hout a (by grind) (by grind) (by grind)).1, hnode, ← hl]; rfl) (hroot.symm ▸ hm₀)
    (fun x hx => (horder x).mpr (.inl (hmemS x hx)))
    (fun x hx => by
      have hxm : x ≠ m := by
        rintro rfl
        exact (hnodup.1 <| ((horder x).mp hx).imp_right .inl)
      rw [hroot, hv, hmem₀ x hxm]
      by_cases hxr : x = rr
      · subst hxr
        have hxs : sr.root ≠ some x := by grind
        simp only [if_neg hxs, if_true]
      · have hxr' : some rr ≠ some x := fun heq => hxr (Option.some.inj heq).symm
        simp only [if_neg hxr', if_neg hxr])
  refine ⟨s', ?_, hs'⟩
  rw [rbEraseAugmented, show s.child .left a = some lr by rw [Links.child, hnode, ← hl]; rfl,
    show s.child .right a = some rr by rw [Links.child, hnode, ← hrr]; rfl]
  dsimp only
  rw [leftmostBelow] at hrun
  cases hchild : s.child .left rr with
  | none =>
    rw [hchild] at hrun
    have hmr : m = rr := (congrArg Prod.snd (Option.some.inj hrun)).symm
    exact absurd (.inr (.inl (hmr ▸ hrrmem))) hnodup.1
  | some tmp =>
    rw [hchild] at hrun
    dsimp only at hrun ⊢
    rw [hrun, Option.bind_eq_bind, Option.bind_some]
    dsimp only
    rw [show s.child .right m = sr.root by rw [Links.child, hm]; rfl, hs₁, hs₀]
    exact heq

/-- Cases 2 and 3 of `__rb_erase_augmented`. -/
theorem rbEraseAugmented_two {c : Color} {a lr : N} {l r : ColorTree N} {k : ℕ}
    (h : Shows s ctx (.node c l a r)) (hl : l.root = some lr) (hr : r ≠ .nil)
    (hbal : (ctx.plug (.node c l a r)).Balanced .black k) {fuel : ℕ}
    (hfuel : (ctx.plug (.node c l a r)).depth ≤ fuel) :
    ∃ s' rebalance, rbEraseAugmented fuel a s = some (s', rebalance) ∧
      Unlinked s' rebalance (ctx.before ++ (l.order ++ r.order) ++ ctx.after) fuel := by
  obtain ⟨rr, hrr⟩ : ∃ rr, r.root = some rr := by
    cases r with
    | nil => exact absurd rfl hr
    | node c' l' b r' => exact ⟨b, rfl⟩
  have hdepth := Context.length_add_depth_le ctx (.node c l a r)
  rw [ColorTree.depth] at hdepth
  have hrdepth : r.depth ≤ fuel + 1 := by omega
  obtain ⟨rctx, sc, m, sr, rfl, hleft, hrun⟩ := leftmostBelow_spec h.tree.2.2 hrr rr hrdepth
  have hplug : ∀ b t, ctx.plug (.node c l b (rctx.plug t)) = (rctx ++ ⟨.right, c, b, l⟩ :: ctx).plug t := by
    intro b t
    rw [Context.plug_append]
    rfl
  have hK : Shows s (rctx ++ ⟨.right, c, a, l⟩ :: ctx) (.node sc .nil m sr) := by
    rw [← shows_plug, ← hplug, shows_plug]
    exact h
  rw [hplug] at hbal hfuel
  have hrounds : (rctx ++ ⟨.right, c, m, l⟩ :: ctx).length ≤ fuel := by
    have hlength := Context.length_add_depth_le (rctx ++ ⟨.right, c, a, l⟩ :: ctx) (.node sc .nil m sr)
    simp only [List.length_append, List.length_cons] at hlength ⊢
    omega
  obtain ⟨n, hctx, hplace⟩ := Context.accepts_of_plug hbal
  have horder : ((rctx ++ ⟨.right, c, m, l⟩ :: ctx).plug sr).order =
      ctx.before ++ (l.order ++ (rctx.plug (.node sc .nil m sr)).order) ++ ctx.after := by
    rw [← hplug, Context.order_plug, ColorTree.order, order_plug_of_left hleft, order_plug_of_left hleft]
    simp [ColorTree.order]
  have hfinish : ∀ s' : Links N, Shows s' ctx (.branch .right c (rctx.plug (sr.recolor .black)) m l) →
      Unlinked s' (if sr.root = none ∧ sc = .black then some (rctx.parent.getD m) else none)
        (ctx.before ++ (l.order ++ (rctx.plug (.node sc .nil m sr)).order) ++ ctx.after) fuel := by
    intro s' hs'
    rw [← horder]
    refine @unlinked_of_detach _ (rctx ++ ⟨.right, c, m, l⟩ :: ctx) s' .left sc m sr n hplace hctx.rekey ?_ _ ?_
      _ hrounds
    · rw [← shows_plug, ← hplug, shows_plug]
      exact hs'
    · rw [parent_append_cons]
  cases rctx with
  | nil =>
    obtain ⟨s', heq, hs'⟩ := rbEraseAugmented_next hK hl fuel
    exact ⟨s', _, heq, hfinish s' hs'⟩
  | cons f rctx =>
    obtain ⟨s', heq, hs'⟩ := rbEraseAugmented_below hK hl (hleft f List.mem_cons_self) hrr hrun
    exact ⟨s', _, heq, hfinish s' hs'⟩

/-! ## Erasure -/

/-- `rb_erase` takes a node out of a balanced tree: it succeeds, the other nodes keep their order, and the
tree is balanced again. -/
theorem rbErase_shows {c : Color} {a : N} {l r : ColorTree N} {k : ℕ} (h : Shows s ctx (.node c l a r))
    (hbal : (ctx.plug (.node c l a r)).Balanced .black k) {fuel : ℕ}
    (hfuel : (ctx.plug (.node c l a r)).depth ≤ fuel) :
    ∃ s' t, rbErase fuel a s = some s' ∧ Shows s' [] t ∧
      t.order = ctx.before ++ (l.order ++ r.order) ++ ctx.after ∧ ∃ m, t.Balanced .black m := by
  have hunlinked : ∃ s' rebalance, rbEraseAugmented fuel a s = some (s', rebalance) ∧
      Unlinked s' rebalance (ctx.before ++ (l.order ++ r.order) ++ ctx.after) fuel := by
    obtain ⟨n, hctx, hplace⟩ := Context.accepts_of_plug hbal
    have hrounds : ctx.length ≤ fuel :=
      (Nat.le_add_right _ _).trans ((Context.length_add_depth_le ctx _).trans hfuel)
    cases hl : l.root with
    | none =>
      obtain rfl : l = .nil := by
        cases l with
        | nil => rfl
        | node => cases hl
      have hone := rbEraseAugmented_one (d := .left) h hplace hctx hrounds
      rwa [Context.order_plug] at hone
    | some lr =>
      by_cases hr : r = .nil
      · subst hr
        have hone := rbEraseAugmented_one (d := .right) h hplace hctx hrounds
        rw [Context.order_plug] at hone
        rwa [ColorTree.order, List.append_nil]
      · exact rbEraseAugmented_two h hl hr hbal hfuel
  obtain ⟨s', rebalance, heq, ctx', t, hs', horder, hcase⟩ := hunlinked
  rw [rbErase, heq, Option.bind_eq_bind, Option.bind_some]
  rcases hcase with ⟨rfl, hwhole⟩ | ⟨rfl, rfl, haccepts, hrounds⟩
  · exact ⟨s', _, rfl, shows_plug.mpr hs', horder, hwhole⟩
  · cases ctx' with
    | nil => exact ⟨s', _, rfl, hs', horder, 0, .nil⟩
    | cons f ctx' =>
      obtain ⟨s'', hrun, hs''⟩ := rbEraseColorLoop_shows hs' .nil haccepts (Nat.lt_of_succ_le hrounds)
      exact ⟨s'', _, hrun, hs'', (Context.order_eraseFix _ _).trans horder, Context.balanced_eraseFix haccepts .nil⟩

/-- `rb_erase` of a node in a balanced tree succeeds: the other nodes keep their order, and the tree is
balanced again. -/
theorem rbErase_order {t : ColorTree N} {a : N} {k : ℕ} (h : Shows s [] t) (hbal : t.Balanced .black k)
    (ha : a ∈ t.order) {fuel : ℕ} (hfuel : t.depth ≤ fuel) :
    ∃ s' u, rbErase fuel a s = some s' ∧ Shows s' [] u ∧ u.order = t.order.erase a ∧
      ∃ m, u.Balanced .black m := by
  have hnodup := (List.nodup_append.mp h.nodup).1
  obtain ⟨ctx, c, l, r, rfl⟩ := Context.exists_plug ha
  obtain ⟨s', u, heq, hshows, horder, hbalanced⟩ := rbErase_shows (shows_plug.mp h) hbal hfuel
  refine ⟨s', u, heq, hshows, ?_, hbalanced⟩
  rw [Context.order_plug, ColorTree.order] at hnodup ⊢
  simp only [List.append_assoc, List.cons_append] at hnodup horder ⊢
  rw [horder, List.erase_append_right _ (by grind), List.erase_append_right _ (by grind), List.erase_cons_head]

/-! ## Replacement -/

/-- `rb_replace_node`. -/
def rbReplaceNode (victim new : N) (s : Links N) : Links N :=
  let parent := (s.mem victim).parent
  let s := s.write new (s.mem victim)
  let s := (s.child .left victim).elim s fun child => s.setParent child (some new)
  let s := (s.child .right victim).elim s fun child => s.setParent child (some new)
  s.changeChild victim (some new) parent

/-- `rb_replace_node` puts a node from outside into the place of another, with its colour and children. -/
theorem rbReplaceNode_shows {c : Color} {a b : N} {l r : ColorTree N} (h : Shows s ctx (.node c l a r))
    (hb : b ∉ (ctx.plug (.node c l a r)).order) :
    Shows (rbReplaceNode a b s) ctx (.node c l b r) := by
  rw [(Context.perm_order_plug ctx _).mem_iff, ColorTree.order] at hb
  have hnodup := h.nodup
  simp only [ColorTree.order, List.append_assoc, List.cons_append, List.mem_append, List.mem_cons, List.nodup_append,
    List.nodup_cons] at hb hnodup
  have hmemL : ∀ x, l.root = some x → x ∈ l.order := fun _ => ColorTree.mem_order_of_root
  have hmemR : ∀ x, r.root = some x → x ∈ r.order := fun _ => ColorTree.mem_order_of_root
  have hmemP : ∀ x, ctx.parent = some x → x ∈ ctx.keys := fun _ => mem_keys_of_parent
  obtain ⟨hnode, -, -⟩ := h.tree
  generalize hs₀ : s.write b (s.mem a) = s₀
  have hmem₀ : ∀ x, s₀.mem x = if x = b then s.mem a else s.mem x := by
    intro x
    rw [← hs₀, Links.mem_write, Function.update_apply]
  have hleft : s₀.child .left a = l.root := by
    rw [Links.child, hmem₀, if_neg (by grind), hnode]
    rfl
  generalize hs₁ : l.root.elim s₀ (fun child => s₀.setParent child (some b)) = s₁
  have hmem₁ : ∀ x, s₁.mem x = if l.root = some x then (s₀.mem x).moved (some b) (s₀.mem x).color else s₀.mem x :=
    fun x => hs₁ ▸ Links.mem_setParent_elim s₀ l.root (some b) x
  have hright : s₁.child .right a = r.root := by
    rw [Links.child, hmem₁, if_neg (by grind), hmem₀, if_neg (by grind), hnode]
    rfl
  generalize hs₂ : r.root.elim s₁ (fun child => s₁.setParent child (some b)) = s₂
  have hmem₂ : ∀ x, s₂.mem x = if r.root = some x then (s₁.mem x).moved (some b) (s₁.mem x).color else s₁.mem x :=
    fun x => hs₂ ▸ Links.mem_setParent_elim s₁ r.root (some b) x
  have hroot₂ : s₂.root = s.root := by
    rw [← hs₂, Links.root_setParent_elim, ← hs₁, Links.root_setParent_elim, ← hs₀]
    rfl
  have heq : rbReplaceNode a b s = s₂.changeChild a (some b) ctx.parent := by
    have hparent : (s.mem a).parent = ctx.parent := by rw [hnode]
    simp only [rbReplaceNode, hs₀, hleft, hs₁, hright, hs₂, hparent]
  have hout : ∀ x ∈ ctx.keys, s₂.mem x = s.mem x := by
    intro x hx
    rw [hmem₂, if_neg (by grind), hmem₁, if_neg (by grind), hmem₀, if_neg (by grind)]
  have hchange : ∀ x, x ∉ ctx.keys → (s₂.changeChild a (some b) ctx.parent).mem x = s₂.mem x :=
    fun x hx => mem_changeChild s₂ fun hp => hx (hmemP x hp)
  rw [heq]
  refine Shows.substitute (d := .left) h (by grind) (root_changeChild_congr hroot₂)
    (fun x hx => mem_changeChild_congr (hout x hx) fun p hp => hout p (hmemP p hp)) ?_ (fun x hx => ?_) fun x hx => ?_
  · rw [hchange b (by grind), hmem₂, if_neg (by grind), hmem₁, if_neg (by grind), hmem₀, if_pos rfl, hnode]
    rfl
  · have hxb : x ≠ b := by grind
    rw [hchange x (by grind), hmem₂, if_neg (by grind), hmem₁]
    simp only [hmem₀, if_neg hxb]
  · have hxb : x ≠ b := by grind
    have hxl : l.root ≠ some x := by grind
    rw [hchange x (by grind), hmem₂]
    simp only [hmem₁, if_neg hxl, hmem₀, if_neg hxb]

end Flos.Rbtree
