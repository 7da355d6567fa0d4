import Flos.Rbtree.Links

/-!
# Erasure from a red-black tree

`rb_erase` takes a node out, or its successor when it has two children, and hands the parent of the place
that lacks a black node to `____rb_erase_color`. The two halves of that loop are one with a side.
-/

namespace Flos.Rbtree

open Flos.Lib

variable {N : Type*} [DecidableEq N]

/-- Write the word with the parent and the colour of another node. -/
def copyParentColor (s : Links N) (a : N) (pc : RbNode N) : Links N := s.setParentColor a pc.parent pc.color

/-- The loop of `__rb_erase_augmented` that goes left from `successor`: the last node and its parent. -/
def leftmostBelow (s : Links N) : ℕ → N → N → Option (N × N)
  | 0, _, _ => none
  | fuel + 1, parent, successor =>
    match s.child .left successor with
    | none => some (parent, successor)
    | some tmp => leftmostBelow s fuel successor tmp

/-- The end of `__rb_erase_augmented` for a node with two children: the successor, which is unlinked from
its place, takes over the place of the node, and `parent` gets the child of the successor. -/
def rbEraseReplace (node successor parent : N) (child2 : Option N) (s : Links N) :
    Option (Links N × Option N) := do
  let tmp ← s.child .left node
  let s := s.setChild successor .left (some tmp)
  let s := s.setParent tmp (some successor)
  let pc := s.mem node
  let s := s.changeChild node (some successor) pc.parent
  match child2 with
  | some child2 =>
    let s := s.setParentColor child2 (some parent) .black
    some (copyParentColor s successor pc, none)
  | none =>
    let rebalance := if (s.mem successor).color = .black then some parent else none
    some (copyParentColor s successor pc, rebalance)

/-- `__rb_erase_augmented` without callbacks: the links, and the node below which to repair the tree. -/
def rbEraseAugmented (fuel : ℕ) (node : N) (s : Links N) : Option (Links N × Option N) :=
  match s.child .left node, s.child .right node with
  | none, child =>
    -- Case 1
    let pc := s.mem node
    let parent := pc.parent
    let s := s.changeChild node child parent
    match child with
    | some child => some (copyParentColor s child pc, none)
    | none => some (s, if pc.color = .black then parent else none)
  | some tmp, none =>
    -- Case 1 with the other child
    let pc := s.mem node
    let s := copyParentColor s tmp pc
    some (s.changeChild node (some tmp) pc.parent, none)
  | some _, some child =>
    match s.child .left child with
    | none =>
      -- Case 2
      rbEraseReplace node child child (s.child .right child) s
    | some tmp => do
      -- Case 3
      let (parent, successor) ← leftmostBelow s fuel child tmp
      let child2 := s.child .right successor
      let s := s.setChild parent .left child2
      let s := s.setChild successor .right (some child)
      let s := s.setParent child (some successor)
      rbEraseReplace node successor parent child2 s

/-- Case 4 of `____rb_erase_color`, with the node on the side `d` of the parent. -/
def rbEraseRotate (d : Side) (parent sibling : N) (tmp1 : Option N) (s : Links N) : Option (Links N) := do
  let tmp1 ← tmp1
  let tmp2 := s.child d sibling
  let s := s.setChild parent d.flip tmp2
  let s := s.setChild sibling d (some parent)
  let s := s.setParentColor tmp1 (some sibling) .black
  let s := tmp2.elim s fun tmp2 => s.setParent tmp2 (some parent)
  some (s.rotateSetParents parent sibling .black)

/-- Case 1 of `____rb_erase_color`: the links and the new sibling. -/
def rbEraseLift (d : Side) (parent sibling : N) (s : Links N) : Option (Links N × N) := do
  let tmp1 ← s.child d sibling
  let s := s.setChild parent d.flip (some tmp1)
  let s := s.setChild sibling d (some parent)
  let s := s.setParentColor tmp1 (some parent) .black
  some (s.rotateSetParents parent sibling .red, tmp1)

/-- Cases 2 to 4 of `____rb_erase_color`: the links, and whether the parent was black in case 2, so that the
tree above it lacks a black node. -/
def rbEraseSibling (d : Side) (parent sibling : N) (s : Links N) : Option (Links N × Bool) :=
  let tmp1 := s.child d.flip sibling
  if s.IsRed tmp1 then do
    some (← rbEraseRotate d parent sibling tmp1 s, false)
  else
    let tmp2 := s.child d sibling
    if s.IsRed tmp2 then do
      -- Case 3
      let tmp2 ← tmp2
      let tmp1 := s.child d.flip tmp2
      let s := s.setChild sibling d tmp1
      let s := s.setChild tmp2 d.flip (some sibling)
      let s := s.setChild parent d.flip (some tmp2)
      let s := s.setParentColorIf tmp1 (some sibling) .black
      some (← rbEraseRotate d parent tmp2 (some sibling) s, false)
    else
      -- Case 2
      let s := s.setParentColor sibling (some parent) .red
      if (s.mem parent).color = .red then some (s.setBlack parent, false)
      else some (s, true)

/-- The loop of `____rb_erase_color`, for so many rounds; no result if they do not suffice or `NULL` is
dereferenced. -/
def rbEraseColorLoop : ℕ → Option N → N → Links N → Option (Links N)
  | 0, _, _, _ => none
  | fuel + 1, node, parent, s => do
    let d : Side := if s.child .right parent ≠ node then .left else .right
    let sibling ← s.child d.flip parent
    let (s, sibling) ←
      if (s.mem sibling).color = .red then rbEraseLift d parent sibling s else some (s, sibling)
    let (s, lacks) ← rbEraseSibling d parent sibling s
    if lacks then
      match (s.mem parent).parent with
      | some gparent => rbEraseColorLoop fuel (some parent) gparent s
      | none => some s
    else some s

/-- `rb_erase`. -/
def rbErase (fuel : ℕ) (node : N) (s : Links N) : Option (Links N) := do
  let (s, rebalance) ← rbEraseAugmented fuel node s
  match rebalance with
  | some parent => rbEraseColorLoop fuel none parent s
  | none => some s

variable {s : Links N} {ctx : Context N} {t near far : ColorTree N} {d : Side} {P S : N}

/-- What case 4 writes before the parent above is told. -/
theorem rbEraseRotate_mem {q r x y z : Option N} {cp cs : Color} {w : N} (hP : s.mem P = RbNode.linked d q cp x y)
    (hS : s.mem S = RbNode.linked d r cs z (some w)) (hPS : P ≠ S) (hwP : w ≠ P) (hwS : w ≠ S)
    (hzP : z ≠ some P) (hzS : z ≠ some S) (hzw : z ≠ some w) :
    ∃ s₁ : Links N, rbEraseRotate d P S (some w) s = some (s₁.changeChild P (some S) q) ∧ s₁.root = s.root ∧
      s₁.mem S = RbNode.linked d q cp (some P) (some w) ∧ s₁.mem P = RbNode.linked d (some S) .black x z ∧
      s₁.mem w = (s.mem w).moved (some S) .black ∧
      ∀ v, v ≠ S → v ≠ P → v ≠ w →
        s₁.mem v = if z = some v then (s.mem v).moved (some P) (s.mem v).color else s.mem v := by
  have htmp : s.child d S = z := by rw [Links.child, hS, child_linked]
  generalize hs₀ : ((s.setChild P d.flip z).setChild S d (some P)).setParentColor w (some S) .black = s₀
  have hP₀ : s₀.mem P = RbNode.linked d q cp x z := by
    rw [← hs₀, Links.mem_setParentColor, if_neg hwP.symm, Links.mem_setChild, if_neg hPS, Links.mem_setChild,
      if_pos rfl, hP, setChild_flip_linked]
  have hS₀ : s₀.mem S = RbNode.linked d r cs (some P) (some w) := by
    rw [← hs₀, Links.mem_setParentColor, if_neg hwS.symm, Links.mem_setChild, if_pos rfl, Links.mem_setChild,
      if_neg hPS.symm, hS, setChild_linked]
  have hw₀ : s₀.mem w = (s.mem w).moved (some S) .black := by
    rw [← hs₀, Links.mem_setParentColor, if_pos rfl, Links.mem_setChild, if_neg hwS, Links.mem_setChild,
      if_neg hwP]
  have hrest₀ : ∀ v, v ≠ S → v ≠ P → v ≠ w → s₀.mem v = s.mem v := by
    intro v hvS hvP hvw
    rw [← hs₀, Links.mem_setParentColor, if_neg hvw, Links.mem_setChild, if_neg hvS, Links.mem_setChild,
      if_neg hvP]
  generalize hs₂ : z.elim s₀ (fun tmp2 => s₀.setParent tmp2 (some P)) = s₂
  have hmem₂ : ∀ v, s₂.mem v = if z = some v then (s₀.mem v).moved (some P) (s₀.mem v).color else s₀.mem v :=
    fun v => hs₂ ▸ Links.mem_setParent_elim s₀ z (some P) v
  have hroot₂ : s₂.root = s.root := by
    rw [← hs₂, Links.root_setParent_elim, ← hs₀]
    rfl
  obtain ⟨s₁, heq, hroot, hS₁, hP₁, hrest⟩ := rotateSetParents_eq (c := .black) (s := s₂) hPS.symm
    (by rw [hmem₂, if_neg hzP, hP₀]) (by rw [hmem₂, if_neg hzS, hS₀])
  refine ⟨s₁, ?_, hroot.trans hroot₂, hS₁, hP₁, ?_, fun v hvS hvP hvw => ?_⟩
  · simp only [rbEraseRotate, Option.bind_eq_bind, Option.bind_some, htmp, hs₀, hs₂, heq]
  · rw [hrest w hwS hwP, hmem₂, if_neg hzw, hw₀]
  · rw [hrest v hvS hvP, hmem₂, hrest₀ v hvS hvP hvw]

/-- Case 4: a red far nephew. -/
theorem rbEraseRotate_shows {cs cp : Color} {w : N} (h : Shows s (⟨d, cp, P, .branch d cs near S far⟩ :: ctx) t)
    (hw : far.root = some w) :
    ∃ s', rbEraseRotate d P S far.root s = some s' ∧
      Shows s' ctx (.branch d cp (.branch d .black t P near) S (far.recolor .black)) := by
  have hfar : Shows s (⟨d.flip, cs, S, near⟩ :: ⟨d.flip, cp, P, t⟩ :: ctx) far :=
    shows_swap.mp (shows_fill.mpr (shows_swap.mp h))
  have hnodup := hfar.nodup
  simp only [Context.keys_cons, Frame.keys, List.nodup_append, List.nodup_cons, List.mem_append,
    List.mem_cons] at hnodup
  have hmemFar : ∀ x, far.root = some x → x ∈ far.order := fun _ => ColorTree.mem_order_of_root
  have hmemNear : ∀ x, near.root = some x → x ∈ near.order := fun _ => ColorTree.mem_order_of_root
  have hplaces := hfar
  obtain ⟨⟨hnodeS, hn, hnodeP, ht, -⟩, hf, -⟩ := hplaces
  dsimp only [linked_flip] at hnodeS hn hnodeP ht
  rw [linked_flip] at hnodeS hnodeP
  rw [hw] at hnodeS
  obtain ⟨s₁, heq, hroot, hS₁, hP₁, hw₁, hrest⟩ := rbEraseRotate_mem hnodeP hnodeS (by grind) (by grind)
    (by grind) (by grind) (by grind) (by grind)
  have hrotate := hfar.rotate hroot (by rw [linked_flip, hw, hS₁]) (by rw [linked_flip, hP₁])
    (fun x hx => by
      rw [hrest x (by grind) (by grind) (by grind), if_pos hx, hn.color_root hx])
    (fun x hx => by
      obtain rfl := Option.some.inj (hw.symm.trans hx)
      exact hw₁)
    (fun x hxS hxP hxn hxf => by
      rw [hrest x hxS hxP (by grind), if_neg hxn])
  rw [ColorTree.recolor_of_color rfl, ColorTree.branch_flip, ColorTree.branch_flip] at hrotate
  exact ⟨_, hw ▸ heq, hrotate⟩

/-- Cases 3 and 4: a red near nephew and a black far one. -/
theorem rbEraseRotateTwice_shows {cs cp : Color} {n : N} {x y : ColorTree N}
    (h : Shows s (⟨d, cp, P, .branch d cs (.branch d .red x n y) S far⟩ :: ctx) t)
    (hy : y.color = .black) :
    let s₀ := (((s.setChild S d y.root).setChild n d.flip (some S)).setChild P d.flip
      (some n)).setParentColorIf y.root (some S) .black
    ∃ s', rbEraseRotate d P n (some S) s₀ = some s' ∧
      Shows s' ctx (.branch d cp (.branch d .black t P x) n (.branch d .black y S far)) := by
  intro s₀
  have hn : Shows s (⟨d.flip.flip, cs, S, far⟩ :: ⟨d.flip, cp, P, t⟩ :: ctx) (.branch d.flip .red y n x) := by
    rw [Side.flip_flip, ColorTree.branch_flip]
    exact shows_fill.mpr (shows_swap.mp h)
  have hnodup := hn.nodup
  have hnodup' := (ColorTree.perm_order_branch d.flip .red y n x).nodup_iff.mp (List.nodup_append.mp hnodup).1
  simp only [Context.keys_cons, Frame.keys, List.nodup_append, List.nodup_cons, List.mem_append,
    List.mem_cons, ColorTree.mem_order_branch] at hnodup hnodup'
  have hmemX : ∀ z, x.root = some z → z ∈ x.order := fun _ => ColorTree.mem_order_of_root
  have hmemY : ∀ z, y.root = some z → z ∈ y.order := fun _ => ColorTree.mem_order_of_root
  have hmemF : ∀ z, far.root = some z → z ∈ far.order := fun _ => ColorTree.mem_order_of_root
  have hplaces := hn
  obtain ⟨⟨hnodeS, hfar, hnodeP, ht, -⟩, htree, -⟩ := hplaces
  obtain ⟨hnode, hyy, hxx⟩ := holds_branch.mp htree
  dsimp only at hnodeS hfar hnodeP ht
  rw [ColorTree.root_branch, Side.flip_flip] at hnodeS
  rw [linked_flip] at hnodeP hnode
  have hS₀ : s₀.mem S = RbNode.linked d (some P) cs y.root far.root := by
    rw [Links.mem_setParentColorIf, if_neg (by grind), Links.mem_setChild, if_neg (by grind),
      Links.mem_setChild, if_neg (by grind), Links.mem_setChild, if_pos rfl, hnodeS, setChild_linked]
    rfl
  have hn₀ : s₀.mem n = RbNode.linked d (some S) .red x.root (some S) := by
    rw [Links.mem_setParentColorIf, if_neg (by grind), Links.mem_setChild, if_neg (by grind),
      Links.mem_setChild, if_pos rfl, Links.mem_setChild, if_neg (by grind), hnode, setChild_flip_linked]
    rfl
  have hP₀ : s₀.mem P = RbNode.linked d ctx.parent cp t.root (some n) := by
    rw [Links.mem_setParentColorIf, if_neg (by grind), Links.mem_setChild, if_pos rfl,
      Links.mem_setChild, if_neg (by grind), Links.mem_setChild, if_neg (by grind), hnodeP,
      setChild_flip_linked]
  have hmem₀ : ∀ z, z ≠ S → z ≠ n → z ≠ P → s₀.mem z =
      if y.root = some z then (s.mem z).moved (some S) .black else s.mem z := by
    intro z hzS hzn hzP
    rw [Links.mem_setParentColorIf, Links.mem_setChild, if_neg hzP, Links.mem_setChild, if_neg hzn,
      Links.mem_setChild, if_neg hzS]
  obtain ⟨s₁, heq, hroot, hn₁, hP₁, hS₁, hrest⟩ := rbEraseRotate_mem hP₀ hn₀ (by grind) (by grind)
    (by grind) (by grind) (by grind) (by grind)
  have hmem : ∀ z, z ≠ n → z ≠ S → z ≠ P → y.root ≠ some z →
      s₁.mem z = if x.root = some z then (s.mem z).moved (some P) (s.mem z).color else s.mem z := by
    intro z hzn hzS hzP hzy
    rw [hrest z hzn hzP hzS, hmem₀ z hzS hzn hzP, if_neg hzy]
  have hrotate := hn.rotateTwice (hroot.trans (by simp [s₀])) (by rw [linked_flip, hn₁])
    (by rw [linked_flip, hS₁, hS₀, moved_linked]) (by rw [linked_flip, hP₁])
    (fun z hz => by
      rw [hrest z (by grind) (by grind) (by grind), if_neg (by grind), hmem₀ z (by grind) (by grind) (by grind),
        if_pos hz])
    (fun z hz => by
      rw [hmem z (by grind) (by grind) (by grind) (by grind), if_pos hz, hxx.color_root hz])
    (fun z hz => by
      rw [hmem z (by grind) (by grind) (by grind) (by grind), if_neg (by grind)]
      exact (hfar.moved_root hz).symm)
    (fun z hzn hzS hzP hzy hzx _ => by rw [hmem z hzn hzS hzP hzy, if_neg hzx])
  rw [ColorTree.recolor_of_color rfl, ColorTree.recolor_of_color rfl, ColorTree.recolor_of_color hy,
    ColorTree.branch_flip, ColorTree.branch_flip, ColorTree.branch_flip] at hrotate
  exact ⟨_, heq, hrotate⟩

/-- Case 1: a red sibling. -/
theorem rbEraseLift_shows {cs cp : Color} {w : N} (h : Shows s (⟨d, cp, P, .branch d cs near S far⟩ :: ctx) t)
    (hw : near.root = some w) (hnear : near.color = .black) :
    ∃ s', rbEraseLift d P S s = some (s', w) ∧
      Shows s' (⟨d, .red, P, near⟩ :: ⟨d, cp, S, far⟩ :: ctx) t := by
  have hfar : Shows s (⟨d.flip, cs, S, near⟩ :: ⟨d.flip, cp, P, t⟩ :: ctx) far :=
    shows_swap.mp (shows_fill.mpr (shows_swap.mp h))
  have hnodup := hfar.nodup
  simp only [Context.keys_cons, Frame.keys, List.nodup_append, List.nodup_cons, List.mem_append,
    List.mem_cons] at hnodup
  have hmemFar : ∀ x, far.root = some x → x ∈ far.order := fun _ => ColorTree.mem_order_of_root
  have hmemNear : ∀ x, near.root = some x → x ∈ near.order := fun _ => ColorTree.mem_order_of_root
  have hplaces := hfar
  obtain ⟨⟨hnodeS, hn, hnodeP, ht, -⟩, hf, -⟩ := hplaces
  dsimp only at hnodeS hn hnodeP ht
  rw [linked_flip] at hnodeS hnodeP
  have htmp : s.child d S = some w := by rw [Links.child, hnodeS, child_linked, hw]
  generalize hs₀ : ((s.setChild P d.flip (some w)).setChild S d (some P)).setParentColor w (some P) .black = s₀
  have hP₀ : s₀.mem P = RbNode.linked d ctx.parent cp t.root near.root := by
    rw [← hs₀, Links.mem_setParentColor, if_neg (by grind), Links.mem_setChild, if_neg (by grind),
      Links.mem_setChild, if_pos rfl, hnodeP, setChild_flip_linked, hw]
  have hS₀ : s₀.mem S = RbNode.linked d (some P) cs (some P) far.root := by
    rw [← hs₀, Links.mem_setParentColor, if_neg (by grind), Links.mem_setChild, if_pos rfl,
      Links.mem_setChild, if_neg (by grind), hnodeS, setChild_linked]
    rfl
  obtain ⟨s₁, heq, hroot, hS₁, hP₁, hrest⟩ := rotateSetParents_eq (c := .red) (by grind) hP₀ hS₀
  have hmem : ∀ x, x ≠ S → x ≠ P → s₁.mem x =
      if near.root = some x then (s.mem x).moved (some P) .black else s.mem x := by
    intro x hxS hxP
    rw [hrest x hxS hxP, ← hs₀, Links.mem_setParentColor, hw]
    by_cases hxw : x = w
    · subst hxw
      rw [if_pos rfl, if_pos rfl, Links.mem_setChild, if_neg hxS, Links.mem_setChild, if_neg hxP]
    · rw [if_neg hxw, if_neg fun hx => hxw (Option.some.inj hx).symm, Links.mem_setChild, if_neg hxS,
        Links.mem_setChild, if_neg hxP]
  have hrotate := hfar.rotate (by rw [hroot, ← hs₀]; rfl) (by rw [linked_flip, hS₁]) (by rw [linked_flip, hP₁])
    (fun x hx => by rw [hmem x (by grind) (by grind), if_pos hx])
    (fun x hx => by
      rw [hmem x (by grind) (by grind), if_neg (by grind)]
      exact (hf.moved_root hx).symm)
    (fun x hxS hxP hxn _ => by rw [hmem x hxS hxP, if_neg hxn])
  rw [ColorTree.recolor_of_color rfl, ColorTree.recolor_of_color hnear, ColorTree.branch_flip,
    ColorTree.branch_flip] at hrotate
  refine ⟨s₁.changeChild P (some S) ctx.parent, ?_, shows_fill.mpr (shows_fill.mpr hrotate)⟩
  simp only [rbEraseLift, Option.bind_eq_bind, Option.bind_some, htmp, hs₀, heq]

/-- Case 2: black nephews. The sibling turns red, and a red parent turns black. -/
theorem rbEraseFlip_shows {cs cp : Color} (h : Shows s (⟨d, cp, P, .branch d cs near S far⟩ :: ctx) t) :
    Shows (s.setParentColor S (some P) .red) ctx (.branch d cp t P (.branch d .red near S far)) ∧
      Shows ((s.setParentColor S (some P) .red).setBlack P) ctx
        (.branch d .black t P (.branch d .red near S far)) := by
  have hfar : Shows s (⟨d.flip, cs, S, near⟩ :: ⟨d.flip, cp, P, t⟩ :: ctx) far :=
    shows_swap.mp (shows_fill.mpr (shows_swap.mp h))
  have hnodup := hfar.nodup
  simp only [Context.keys_cons, Frame.keys, List.nodup_append, List.nodup_cons, List.mem_append,
    List.mem_cons] at hnodup
  obtain ⟨⟨hnodeS, hn, hnodeP, ht, hctx⟩, hf, -⟩ := hfar
  dsimp only at hnodeS hn hnodeP ht hctx
  rw [linked_flip] at hnodeS hnodeP
  have hbuild : ∀ (s' : Links N) (c : Color), s'.root = s.root →
      s'.mem P = RbNode.linked d ctx.parent c t.root (some S) →
      s'.mem S = RbNode.linked d (some P) .red near.root far.root →
      (∀ x, x ≠ P → x ≠ S → s'.mem x = s.mem x) →
      Shows s' ctx (.branch d c t P (.branch d .red near S far)) := by
    intro s' c hroot hP hS hrest
    refine ⟨?_, holds_branch.mpr ⟨?_, ht.congr fun x hx => hrest x ?_ ?_, holds_branch.mpr ⟨hS,
      hn.congr fun x hx => hrest x ?_ ?_, hf.congr fun x hx => hrest x ?_ ?_⟩⟩, ?_⟩
    · rw [ColorTree.root_branch]
      exact hctx.congr hroot fun x hx => hrest x (by grind) (by grind)
    · rw [hP, ColorTree.root_branch]
    · grind
    · grind
    · grind
    · grind
    · grind
    · grind
    · have hwhole := (shows_fill.mp h).nodup
      refine (List.Perm.nodup_iff (List.Perm.append_right _ ?_)).mpr hwhole
      cases d <;> exact List.Perm.refl _
  constructor
  · refine hbuild _ cp rfl ?_ ?_ fun x _ hxS => ?_
    · rw [Links.mem_setParentColor, if_neg (by grind), hnodeP]
    · rw [Links.mem_setParentColor, if_pos rfl, hnodeS, moved_linked]
    · rw [Links.mem_setParentColor, if_neg hxS]
  · have hblack : ∀ x, ((s.setParentColor S (some P) .red).setBlack P).mem x =
        if x = P then (s.mem P).moved (s.mem P).parent .black
        else if x = S then (s.mem S).moved (some P) .red else s.mem x := by
      intro x
      have hsame : (s.setParentColor S (some P) .red).mem P = s.mem P := by
        rw [Links.mem_setParentColor, if_neg (by grind)]
      rw [Links.setBlack, Links.mem_write, Function.update_apply, hsame, Links.mem_setParentColor]
    refine hbuild _ .black rfl ?_ ?_ fun x hxP hxS => ?_
    · rw [hblack, if_pos rfl, hnodeP, moved_linked, parent_linked]
    · rw [hblack, if_neg (by grind), if_pos rfl, hnodeS, moved_linked]
    · rw [hblack, if_neg hxP, if_neg hxS]

/-- Cases 2 to 4: the repair below a black sibling. -/
theorem rbEraseSibling_shows {f : Frame N} {m : ℕ} (h : Shows s (f :: ctx) t) (hS : f.sibling.root = some S)
    (hbal : f.sibling.Balanced .black m) :
    ∃ s', rbEraseSibling f.side f.key S s = some (s', decide (Context.AllBlack f)) ∧
      Shows s' ctx (Context.eraseRotate f t) := by
  obtain ⟨d, cp, P, u⟩ := f
  obtain rfl | ⟨c, near, S', far, rfl⟩ := u.eq_nil_or_branch d
  · cases hS
  obtain rfl : S' = S := by simpa using hS
  obtain rfl : c = .black := by simpa using hbal.color
  obtain ⟨-, k, -, hnearBal, hfarBal⟩ := ColorTree.balanced_branch_black.mp hbal
  have hall : Context.AllBlack ⟨d, cp, P, .branch d .black near S' far⟩ ↔
      cp = .black ∧ near.color = .black ∧ far.color = .black := by
    rw [Context.AllBlack, ColorTree.child_branch, ColorTree.child_flip_branch]
  obtain ⟨hnodeS, hnear, hfar⟩ := holds_branch.mp h.around.2.1
  have hchildNear : s.child d S' = near.root := by rw [Links.child, hnodeS, child_linked]
  have hchildFar : s.child d.flip S' = far.root := by rw [Links.child, hnodeS, child_flip_linked]
  simp only [rbEraseSibling, hchildNear, hchildFar, hnear.isRed, hfar.isRed]
  by_cases hfarRed : far.color = .red
  · -- Case 4
    obtain ⟨w, hw⟩ : ∃ w, far.root = some w := by
      cases far with
      | nil => cases hfarRed
      | node c l a r => exact ⟨a, rfl⟩
    obtain ⟨s', heq, hshows⟩ := rbEraseRotate_shows h hw
    have hnot : ¬ Context.AllBlack ⟨d, cp, P, .branch d .black near S' far⟩ := by
      rw [hall, hfarRed]
      rintro ⟨-, -, hc⟩
      cases hc
    rw [if_pos hfarRed, heq, Context.eraseRotate_far hfarRed, decide_eq_false hnot]
    exact ⟨s', rfl, hshows⟩
  rw [if_neg hfarRed]
  by_cases hnearRed : near.color = .red
  · -- Case 3
    obtain rfl | ⟨c, x, n, y, rfl⟩ := near.eq_nil_or_branch d
    · cases hnearRed
    obtain rfl : c = .red := by simpa using hnearRed
    rw [ColorTree.color_branch] at hnearBal
    obtain ⟨-, -, hy⟩ := ColorTree.balanced_branch_red.mp hnearBal
    obtain ⟨hnode, -, -⟩ := holds_branch.mp hnear
    have hchild : s.child d.flip n = y.root := by rw [Links.child, hnode, child_flip_linked]
    obtain ⟨s', heq, hshows⟩ := rbEraseRotateTwice_shows h hy.color
    have hnot : ¬ Context.AllBlack ⟨d, cp, P, .branch d .black (.branch d .red x n y) S' far⟩ := by
      rw [hall, ColorTree.color_branch]
      rintro ⟨-, hc, -⟩
      cases hc
    rw [if_pos hnearRed, Context.eraseRotate_near hfarRed, decide_eq_false hnot]
    simp only [ColorTree.root_branch, Option.bind_eq_bind, Option.bind_some, hchild, heq]
    exact ⟨s', rfl, hshows⟩
  · -- Case 2
    obtain ⟨hkeep, hblack⟩ := rbEraseFlip_shows h
    have hP : ((s.setParentColor S' (some P) .red).mem P).color = cp := by
      have hne : P ≠ S' := by
        have hnodup := h.nodup
        rintro rfl
        rw [Context.keys_cons, Frame.keys] at hnodup
        have := (List.nodup_append.mp (List.nodup_append.mp hnodup).2.1).1
        exact (List.nodup_cons.mp this).1 (ColorTree.mem_order_of_root (ColorTree.root_branch _ _ _ _ _))
      rw [Links.mem_setParentColor, if_neg hne, h.around.1, color_linked]
    rw [if_neg hnearRed, Context.eraseRotate_flip hfarRed hnearRed, hP]
    cases cp with
    | red =>
      rw [if_pos rfl, decide_eq_false (by rw [hall]; rintro ⟨hc, -⟩; cases hc)]
      exact ⟨_, rfl, hblack⟩
    | black =>
      rw [if_neg (by decide), decide_eq_true (hall.mpr ⟨rfl, Context.color_eq_black hnearRed,
        Context.color_eq_black hfarRed⟩)]
      exact ⟨_, rfl, hkeep⟩

/-- A round of the loop finds the side and the sibling. -/
theorem rbEraseColorLoop_start {f : Frame N} (h : Shows s (f :: ctx) t) (hS : f.sibling.root = some S)
    (fuel : ℕ) :
    rbEraseColorLoop (fuel + 1) t.root f.key s =
      (if f.sibling.color = .red then rbEraseLift f.side f.key S s else some (s, S)).bind fun r =>
        (rbEraseSibling f.side f.key r.2 r.1).bind fun r =>
          if r.2 = true then
            match (r.1.mem f.key).parent with
            | some gparent => rbEraseColorLoop fuel (some f.key) gparent r.1
            | none => some r.1
          else some r.1 := by
  have hne : f.sibling.root ≠ t.root := by
    intro heq
    refine (List.nodup_append.mp h.nodup).2.2 S (ColorTree.mem_order_of_root (heq ▸ hS)) S ?_ rfl
    exact List.mem_append_left _ (List.mem_cons_of_mem _ (ColorTree.mem_order_of_root hS))
  have hside := side_of_linked h.around.1 hne
  have hchild : s.child f.side.flip f.key = some S := by
    rw [Links.child, h.around.1, child_flip_linked, hS]
  rw [rbEraseColorLoop]
  simp only [Option.bind_eq_bind, hside, hchild, Option.bind_some, h.around.2.1.color_root hS]
  split <;> rfl

/-- The last round: a red sibling gives way to a black one below a red node. -/
theorem rbEraseColorLoop_red {f : Frame N} {m : ℕ} (h : Shows s (f :: ctx) t)
    (hsibling : f.sibling.Balanced .red (m + 1)) (fuel : ℕ) :
    ∃ s', rbEraseColorLoop (fuel + 1) t.root f.key s = some s' ∧
      Shows s' [] (ctx.plug (Context.eraseLift f t)) := by
  obtain ⟨d, cp, P, u⟩ := f
  obtain rfl | ⟨c, near, S, far, rfl⟩ := u.eq_nil_or_branch d
  · cases hsibling
  obtain rfl : c = .red := by simpa using hsibling.color
  obtain ⟨-, hnear, -⟩ := ColorTree.balanced_branch_red.mp hsibling
  obtain ⟨w, hw⟩ : ∃ w, near.root = some w := by
    cases near with
    | nil => cases hnear
    | node c l a r => exact ⟨a, rfl⟩
  obtain ⟨s', hlift, hshows⟩ := rbEraseLift_shows h hw hnear.color
  obtain ⟨s'', heq, hshows'⟩ := rbEraseSibling_shows hshows hw hnear
  have hnot : ¬ Context.AllBlack ⟨d, .red, P, near⟩ := by
    rintro ⟨hc, -⟩
    cases hc
  rw [decide_eq_false hnot] at heq
  rw [rbEraseColorLoop_start h (ColorTree.root_branch _ _ _ _ _), if_pos hsibling.color]
  dsimp only
  rw [hlift, Option.bind_some, heq]
  refine ⟨s'', rfl, ?_⟩
  rw [Context.eraseLift_branch]
  exact shows_plug.mpr (shows_fill.mp hshows')

/-- A round below a black sibling goes on if all nodes around were black. -/
theorem rbEraseColorLoop_black {f : Frame N} {m : ℕ} (h : Shows s (f :: ctx) t)
    (hsibling : f.sibling.Balanced .black (m + 1)) (fuel : ℕ) :
    ∃ s', Shows s' ctx (Context.eraseRotate f t) ∧
      rbEraseColorLoop (fuel + 1) t.root f.key s =
        if Context.AllBlack f then
          match Context.parent ctx with
          | some gparent => rbEraseColorLoop fuel (some f.key) gparent s'
          | none => some s'
        else some s' := by
  obtain ⟨S, hS⟩ : ∃ S, f.sibling.root = some S := by
    cases hu : f.sibling with
    | nil => rw [hu] at hsibling; cases hsibling
    | node c l a r => exact ⟨a, rfl⟩
  obtain ⟨s', heq, hshows⟩ := rbEraseSibling_shows h hS hsibling
  refine ⟨s', hshows, ?_⟩
  rw [rbEraseColorLoop_start h hS, if_neg (by rw [hsibling.color]; decide), Option.bind_some, heq,
    Option.bind_some]
  by_cases hall : Context.AllBlack f
  · rw [if_pos hall, if_pos (decide_eq_true hall),
      hshows.tree.parent_root (Context.root_eraseRotate hall)]
  · rw [if_neg hall, if_neg (by simp [hall])]

/-- The loop of `____rb_erase_color` repairs a tree that lacks a black node. -/
theorem rbEraseColorLoop_shows {f : Frame N} {m fuel : ℕ} (h : Shows s (f :: ctx) t)
    (ht : t.Balanced .black m) (hctx : Context.Accepts (f :: ctx) .black (m + 1)) (hfuel : ctx.length < fuel) :
    ∃ s', rbEraseColorLoop fuel t.root f.key s = some s' ∧ Shows s' [] (Context.eraseFix (f :: ctx) t) := by
  induction ctx generalizing f t m s fuel with
  | nil =>
    obtain ⟨k, rfl⟩ := Nat.exists_eq_succ_of_ne_zero (Nat.ne_zero_of_lt hfuel)
    have hsibling := hctx.cons.1
    rw [Context.eraseFix]
    by_cases hred : f.sibling.color = .red
    · rw [if_pos hred]
      exact rbEraseColorLoop_red h (hred ▸ hsibling) k
    · rw [Context.color_eq_black hred] at hsibling
      obtain ⟨s', hshows, heq⟩ := rbEraseColorLoop_black h hsibling k
      refine ⟨s', ?_, ?_⟩
      · rw [Nat.succ_eq_add_one, heq]
        exact ite_self _
      · rw [if_neg hred]
        simpa only [Context.eraseFix, Context.plug_nil, ite_self] using hshows
  | cons g ctx ih =>
    obtain ⟨k, rfl⟩ := Nat.exists_eq_succ_of_ne_zero (Nat.ne_zero_of_lt hfuel)
    have hsibling := hctx.cons.1
    rw [Context.eraseFix]
    by_cases hred : f.sibling.color = .red
    · rw [if_pos hred]
      exact rbEraseColorLoop_red h (hred ▸ hsibling) k
    · have hfits := Context.fits_eraseRotate ht hctx hred
      rw [Context.color_eq_black hred] at hsibling
      obtain ⟨s', hshows, heq⟩ := rbEraseColorLoop_black h hsibling k
      rw [if_neg hred, Nat.succ_eq_add_one, heq]
      by_cases hall : Context.AllBlack f
      · rw [if_pos hall] at hfits
        rw [if_pos hall, if_pos hall, Context.parent_cons]
        have hlength : ctx.length < k := by
          simp only [List.length_cons] at hfuel
          omega
        have hround := ih hshows hfits.1 hfits.2 hlength
        rwa [Context.root_eraseRotate hall] at hround
      · rw [if_neg hall, if_neg hall]
        exact ⟨s', rfl, shows_plug.mpr hshows⟩

end Flos.Rbtree
