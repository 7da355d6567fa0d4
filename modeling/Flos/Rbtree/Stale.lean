import Flos.Rbtree.Erase
import Flos.Rbtree.Search
import Flos.Rbtree.Traverse

/-!
# Nodes that the tree does not know

`rb_erase` does not check that its node is in the tree; it goes by the links that the node has. Whatever the
links look like, a call writes only nodes that it reaches from the root and from the links of its node, and
stores only such nodes. So a set of nodes that no link leaves is closed after the call as well. Where the links
that would be rewritten hold their new values already, erasing the node changes nothing.
-/

namespace Flos.Rbtree

open Flos.Lib

variable {N : Type*} {S : Set N}

/-- The links of a node go to nodes of a set. -/
structure RbNode.Within (n : RbNode N) (S : Set N) : Prop where
  parent : ∀ a ∈ n.parent, a ∈ S
  right : ∀ a ∈ n.right, a ∈ S
  left : ∀ a ∈ n.left, a ∈ S

/-- `rb_root` and the nodes of a set link to nodes of the set only. -/
structure Links.ClosedOn (s : Links N) (S : Set N) : Prop where
  root : ∀ a ∈ s.root, a ∈ S
  node : ∀ a ∈ S, (s.mem a).Within S

/-- What a call does inside a closed set: the set is closed again, and the nodes outside keep their links. -/
structure StaysIn (S : Set N) (s s' : Links N) : Prop where
  closed : s'.ClosedOn S
  outside : ∀ a, a ∉ S → s'.mem a = s.mem a

/-- A child of a node in the set. -/
theorem RbNode.Within.child {n : RbNode N} (h : n.Within S) (d : Side) : ∀ a ∈ n.child d, a ∈ S := by
  cases d with
  | left => exact h.left
  | right => exact h.right

/-- A node in the set with another child in it. -/
theorem RbNode.Within.setChild {n : RbNode N} (h : n.Within S) (d : Side) {v : Option N}
    (hv : ∀ a ∈ v, a ∈ S) : (n.setChild d v).Within S := by
  cases d with
  | left => exact ⟨h.parent, h.right, hv⟩
  | right => exact ⟨h.parent, hv, h.left⟩

/-- A node in the set with another parent in it. -/
theorem RbNode.Within.moved {n : RbNode N} (h : n.Within S) {p : Option N} (hp : ∀ a ∈ p, a ∈ S) (c : Color) :
    (n.moved p c).Within S :=
  ⟨hp, h.right, h.left⟩

/-- A node that is not `NULL`. -/
theorem forall_mem_some {a : N} (ha : a ∈ S) : ∀ b ∈ some a, b ∈ S := by
  intro b hb
  exact Option.some.inj hb ▸ ha

/-- `NULL` is no node. -/
theorem forall_mem_none : ∀ b ∈ (none : Option N), b ∈ S := fun _ hb => nomatch hb

variable {s s' : Links N} {a b p : N} {c : Color}

/-- Nothing is written. -/
theorem StaysIn.refl (h : s.ClosedOn S) : StaysIn S s s := ⟨h, fun _ _ => rfl⟩

/-- The root is set to a node of the set. -/
theorem StaysIn.setRoot (h : StaysIn S s s') {v : Option N} (hv : ∀ b ∈ v, b ∈ S) :
    StaysIn S s { s' with root := v } :=
  ⟨⟨hv, h.closed.node⟩, h.outside⟩

/-- The links of a node, in the set or not, go on into the set. -/
theorem StaysIn.within_of_stays {s₁ : Links N} (h : StaysIn S s s') (h₁ : StaysIn S s s₁) (ha : (s'.mem a).Within S) :
    (s₁.mem a).Within S := by
  by_cases haS : a ∈ S
  · exact h₁.closed.node a haS
  · rwa [h₁.outside a haS, ← h.outside a haS]

/-! ## Walks down -/

namespace Links.ClosedOn

/-- A child of a node in a closed set. -/
theorem child (h : s.ClosedOn S) (ha : a ∈ S) (d : Side) : ∀ b ∈ s.child d a, b ∈ S :=
  (h.node a ha).child d

/-- Going left from a node of the set ends in the set. -/
theorem leftmostBelow (h : s.ClosedOn S) {fuel : ℕ} {q : N} {r : N × N} (hq : q ∈ S)
    (ha : a ∈ S) (hrun : leftmostBelow s fuel q a = some r) : r.1 ∈ S ∧ r.2 ∈ S := by
  induction fuel generalizing q a with
  | zero => cases hrun
  | succ fuel ih =>
    rw [Rbtree.leftmostBelow] at hrun
    cases hleft : s.child .left a with
    | none =>
      simp only [hleft, Option.some.injEq] at hrun
      exact hrun ▸ ⟨hq, ha⟩
    | some m =>
      simp only [hleft] at hrun
      exact ih ha (h.child ha .left m hleft) hrun

/-- Going down on one side stays in the set. -/
theorem farthest (h : s.ClosedOn S) {d : Side} {fuel : ℕ} (ha : a ∈ S) (hrun : farthest s d fuel a = some b) :
    b ∈ S := by
  induction fuel generalizing a with
  | zero => cases hrun
  | succ fuel ih =>
    rw [Rbtree.farthest] at hrun
    cases hchild : s.child d a with
    | none =>
      simp only [hchild, Option.some.injEq] at hrun
      exact hrun ▸ ha
    | some m =>
      simp only [hchild] at hrun
      exact ih (h.child ha d m hchild) hrun

/-- The link below a parent in the set, or the one at the root. -/
theorem linkAt (h : s.ClosedOn S) {parent : Option N} (hparent : ∀ b ∈ parent, b ∈ S) (d : Side) :
    ∀ b ∈ s.linkAt parent d, b ∈ S := by
  cases parent with
  | none => exact h.root
  | some q => exact h.child (hparent q rfl) d

/-- A path to an empty place ends below a node of the set. -/
theorem followPath (h : s.ClosedOn S) {path : List Bool} {parent : Option N} {d : Side} {r : Option N × Side}
    (hparent : ∀ b ∈ parent, b ∈ S) (hrun : followPath s path parent d = some r) : ∀ b ∈ r.1, b ∈ S := by
  induction path generalizing parent d with
  | nil =>
    rw [Rbtree.followPath] at hrun
    split at hrun
    next =>
      cases hrun
      exact hparent
    next => cases hrun
  | cons e path ih =>
    rw [Rbtree.followPath] at hrun
    split at hrun
    next =>
      cases hrun
      exact hparent
    next m hm => exact ih (forall_mem_some (h.linkAt hparent d m hm)) hrun

/-- The nodes of the tree below a node of the set are in the set. -/
theorem readTree (h : s.ClosedOn S) {fuel : ℕ} {v : Option N} (hv : ∀ b ∈ v, b ∈ S) :
    ∀ b ∈ inorder (readTree s fuel v), b ∈ S := by
  induction fuel generalizing v with
  | zero => cases v <;> simp [Rbtree.readTree, inorder]
  | succ fuel ih =>
    cases v with
    | none => simp [Rbtree.readTree, inorder]
    | some n =>
      have hn : n ∈ S := hv n rfl
      intro b hb
      rw [Rbtree.readTree, inorder, List.mem_append, List.mem_cons] at hb
      rcases hb with hb | rfl | hb
      · exact ih (h.child hn .left) b hb
      · exact hn
      · exact ih (h.child hn .right) b hb

end Links.ClosedOn

/-! ## Writes -/

variable [DecidableEq N]

namespace StaysIn

/-- A node of the set is written. -/
theorem write (h : StaysIn S s s') (ha : a ∈ S) {n : RbNode N} (hn : n.Within S) :
    StaysIn S s (s'.write a n) := by
  refine ⟨⟨h.closed.root, fun b hb => ?_⟩, fun b hb => ?_⟩
  · by_cases heq : b = a
    · rw [Links.mem_write, heq, Function.update_self]
      exact hn
    · rw [Links.mem_write, Function.update_of_ne heq]
      exact h.closed.node b hb
  · have hne : b ≠ a := fun heq => hb (heq ▸ ha)
    rw [Links.mem_write, Function.update_of_ne hne]
    exact h.outside b hb

/-- Writing a child. -/
theorem setChild (h : StaysIn S s s') (ha : a ∈ S) (d : Side) {v : Option N} (hv : ∀ b ∈ v, b ∈ S) :
    StaysIn S s (s'.setChild a d v) :=
  h.write ha ((h.closed.node a ha).setChild d hv)

/-- Writing a parent. -/
theorem setParent (h : StaysIn S s s') (ha : a ∈ S) {q : Option N} (hq : ∀ b ∈ q, b ∈ S) :
    StaysIn S s (s'.setParent a q) :=
  h.write ha ((h.closed.node a ha).moved hq _)

/-- Writing a parent and a colour. -/
theorem setParentColor (h : StaysIn S s s') (ha : a ∈ S) {q : Option N} (hq : ∀ b ∈ q, b ∈ S) :
    StaysIn S s (s'.setParentColor a q c) :=
  h.write ha ((h.closed.node a ha).moved hq c)

/-- Writing both, if there is a node. -/
theorem setParentColorIf (h : StaysIn S s s') {t : Option N} (ht : ∀ b ∈ t, b ∈ S) {q : Option N}
    (hq : ∀ b ∈ q, b ∈ S) : StaysIn S s (s'.setParentColorIf t q c) := by
  cases t with
  | none => exact h
  | some a => exact h.setParentColor (ht a rfl) hq

/-- Writing a colour. -/
theorem setBlack (h : StaysIn S s s') (ha : a ∈ S) : StaysIn S s (s'.setBlack a) :=
  h.write ha ((h.closed.node a ha).moved (h.closed.node a ha).parent _)

/-- Copying the parent and the colour of a node. -/
theorem copyParentColor (h : StaysIn S s s') (ha : a ∈ S) {n : RbNode N} (hn : n.Within S) :
    StaysIn S s (copyParentColor s' a n) :=
  h.setParentColor ha hn.parent

/-- The old child of a parent in the set need not be in the set. -/
theorem changeChild (h : StaysIn S s s') (old : N) {new parent : Option N} (hnew : ∀ b ∈ new, b ∈ S)
    (hparent : ∀ b ∈ parent, b ∈ S) : StaysIn S s (s'.changeChild old new parent) := by
  cases parent with
  | none => exact h.setRoot hnew
  | some p =>
    rw [Links.changeChild]
    split
    next => exact h.setChild (hparent p rfl) .left hnew
    next => exact h.setChild (hparent p rfl) .right hnew

/-- `__rb_rotate_set_parents`. -/
theorem rotateSetParents (h : StaysIn S s s') (ha : a ∈ S) (hb : b ∈ S) :
    StaysIn S s (s'.rotateSetParents a b c) := by
  have hparent := (h.closed.node a ha).parent
  exact ((h.setParentColor hb hparent).setParentColor ha (forall_mem_some hb)).changeChild a
    (forall_mem_some hb) hparent

/-! ## Insertion -/

/-- The new node takes its links from its place. -/
theorem rbLinkNode (h : StaysIn S s s') (ha : a ∈ S) {parent : Option N} (hparent : ∀ b ∈ parent, b ∈ S)
    (d : Side) : StaysIn S s (rbLinkNode a parent d s') := by
  have hwrite : StaysIn S s (s'.write a ⟨parent, .red, none, none⟩) :=
    h.write ha ⟨hparent, forall_mem_none, forall_mem_none⟩
  cases parent with
  | none => exact hwrite.setRoot (forall_mem_some ha)
  | some p => exact hwrite.setChild (hparent p rfl) d (forall_mem_some ha)

/-- The rotations of an insertion. -/
theorem rbInsertRotate (h : StaysIn S s s') {gparent : N} (ha : a ∈ S) (hp : p ∈ S) (hg : gparent ∈ S)
    (d : Side) : StaysIn S s (rbInsertRotate d a p gparent s') := by
  rw [Rbtree.rbInsertRotate]
  split
  next =>
    have htmp := h.closed.child ha d
    have hfirst := (((h.setChild hp d.flip htmp).setChild ha d (forall_mem_some hp)).setParentColorIf
      (c := .black) htmp (forall_mem_some hp)).setParentColor (c := .red) hp (forall_mem_some ha)
    have htmp' := hfirst.closed.child ha d.flip
    exact (((hfirst.setChild hg d htmp').setChild ha d.flip (forall_mem_some hg)).setParentColorIf
      htmp' (forall_mem_some hg)).rotateSetParents hg ha
  next =>
    have htmp := h.closed.child hp d.flip
    exact (((h.setChild hg d htmp).setChild hp d.flip (forall_mem_some hg)).setParentColorIf
      htmp (forall_mem_some hg)).rotateSetParents hg hp

/-- The loop climbs along parents, and stays in the set from round to round. -/
theorem rbInsertLoop {fuel : ℕ} {parent : Option N} {s₁ : Links N} (h : StaysIn S s s') (ha : a ∈ S)
    (hparent : ∀ b ∈ parent, b ∈ S) (hrun : rbInsertLoop fuel a parent s' = some s₁) : StaysIn S s s₁ := by
  induction fuel generalizing a parent s' with
  | zero => cases hrun
  | succ fuel ih =>
    cases parent with
    | none =>
      cases hrun
      exact h.setParentColor ha forall_mem_none
    | some p =>
      have hp : p ∈ S := hparent p rfl
      rw [Rbtree.rbInsertLoop] at hrun
      split at hrun
      next =>
        cases hrun
        exact h
      next hblack =>
        simp only [Option.bind_eq_bind, Option.bind_eq_some_iff] at hrun
        obtain ⟨q, hq, g, rfl, hrun⟩ := hrun
        have hg : g ∈ S := by
          rw [Links.redParent] at hq
          split at hq
          next => exact (h.closed.node p hp).parent g (Option.some.inj hq)
          next => cases hq
        generalize (if s'.child .right g ≠ some p then Side.left else .right) = d at hrun
        split at hrun
        next =>
          -- Case 1
          have hcolor := (h.setParentColorIf (c := .black) (h.closed.child hg d.flip)
            (forall_mem_some hg)).setParentColor (c := .black) hp (forall_mem_some hg)
          have hup := (hcolor.closed.node g hg).parent
          exact ih (hcolor.setParentColor hg hup) hg hup hrun
        next =>
          cases hrun
          exact h.rbInsertRotate ha hp hg d

/-- `rb_insert_color`. -/
theorem rbInsertColor {fuel : ℕ} {s₁ : Links N} (h : StaysIn S s s') (ha : a ∈ S)
    (hrun : rbInsertColor fuel a s' = some s₁) : StaysIn S s s₁ := by
  rw [Rbtree.rbInsertColor, Option.bind_eq_bind, Option.bind_eq_some_iff] at hrun
  obtain ⟨parent, hparent, hrun⟩ := hrun
  refine h.rbInsertLoop ha (fun b hb => ?_) hrun
  rw [Links.redParent] at hparent
  split at hparent
  next =>
    cases hparent
    exact (h.closed.node a ha).parent b hb
  next => cases hparent

/-! ## Erasure -/

/-- The rotations of a removal. -/
theorem rbEraseRotate {d : Side} {sibling : N} {tmp : Option N} {s₁ : Links N} (h : StaysIn S s s')
    (hp : p ∈ S) (hsibling : sibling ∈ S) (htmp : ∀ b ∈ tmp, b ∈ S)
    (hrun : rbEraseRotate d p sibling tmp s' = some s₁) : StaysIn S s s₁ := by
  rw [Rbtree.rbEraseRotate, Option.bind_eq_bind, Option.bind_eq_some_iff] at hrun
  obtain ⟨t, rfl, hrun⟩ := hrun
  cases hrun
  have htmp₂ := h.closed.child hsibling d
  have hfirst := ((h.setChild hp d.flip htmp₂).setChild hsibling d (forall_mem_some hp)).setParentColor
    (c := .black) (htmp t rfl) (forall_mem_some hsibling)
  cases htmp' : s'.child d sibling with
  | none =>
    rw [htmp'] at hfirst
    exact hfirst.rotateSetParents hp hsibling
  | some u =>
    rw [htmp'] at hfirst htmp₂
    exact (hfirst.setParent (htmp₂ u rfl) (forall_mem_some hp)).rotateSetParents hp hsibling

/-- A red sibling is lifted. -/
theorem rbEraseLift {d : Side} {sibling : N} {r : Links N × N} (h : StaysIn S s s') (hp : p ∈ S)
    (hsibling : sibling ∈ S) (hrun : rbEraseLift d p sibling s' = some r) : StaysIn S s r.1 ∧ r.2 ∈ S := by
  rw [Rbtree.rbEraseLift, Option.bind_eq_bind, Option.bind_eq_some_iff] at hrun
  obtain ⟨t, ht, hrun⟩ := hrun
  cases hrun
  have htS : t ∈ S := h.closed.child hsibling d t ht
  exact ⟨(((h.setChild hp d.flip (forall_mem_some htS)).setChild hsibling d
    (forall_mem_some hp)).setParentColor htS (forall_mem_some hp)).rotateSetParents hp hsibling, htS⟩

/-- One round beside a sibling. -/
theorem rbEraseSibling {d : Side} {sibling : N} {r : Links N × Bool} (h : StaysIn S s s') (hp : p ∈ S)
    (hsibling : sibling ∈ S) (hrun : rbEraseSibling d p sibling s' = some r) : StaysIn S s r.1 := by
  rw [Rbtree.rbEraseSibling] at hrun
  dsimp only at hrun
  split at hrun
  next =>
    simp only [Option.bind_eq_bind, Option.bind_eq_some_iff] at hrun
    obtain ⟨s₁, hrotate, hrun⟩ := hrun
    cases hrun
    exact h.rbEraseRotate hp hsibling (h.closed.child hsibling _) hrotate
  next =>
    split at hrun
    next =>
      -- Case 3
      simp only [Option.bind_eq_bind, Option.bind_eq_some_iff] at hrun
      obtain ⟨t, ht, s₁, hrotate, hrun⟩ := hrun
      cases hrun
      have htS : t ∈ S := h.closed.child hsibling d t ht
      have htmp := h.closed.child htS d.flip
      have hfirst := (((h.setChild hsibling d htmp).setChild htS d.flip (forall_mem_some hsibling)).setChild
        hp d.flip (forall_mem_some htS)).setParentColorIf (c := .black) htmp (forall_mem_some hsibling)
      exact hfirst.rbEraseRotate hp htS (forall_mem_some hsibling) hrotate
    next =>
      -- Case 2
      have hred := h.setParentColor (c := .red) hsibling (forall_mem_some hp)
      split at hrun
      next =>
        cases hrun
        exact hred.setBlack hp
      next =>
        cases hrun
        exact hred

/-- A round of `____rb_erase_color`: the sibling, which case 1 replaces, then the other cases; it is the last one,
or the next one starts above the parent. -/
theorem rbEraseColorLoop_cases {fuel : ℕ} {node : Option N} {s₁ : Links N}
    (hrun : Rbtree.rbEraseColorLoop (fuel + 1) node p s = some s₁) :
    ∃ d sibling lifted r, s.child d.flip p = some sibling ∧
      (Rbtree.rbEraseLift d p sibling s = some lifted ∨ lifted = (s, sibling)) ∧
      Rbtree.rbEraseSibling d p lifted.2 lifted.1 = some r ∧
      (s₁ = r.1 ∨ ∃ gparent, (r.1.mem p).parent = some gparent ∧
        Rbtree.rbEraseColorLoop fuel (some p) gparent r.1 = some s₁) := by
  rw [Rbtree.rbEraseColorLoop] at hrun
  generalize (if s.child .right p ≠ node then Side.left else .right) = d at hrun
  rw [Option.bind_eq_bind, Option.bind_eq_some_iff] at hrun
  obtain ⟨sibling, hsibling, hrun⟩ := hrun
  extract_lets rest at hrun
  -- the rest of the round is the same behind case 1 and without it
  obtain ⟨lifted, hlifted, hrun⟩ : ∃ lifted : Links N × N,
      (Rbtree.rbEraseLift d p sibling s = some lifted ∨ lifted = (s, sibling)) ∧ rest lifted = some s₁ := by
    split at hrun
    next =>
      obtain ⟨lifted, hlift, hrun⟩ := Option.bind_eq_some_iff.mp hrun
      exact ⟨lifted, .inl hlift, hrun⟩
    next => exact ⟨(s, sibling), .inr rfl, hrun⟩
  obtain ⟨⟨s₂, lacks⟩, hr, hrun⟩ := Option.bind_eq_some_iff.mp hrun
  refine ⟨d, sibling, lifted, (s₂, lacks), hsibling, hlifted, hr, ?_⟩
  dsimp only at hrun
  split at hrun
  next =>
    split at hrun
    next gparent hup => exact .inr ⟨gparent, hup, hrun⟩
    next => exact .inl (Option.some.inj hrun).symm
  next => exact .inl (Option.some.inj hrun).symm

/-- The rounds of `____rb_erase_color`. -/
theorem rbEraseColorLoop {fuel : ℕ} {node : Option N} {s₁ : Links N} (h : StaysIn S s s') (hp : p ∈ S)
    (hrun : rbEraseColorLoop fuel node p s' = some s₁) : StaysIn S s s₁ := by
  induction fuel generalizing node p s' with
  | zero => cases hrun
  | succ fuel ih =>
    obtain ⟨d, sibling, lifted, r, hsibling, hlifted, hr, hrun⟩ := rbEraseColorLoop_cases hrun
    have hsibling' : sibling ∈ S := h.closed.child hp _ sibling hsibling
    have hstays : StaysIn S s lifted.1 ∧ lifted.2 ∈ S := by
      rcases hlifted with hlift | rfl
      · exact h.rbEraseLift hp hsibling' hlift
      · exact ⟨h, hsibling'⟩
    have hnext : StaysIn S s r.1 := hstays.1.rbEraseSibling hp hstays.2 hr
    rcases hrun with rfl | ⟨gparent, hup, hrun⟩
    · exact hnext
    · exact ih hnext ((hnext.closed.node p hp).parent gparent hup) hrun

end StaysIn

namespace StaysIn

/-- The successor is in the set; the node that leaves need not be, but its links are. -/
theorem rbEraseReplace {successor parent : N} {child2 : Option N} {r : Links N × Option N}
    (h : StaysIn S s s') (hnode : (s'.mem a).Within S) (hsuccessor : successor ∈ S) (hparent : parent ∈ S)
    (hchild : ∀ b ∈ child2, b ∈ S) (hrun : rbEraseReplace a successor parent child2 s' = some r) :
    StaysIn S s r.1 ∧ ∀ b ∈ r.2, b ∈ S := by
  rw [Rbtree.rbEraseReplace, Option.bind_eq_bind, Option.bind_eq_some_iff] at hrun
  obtain ⟨t, ht, hrun⟩ := hrun
  have htS : t ∈ S := hnode.child .left t ht
  have hmoved := (h.setChild hsuccessor .left (forall_mem_some htS)).setParent htS (forall_mem_some hsuccessor)
  have hnode' := h.within_of_stays hmoved hnode
  have hchange := hmoved.changeChild a (forall_mem_some hsuccessor) hnode'.parent
  cases child2 with
  | none =>
    cases hrun
    refine ⟨hchange.copyParentColor hsuccessor hnode', fun b hb => ?_⟩
    split at hb
    next => exact Option.some.inj hb ▸ hparent
    next => cases hb
  | some child =>
    cases hrun
    exact ⟨(hchange.setParentColor (hchild child rfl) (forall_mem_some hparent)).copyParentColor
      hsuccessor hnode', forall_mem_none⟩

/-- `__rb_erase_augmented`, of a node whose links go into the set. -/
theorem rbEraseAugmented {fuel : ℕ} {r : Links N × Option N} (h : StaysIn S s s')
    (hnode : (s'.mem a).Within S) (hrun : rbEraseAugmented fuel a s' = some r) :
    StaysIn S s r.1 ∧ ∀ b ∈ r.2, b ∈ S := by
  have hleft := hnode.child .left
  have hright := hnode.child .right
  have hchange := fun (new : Option N) (hnew : ∀ b ∈ new, b ∈ S) => h.changeChild a hnew hnode.parent
  rw [Rbtree.rbEraseAugmented] at hrun
  cases hl : s'.child .left a with
  | none =>
    -- Case 1
    cases hr : s'.child .right a with
    | none =>
      simp only [hl, hr, Option.some.injEq] at hrun
      subst hrun
      refine ⟨hchange none forall_mem_none, fun b hb => ?_⟩
      split at hb
      next => exact hnode.parent b hb
      next => cases hb
    | some child =>
      simp only [hl, hr, Option.some.injEq] at hrun
      subst hrun
      have hchild : child ∈ S := hright child hr
      exact ⟨(hchange (some child) (forall_mem_some hchild)).copyParentColor hchild hnode, forall_mem_none⟩
  | some tmp =>
    have htmp : tmp ∈ S := hleft tmp hl
    cases hr : s'.child .right a with
    | none =>
      -- Case 1 with the other child
      simp only [hl, hr, Option.some.injEq] at hrun
      subst hrun
      exact ⟨(h.copyParentColor htmp hnode).changeChild a (forall_mem_some htmp) hnode.parent, forall_mem_none⟩
    | some child =>
      have hchild : child ∈ S := hright child hr
      cases hm : s'.child .left child with
      | none =>
        -- Case 2
        simp only [hl, hr, hm] at hrun
        exact h.rbEraseReplace hnode hchild hchild (h.closed.child hchild .right) hrun
      | some m =>
        -- Case 3
        simp only [hl, hr, hm, Option.bind_eq_bind, Option.bind_eq_some_iff] at hrun
        obtain ⟨⟨parent, successor⟩, hbelow, hrun⟩ := hrun
        obtain ⟨hparent, hsuccessor⟩ :=
          h.closed.leftmostBelow hchild (h.closed.child hchild .left m hm) hbelow
        have hchild2 := h.closed.child hsuccessor .right
        have hunlinked := ((h.setChild hparent .left hchild2).setChild hsuccessor .right
          (forall_mem_some hchild)).setParent hchild (forall_mem_some hsuccessor)
        exact hunlinked.rbEraseReplace (h.within_of_stays hunlinked hnode) hsuccessor hparent hchild2 hrun

/-- Erasing a node, in the tree or not, in the set or not, whose links go into the set. -/
theorem rbErase {fuel : ℕ} {s₁ : Links N} (h : StaysIn S s s') (hnode : (s'.mem a).Within S)
    (hrun : rbErase fuel a s' = some s₁) : StaysIn S s s₁ := by
  rw [Rbtree.rbErase, Option.bind_eq_bind, Option.bind_eq_some_iff] at hrun
  obtain ⟨⟨s₂, rebalance⟩, haugmented, hrun⟩ := hrun
  obtain ⟨hstays, hrebalance⟩ := h.rbEraseAugmented hnode haugmented
  cases rebalance with
  | none =>
    cases hrun
    exact hstays
  | some parent => exact hstays.rbEraseColorLoop (hrebalance parent rfl) hrun

end StaysIn

/-! ## The walk to the next node -/

namespace Links.ClosedOn

/-- Climbing from a node whose links go into the set. -/
theorem climb (h : s.ClosedOn S) {d : Side} {fuel : ℕ} (ha : (s.mem a).Within S)
    (hrun : climb s d fuel a = some (some b)) : b ∈ S := by
  induction fuel generalizing a with
  | zero => cases hrun
  | succ fuel ih =>
    rw [Rbtree.climb] at hrun
    cases hparent : (s.mem a).parent with
    | none => simp [hparent] at hrun
    | some q =>
      have hq : q ∈ S := ha.parent q hparent
      simp only [hparent] at hrun
      split at hrun
      next => exact ih (h.node q hq) hrun
      next => exact Option.some.inj (Option.some.inj hrun) ▸ hq

/-- The walk to the next node stays in the set. -/
theorem rbNext (h : s.ClosedOn S) {fuel : ℕ} (ha : (s.mem a).Within S)
    (hrun : rbNext fuel a s = some (some b)) : b ∈ S := by
  rw [Rbtree.rbNext, rbStep] at hrun
  split at hrun
  next => cases hrun
  next =>
    split at hrun
    next m hm =>
      obtain ⟨m', hfar, heq⟩ := Option.map_eq_some_iff.mp hrun
      cases heq
      exact h.farthest (ha.child .right m hm) hfar
    next => exact h.climb ha hrun

end Links.ClosedOn

/-! ## Erasing a node that has left the tree -/

/-- The link that `__rb_change_child` rewrites for a node. -/
def Links.linkAbove (s : Links N) (a : N) : Option N :=
  match (s.mem a).parent with
  | some p => if s.child .left p = some a then some a else s.child .right p
  | none => s.root

/-- The links of a node that has left the tree agree with the tree: the link above it is its right child, which
has its parent and its colour; and without a child the place lacks no black node. -/
def Links.AtRest (s : Links N) (a : N) : Prop :=
  s.child .left a = none ∧ s.linkAbove a = s.child .right a ∧
    match s.child .right a with
    | some child => (s.mem child).parent = (s.mem a).parent ∧ (s.mem child).color = (s.mem a).color
    | none => (s.mem a).parent = none ∨ (s.mem a).color = .red

instance Links.AtRest.decidable (s : Links N) (a : N) : Decidable (s.AtRest a) := by
  unfold Links.AtRest
  split <;> exact inferInstance

/-- Writing the child that is there. -/
theorem setChild_self (s : Links N) (a : N) (d : Side) : s.setChild a d (s.child d a) = s := by
  have hnode : (s.mem a).setChild d (s.child d a) = s.mem a := by cases d <;> rfl
  rw [Links.setChild, hnode, Links.write, Function.update_eq_self]

/-- Writing the parent and the colour that are there. -/
theorem copyParentColor_self {n : RbNode N} (hparent : (s.mem a).parent = n.parent)
    (hcolor : (s.mem a).color = n.color) : copyParentColor s a n = s := by
  have hnode : (s.mem a).moved n.parent n.color = s.mem a := by
    rw [← hparent, ← hcolor]
    rfl
  rw [copyParentColor, Links.setParentColor, hnode, Links.write, Function.update_eq_self]

/-- `__rb_change_child` with the child that is there. -/
theorem changeChild_linkAbove (s : Links N) (a : N) : s.changeChild a (s.linkAbove a) (s.mem a).parent = s := by
  rw [Links.linkAbove]
  cases (s.mem a).parent with
  | none => rfl
  | some p =>
    dsimp only [Links.changeChild]
    split
    next hleft => rw [← hleft, setChild_self]
    next => rw [setChild_self]

/-- Erasing a node at rest changes nothing. -/
theorem rbErase_atRest (fuel : ℕ) (h : s.AtRest a) : rbErase fuel a s = some s := by
  obtain ⟨hleft, habove, hchild⟩ := h
  have hchange : s.changeChild a (s.child .right a) (s.mem a).parent = s := by
    rw [← habove, changeChild_linkAbove]
  have haugmented : rbEraseAugmented fuel a s = some (s, none) := by
    rw [rbEraseAugmented, hleft]
    dsimp only
    rw [hchange]
    cases hright : s.child .right a with
    | none =>
      rw [hright] at hchild
      dsimp only
      cases hchild with
      | inl hparent =>
        rw [hparent, ite_self]
      | inr hred => rw [if_neg (hred ▸ Color.noConfusion)]
    | some child =>
      rw [hright] at hchild
      dsimp only
      rw [copyParentColor_self hchild.1 hchild.2]
  rw [rbErase, haugmented]
  rfl

end Flos.Rbtree
