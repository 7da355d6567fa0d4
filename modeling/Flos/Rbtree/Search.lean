import Flos.Rbtree.Insert

/-!
# The search for an empty place

A caller of `rb_link_node` walks down from the root, and remembers the node and the side of the link that it
follows next. The walk ends where the search in the tree below the root ends.
-/

namespace Flos.Rbtree

open Flos.Lib

variable {N : Type*} [DecidableEq N]

/-- `*link`, where `link` is a side of the parent, or the root. -/
def Links.linkAt (s : Links N) (parent : Option N) (d : Side) : Option N :=
  parent.elim s.root fun p => s.child d p

/-- The tree below a node, read down to a depth. -/
def readTree (s : Links N) : ℕ → Option N → BinaryTree N
  | _, none => .nil
  | 0, some _ => .nil
  | fuel + 1, some a => .node a (readTree s fuel (s.child .left a)) (readTree s fuel (s.child .right a))

/-- Follow a path to an empty place; no result if it ends at a node. -/
def followPath (s : Links N) : List Bool → Option N → Side → Option (Option N × Side)
  | [], parent, d => if s.linkAt parent d = none then some (parent, d) else none
  | b :: path, parent, d =>
    match s.linkAt parent d with
    | none => some (parent, d)
    | some n => followPath s path (some n) (if b then .right else .left)

section Search

variable {κ : Type*} [LinearOrder κ] (key : N → κ) (k : κ)

/-- The loop `while (*link)` that goes left below larger keys and right otherwise, for so many rounds. -/
def searchLink (s : Links N) : ℕ → Option N → Side → Option (Option N × Side)
  | 0, _, _ => none
  | fuel + 1, parent, d =>
    match s.linkAt parent d with
    | none => some (parent, d)
    | some n => searchLink s fuel (some n) (if k < key n then .left else .right)

end Search

variable {s : Links N} {ctx : Context N} {t : ColorTree N} {fuel : ℕ}

omit [DecidableEq N] in
/-- Reading deep enough gives the whole tree. -/
theorem readTree_eq {p : Option N} (h : Holds s.mem p t) (hfuel : t.depth ≤ fuel) :
    readTree s fuel t.root = t.shape := by
  induction t generalizing p fuel with
  | nil => cases fuel <;> rfl
  | node c l a r ihl ihr =>
    obtain ⟨hnode, hl, hr⟩ := h
    rw [ColorTree.depth] at hfuel
    obtain ⟨k, rfl⟩ := Nat.exists_eq_succ_of_ne_zero (show fuel ≠ 0 by omega)
    have hleft : s.child .left a = l.root := by rw [Links.child, hnode]; rfl
    have hright : s.child .right a = r.root := by rw [Links.child, hnode]; rfl
    rw [ColorTree.root, readTree, hleft, hright, ihl hl (by omega), ihr hr (by omega), ColorTree.shape]

omit [DecidableEq N] in
/-- The link of a place holds the root of what is there. -/
theorem linkAt_eq (h : HoldsAround s ctx t.root) : s.linkAt ctx.parent (linkSide ctx) = t.root := by
  cases ctx with
  | nil => exact h
  | cons f ctx =>
    obtain ⟨hnode, -⟩ := h
    rw [Context.parent, Links.linkAt, Option.elim_some, linkSide, Links.child, hnode, child_linked]

omit [DecidableEq N] in
/-- A path leads to an empty place, where a new node is grafted into the tree, or it ends at a node. -/
theorem followPath_cases (h : Shows s ctx t) (path : List Bool) :
    (∃ ctx' : Context N, t = ctx'.plug .nil ∧
      followPath s path ctx.parent (linkSide ctx) =
        some ((ctx' ++ ctx).parent, linkSide (ctx' ++ ctx)) ∧
      ∀ n, (ctx'.plug (.node .red .nil n .nil)).shape = graft n path t.shape) ∨
    (followPath s path ctx.parent (linkSide ctx) = none ∧ ∀ n, graft n path t.shape = t.shape) := by
  have hlink := linkAt_eq h.around
  induction path generalizing t ctx with
  | nil =>
    rw [followPath, hlink]
    cases t with
    | nil => exact .inl ⟨[], rfl, if_pos rfl, fun n => rfl⟩
    | node c l a r => exact .inr ⟨if_neg (Option.some_ne_none a), fun n => rfl⟩
  | cons b path ih =>
    rw [followPath, hlink]
    cases t with
    | nil => exact .inl ⟨[], rfl, rfl, fun n => by cases b <;> rfl⟩
    | node c l a r =>
      cases b with
      | false =>
        have hl : Shows s (⟨.left, c, a, r⟩ :: ctx) l := shows_fill.mpr h
        rcases ih hl (linkAt_eq hl.around) with ⟨ctx', hplug, hrun, hgraft⟩ | ⟨hrun, hgraft⟩
        · refine .inl ⟨ctx' ++ [⟨.left, c, a, r⟩], ?_, ?_, fun n => ?_⟩
          · rw [Context.plug_append, ← hplug]
            rfl
          · rw [List.append_assoc]
            exact hrun
          · rw [Context.plug_append, ColorTree.shape, graft, ← hgraft]
            rfl
        · exact .inr ⟨hrun, fun n => by rw [ColorTree.shape, graft, hgraft]⟩
      | true =>
        have hr : Shows s (⟨.right, c, a, l⟩ :: ctx) r := shows_fill.mpr h
        rcases ih hr (linkAt_eq hr.around) with ⟨ctx', hplug, hrun, hgraft⟩ | ⟨hrun, hgraft⟩
        · refine .inl ⟨ctx' ++ [⟨.right, c, a, l⟩], ?_, ?_, fun n => ?_⟩
          · rw [Context.plug_append, ← hplug]
            rfl
          · rw [List.append_assoc]
            exact hrun
          · rw [Context.plug_append, ColorTree.shape, graft, ← hgraft]
            rfl
        · exact .inr ⟨hrun, fun n => by rw [ColorTree.shape, graft, hgraft]⟩

omit [DecidableEq N] in
/-- The search through the links follows the way down in the tree, to an empty place. -/
theorem searchLink_eq {κ : Type*} [LinearOrder κ] (key : N → κ) (k : κ) (h : Shows s ctx t)
    (hfuel : t.depth < fuel) :
    ∃ place, searchLink key k s fuel ctx.parent (linkSide ctx) = some place ∧
      followPath s (descend key k t.shape) ctx.parent (linkSide ctx) = some place := by
  have hlink := linkAt_eq h.around
  induction t generalizing ctx fuel with
  | nil =>
    obtain ⟨n, rfl⟩ := Nat.exists_eq_succ_of_ne_zero (Nat.ne_zero_of_lt hfuel)
    refine ⟨(ctx.parent, linkSide ctx), ?_, ?_⟩
    · rw [searchLink, hlink]
      rfl
    · rw [ColorTree.shape, descend, followPath, hlink]
      exact if_pos rfl
  | node c l a r ihl ihr =>
    obtain ⟨n, rfl⟩ := Nat.exists_eq_succ_of_ne_zero (Nat.ne_zero_of_lt hfuel)
    rw [ColorTree.depth] at hfuel
    rw [searchLink, hlink, ColorTree.root, ColorTree.shape, descend]
    by_cases hlt : k < key a
    · have hl : Shows s (⟨.left, c, a, r⟩ :: ctx) l := shows_fill.mpr h
      rw [if_pos hlt, followPath, hlink]
      simp only [if_pos hlt]
      exact ihl hl (by omega) (linkAt_eq hl.around)
    · have hr : Shows s (⟨.right, c, a, l⟩ :: ctx) r := shows_fill.mpr h
      rw [if_neg hlt, followPath, hlink]
      simp only [if_neg hlt]
      exact ihr hr (by omega) (linkAt_eq hr.around)

end Flos.Rbtree
