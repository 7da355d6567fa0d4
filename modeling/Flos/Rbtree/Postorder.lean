import Flos.Rbtree.Links

/-!
# Postorder walks through a red-black tree

`rb_next_postorder` only looks at nodes that come later in the walk. The loop that asks for the next node
before it runs its body may therefore destroy each node that it has reached.
-/

namespace Flos.Rbtree

open Flos.Lib

variable {N : Type*} [DecidableEq N]

/-- `rb_left_deepest_node`. -/
def leftDeepest (s : Links N) : ℕ → N → Option N
  | 0, _ => none
  | fuel + 1, node =>
    match s.child .left node with
    | some n => leftDeepest s fuel n
    | none =>
      match s.child .right node with
      | some n => leftDeepest s fuel n
      | none => some node

/-- `rb_next_postorder`. -/
def rbNextPostorder (fuel : ℕ) (node : Option N) (s : Links N) : Option (Option N) :=
  match node with
  | none => some none
  | some node =>
    match (s.mem node).parent with
    | none => some none
    | some parent =>
      match s.child .right parent with
      | none => some (some parent)
      | some right =>
        if s.child .left parent = some node then (leftDeepest s fuel right).map some else some (some parent)

/-- `rb_first_postorder`. -/
def rbFirstPostorder (fuel : ℕ) (s : Links N) : Option (Option N) :=
  match s.root with
  | none => some none
  | some n => (leftDeepest s fuel n).map some

/-- The loop of `rbtree_postorder_for_each_entry_safe` from a node on, for so many rounds: the nodes it
reaches and the links it leaves. -/
def postorderLoop (body : N → Links N → Links N) (fuel : ℕ) :
    ℕ → Option N → Links N → Option (List N × Links N)
  | _, none, s => some ([], s)
  | 0, some _, _ => none
  | rounds + 1, some pos, s => do
    let n ← rbNextPostorder fuel (some pos) s
    let (reached, s) ← postorderLoop body fuel rounds n (body pos s)
    some (pos :: reached, s)

/-- `rbtree_postorder_for_each_entry_safe`. -/
def postorderForEach (body : N → Links N → Links N) (fuel rounds : ℕ) (s : Links N) :
    Option (List N × Links N) := do
  postorderLoop body fuel rounds (← rbFirstPostorder fuel s) s

variable {s s₀ : Links N} {ctx : Context N} {t : ColorTree N} {a n : N} {fuel : ℕ}

omit [DecidableEq N] in
/-- The deepest node on the left is a leaf, and the first one of the tree in postorder. -/
theorem leftDeepest_spec {p : Option N} (h : Holds s.mem p t) (hn : t.root = some n) (hfuel : t.depth ≤ fuel) :
    ∃ (ctx : Context N) (c : Color) (b : N), leftDeepest s fuel n = some b ∧
      t = ctx.plug (.node c .nil b .nil) ∧
      ∀ ctx' : Context N, t.postorder ++ ctx'.later = b :: (ctx ++ ctx').later := by
  induction t generalizing p n fuel with
  | nil => cases hn
  | node c l a r ihl ihr =>
    obtain rfl : a = n := Option.some.inj hn
    obtain ⟨hnode, hl, hr⟩ := h
    rw [ColorTree.depth] at hfuel
    obtain ⟨k, rfl⟩ := Nat.exists_eq_succ_of_ne_zero (show fuel ≠ 0 by omega)
    have hleft : s.child .left a = l.root := by rw [Links.child, hnode]; rfl
    have hright : s.child .right a = r.root := by rw [Links.child, hnode]; rfl
    rw [leftDeepest, hleft, hright]
    cases hlroot : l.root with
    | some m =>
      obtain ⟨ctx, c', b, hrun, hplug, hlater⟩ := ihl hl hlroot (show l.depth ≤ k by omega)
      refine ⟨ctx ++ [⟨.left, c, a, r⟩], c', b, hrun, ?_, fun ctx' => ?_⟩
      · rw [Context.plug_append, ← hplug]
        rfl
      · rw [List.append_assoc, List.singleton_append, ← hlater, Context.later, ColorTree.postorder]
        simp
    | none =>
      obtain rfl : l = .nil := ColorTree.eq_nil_of_root hlroot
      cases hrroot : r.root with
      | some m =>
        obtain ⟨ctx, c', b, hrun, hplug, hlater⟩ := ihr hr hrroot (show r.depth ≤ k by omega)
        refine ⟨ctx ++ [⟨.right, c, a, .nil⟩], c', b, hrun, ?_, fun ctx' => ?_⟩
        · rw [Context.plug_append, ← hplug]
          rfl
        · rw [List.append_assoc, List.singleton_append, ← hlater, Context.later, ColorTree.postorder]
          simp [ColorTree.postorder]
      | none =>
        obtain rfl : r = .nil := ColorTree.eq_nil_of_root hrroot
        exact ⟨[], c, a, rfl, rfl, fun ctx' => rfl⟩

/-- The next node in postorder is found on links that may have changed at earlier nodes. -/
theorem rbNextPostorder_cases (h : Shows s₀ ctx t) (ha : t.root = some a) (hfuel : (ctx.plug t).depth ≤ fuel)
    (hsame : ∀ x ∈ a :: ctx.later, s.mem x = s₀.mem x) :
    ctx.later = [] ∧ rbNextPostorder fuel (some a) s = some none ∨
      ∃ (b : N) (ctx' : Context N) (t' : ColorTree N), t'.root = some b ∧ Shows s₀ ctx' t' ∧
        ctx'.plug t' = ctx.plug t ∧ ctx.later = b :: ctx'.later ∧
        rbNextPostorder fuel (some a) s = some (some b) := by
  have hparent : (s.mem a).parent = ctx.parent := by
    rw [hsame a List.mem_cons_self]
    exact h.tree.parent_root ha
  cases ctx with
  | nil =>
    refine .inl ⟨rfl, ?_⟩
    rw [rbNextPostorder, hparent]
    rfl
  | cons f ctx =>
    right
    have hnodup := h.nodup
    obtain ⟨⟨hnode, hsibling, -⟩, -, -⟩ := id h
    have hkey : s.mem f.key = s₀.mem f.key := by
      refine hsame _ (List.mem_cons_of_mem _ ?_)
      rw [Context.later]
      exact List.mem_append_right _ List.mem_cons_self
    rw [hnode, ha] at hkey
    have hup : Context.later (f :: ctx) = f.key :: Context.later ctx →
        rbNextPostorder fuel (some a) s = some (some f.key) →
        ∃ (b : N) (ctx' : Context N) (t' : ColorTree N), t'.root = some b ∧ Shows s₀ ctx' t' ∧
          ctx'.plug t' = Context.plug (f :: ctx) t ∧ Context.later (f :: ctx) = b :: ctx'.later ∧
          rbNextPostorder fuel (some a) s = some (some b) :=
      fun hlater hnext => ⟨f.key, ctx, f.fill t, ColorTree.root_branch _ _ _ _ _, shows_fill.mp h, rfl, hlater, hnext⟩
    obtain ⟨d, c, b, u⟩ := f
    dsimp only at hkey hsibling
    cases d with
    | left =>
      have hright : s.child .right b = u.root := by rw [Links.child, hkey]; rfl
      have hleft : s.child .left b = some a := by rw [Links.child, hkey]; rfl
      cases hu : u.root with
      | none =>
        obtain rfl : u = .nil := ColorTree.eq_nil_of_root hu
        refine hup rfl ?_
        rw [rbNextPostorder, hparent, Context.parent_cons]
        dsimp only
        rw [hright]
        rfl
      | some m =>
        have hdepth := Context.length_add_depth_le ctx (Frame.fill ⟨.left, c, b, u⟩ t)
        have hudepth : u.depth + 1 ≤ (Frame.fill ⟨.left, c, b, u⟩ t).depth := by
          simp [Frame.fill, ColorTree.branch, ColorTree.depth]
        rw [Context.plug_cons] at hfuel
        have hsibling' : Holds s.mem (some b) u := hsibling.congr fun x hx => by
          refine hsame x (List.mem_cons_of_mem _ ?_)
          rw [Context.later, if_pos rfl]
          exact List.mem_append_left _ ((ColorTree.perm_postorder u).mem_iff.mpr hx)
        obtain ⟨ctx', c', b', hrun, hplug, hlater⟩ := leftDeepest_spec hsibling' hu (show u.depth ≤ fuel by omega)
        refine ⟨b', ctx' ++ ⟨.right, c, b, t⟩ :: ctx, .node c' .nil b' .nil, rfl, ?_, ?_, ?_, ?_⟩
        · rw [← shows_plug, Context.plug_append, ← hplug, shows_plug]
          exact shows_swap.mp h
        · rw [Context.plug_append, ← hplug]
          rfl
        · rw [← hlater]
          rfl
        · rw [rbNextPostorder, hparent, Context.parent_cons]
          dsimp only
          rw [hright, hu]
          dsimp only
          rw [if_pos hleft, hrun]
          rfl
    | right =>
      have hleft : s.child .left b = u.root := by rw [Links.child, hkey]; rfl
      have hright : s.child .right b = some a := by rw [Links.child, hkey]; rfl
      refine hup rfl ?_
      rw [rbNextPostorder, hparent, Context.parent_cons]
      dsimp only
      rw [hright]
      dsimp only
      rw [if_neg]
      rw [hleft]
      intro hroot
      have hmem : a ∈ Context.keys (⟨.right, c, b, u⟩ :: ctx) :=
        List.mem_append_left _ (List.mem_cons_of_mem _ (ColorTree.mem_order_of_root hroot))
      exact (List.nodup_append.mp hnodup).2.2 a (ColorTree.mem_order_of_root ha) a hmem rfl

/-- Each round reaches the next node in postorder, runs the body there, and leaves the later nodes alone. -/
theorem postorderLoop_spec {body : N → Links N → Links N}
    (hbody : ∀ a s b, b ≠ a → (body a s).mem b = s.mem b) {rounds : ℕ} (h : Shows s₀ ctx t)
    (ha : t.root = some a) (hfuel : (ctx.plug t).depth ≤ fuel) (hnodup : (a :: ctx.later).Nodup)
    (hsame : ∀ x ∈ a :: ctx.later, s.mem x = s₀.mem x) (hrounds : (a :: ctx.later).length ≤ rounds) :
    postorderLoop body fuel rounds (some a) s =
      some (a :: ctx.later, (a :: ctx.later).foldl (fun s a => body a s) s) := by
  induction rounds generalizing s ctx t a with
  | zero => cases hrounds
  | succ rounds ih =>
    rcases rbNextPostorder_cases h ha hfuel hsame with ⟨hlater, hnext⟩ | ⟨b, ctx', t', hb, h', hplug, hlater, hnext⟩
    · rw [postorderLoop, hnext, hlater]
      cases rounds <;> rfl
    · rw [hlater] at hnodup hsame hrounds ⊢
      have hround := ih (s := body a s) h' hb (hplug ▸ hfuel) hnodup.of_cons
        (fun x hx => ?_) (Nat.le_of_succ_le_succ hrounds)
      · rw [postorderLoop, hnext, Option.bind_eq_bind, Option.bind_some, hround]
        rfl
      · rw [hbody a s x, hsame x (List.mem_cons_of_mem _ hx)]
        rintro rfl
        exact (List.nodup_cons.mp hnodup).1 hx

/-- The loop reaches every node once, children before their parents, whatever its body does to the node
that it has reached. -/
theorem postorderForEach_eq {body : N → Links N → Links N}
    (hbody : ∀ a s b, b ≠ a → (body a s).mem b = s.mem b) (h : Shows s [] t) (hfuel : t.depth ≤ fuel)
    {rounds : ℕ} (hrounds : t.order.length ≤ rounds) :
    postorderForEach body fuel rounds s =
      some (t.postorder, t.postorder.foldl (fun s a => body a s) s) := by
  have hroot : s.root = t.root := h.around
  rw [postorderForEach, rbFirstPostorder, hroot]
  cases hn : t.root with
  | none =>
    obtain rfl := ColorTree.eq_nil_of_root hn
    cases rounds <;> rfl
  | some n =>
    obtain ⟨ctx, c, b, hrun, hplug, hlater⟩ := leftDeepest_spec h.tree hn hfuel
    have hpost : t.postorder = b :: ctx.later := by
      have hwhole := hlater []
      rwa [List.append_nil, Context.later, List.append_nil] at hwhole
    have hperm := ColorTree.perm_postorder t
    have hnodup : t.postorder.Nodup := hperm.nodup_iff.mpr (List.nodup_append.mp h.nodup).1
    rw [hpost] at hnodup hperm ⊢
    have hloop := postorderLoop_spec (s := s) hbody (shows_plug.mp (hplug ▸ h))
      rfl (hplug ▸ hfuel) hnodup (fun x _ => rfl) (hperm.length_eq ▸ hrounds)
    dsimp only
    rw [hrun, Option.map_some, Option.bind_eq_bind, Option.bind_some]
    exact hloop

/-- A body that clears the links of the node it has reached. -/
theorem postorderForEach_eq_threeNodes :
    (postorderForEach (fun a s => s.write a ⟨none, .red, none, none⟩) 2 3 threeNodes).map Prod.fst = some [1, 3, 2] := by
  have hwalk : postorderForEach (fun a s => s.write a ⟨none, .red, none, none⟩) 2 3 threeNodes = _ :=
    postorderForEach_eq (fun a s b hb => Function.update_of_ne hb _ _) shows_threeNodes (by decide) (by decide)
  rw [hwalk]
  rfl

end Flos.Rbtree
