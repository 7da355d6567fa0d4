import Mathlib.Data.List.Infix
import Mathlib.Data.Set.Insert
import Mathlib.Logic.Function.Basic

/-!
# Walks through a tree of tables in memory

A table memory assigns an entry to each slot of each table; `child` says which entries point
to a further table. A walk follows a path of indices from a root and collects the entries it
reads, stopping at the first entry that points nowhere. The rules say which walks a write to
one slot can change: if the tables reached along the paths of a domain are pairwise distinct,
exactly those that pass through the slot.
-/

namespace Flos.Lib

variable {F I E : Type*} (child : E → Option F)

/-- The table reached from `f` along a path. -/
def tableAt (m : F → I → E) : F → List I → Option F
  | f, [] => some f
  | f, i :: path =>
    match child (m f i) with
    | some g => tableAt m g path
    | none => none

/-- The entries read by the walk from `f` along a path. -/
def walkEntries (m : F → I → E) : F → List I → List E
  | _, [] => []
  | f, i :: path =>
    m f i ::
      match child (m f i) with
      | some g => walkEntries m g path
      | none => []

/-- Overwrite one slot of one table. -/
def writeSlot [DecidableEq F] [DecidableEq I] (m : F → I → E) (f : F) (i : I) (e : E) : F → I → E :=
  Function.update m f (Function.update (m f) i e)

variable {child} {m m' : F → I → E}

/-- The empty path ends at the root. -/
@[simp] theorem tableAt_nil (f : F) : tableAt child m f [] = some f := rfl

/-- The empty path reads no entry. -/
@[simp] theorem walkEntries_nil (f : F) : walkEntries child m f [] = [] := rfl

/-- A step to a further table continues there. -/
theorem tableAt_cons_some {f g : F} {i : I} (h : child (m f i) = some g) (path : List I) :
    tableAt child m f (i :: path) = tableAt child m g path := by
  simp [tableAt, h]

/-- A step to nowhere ends the path. -/
theorem tableAt_cons_none {f : F} {i : I} (h : child (m f i) = none) (path : List I) :
    tableAt child m f (i :: path) = none := by
  simp [tableAt, h]

/-- A walk reads its first slot and continues behind it. -/
theorem walkEntries_cons_some {f g : F} {i : I} (h : child (m f i) = some g) (path : List I) :
    walkEntries child m f (i :: path) = m f i :: walkEntries child m g path := by
  simp [walkEntries, h]

/-- A walk stops at an entry that points nowhere. -/
theorem walkEntries_cons_none {f : F} {i : I} (h : child (m f i) = none) (path : List I) :
    walkEntries child m f (i :: path) = [m f i] := by
  simp [walkEntries, h]

/-- A walk of one step reads one slot. -/
theorem walkEntries_singleton (f : F) (i : I) : walkEntries child m f [i] = [m f i] := by
  cases hc : child (m f i) with
  | none => rw [walkEntries_cons_none hc]
  | some g => rw [walkEntries_cons_some hc, walkEntries_nil]

/-- Paths compose. -/
theorem tableAt_append (f : F) (p q : List I) :
    tableAt child m f (p ++ q) = (tableAt child m f p).bind fun t => tableAt child m t q := by
  induction p generalizing f with
  | nil => rfl
  | cons i p ih =>
    cases h : child (m f i) with
    | none => simp only [List.cons_append, tableAt_cons_none h, Option.bind_none]
    | some g => simp only [List.cons_append, tableAt_cons_some h, ih]

/-- A composed path continues from the table reached by its first part. -/
theorem tableAt_append_of_some {f t : F} {p : List I} (h : tableAt child m f p = some t)
    (q : List I) : tableAt child m f (p ++ q) = tableAt child m t q := by
  rw [tableAt_append, h, Option.bind_some]

/-- The last index of a path decides where it leads. -/
theorem tableAt_concat {f t : F} {p : List I} (h : tableAt child m f p = some t) (i : I) :
    tableAt child m f (p ++ [i]) = child (m t i) := by
  rw [tableAt_append_of_some h]
  cases hc : child (m t i) with
  | none => rw [tableAt_cons_none hc]
  | some g => rw [tableAt_cons_some hc, tableAt_nil]

/-- A walk continues from the table reached by the first part of its path. -/
theorem walkEntries_append_of_some {f t : F} {p : List I} (h : tableAt child m f p = some t)
    (q : List I) :
    walkEntries child m f (p ++ q) = walkEntries child m f p ++ walkEntries child m t q := by
  induction p generalizing f with
  | nil =>
    obtain rfl := Option.some.inj h
    rfl
  | cons i p ih =>
    cases hc : child (m f i) with
    | none => simp [tableAt_cons_none hc] at h
    | some g =>
      rw [tableAt_cons_some hc] at h
      simp only [List.cons_append, walkEntries_cons_some hc, ih h]

/-- The first part of a complete path is complete. -/
theorem tableAt_of_append {f t : F} {p q : List I} (h : tableAt child m f (p ++ q) = some t) :
    ∃ s, tableAt child m f p = some s ∧ tableAt child m s q = some t := by
  rw [tableAt_append] at h
  exact Option.bind_eq_some_iff.mp h

/-- A walk along a complete path reads one entry per index. -/
theorem walkEntries_length_of_some {f t : F} {p : List I} (h : tableAt child m f p = some t) :
    (walkEntries child m f p).length = p.length := by
  induction p generalizing f with
  | nil => rfl
  | cons i p ih =>
    cases hc : child (m f i) with
    | none => simp [tableAt_cons_none hc] at h
    | some g =>
      rw [tableAt_cons_some hc] at h
      simp [walkEntries_cons_some hc, ih h]

/-- A walk reads its last slot exactly when the path before it is complete. -/
theorem walkEntries_concat_length_iff {f : F} {p : List I} {i : I} :
    (walkEntries child m f (p ++ [i])).length = p.length + 1 ↔ ∃ t, tableAt child m f p = some t := by
  induction p generalizing f with
  | nil => exact iff_of_true (by rw [List.nil_append, walkEntries_singleton]; rfl) ⟨f, rfl⟩
  | cons j p ih =>
    cases hc : child (m f j) with
    | none => simp [walkEntries_cons_none hc, tableAt_cons_none hc]
    | some g =>
      rw [List.cons_append, walkEntries_cons_some hc, tableAt_cons_some hc, ← ih]
      simp

/-- Two memories agree on every slot that a walk in the first one reads. -/
def AgreeAlong (child : E → Option F) (m m' : F → I → E) (f : F) (path : List I) : Prop :=
  ∀ p i q, path = p ++ i :: q → ∀ t, tableAt child m f p = some t → m' t i = m t i

/-- Agreement along a path passes to the path behind its first slot. -/
theorem AgreeAlong.tail {f g : F} {i : I} {path : List I} (h : AgreeAlong child m m' f (i :: path))
    (hc : child (m f i) = some g) : AgreeAlong child m m' g path := by
  rintro p j q rfl t ht
  exact h (i :: p) j q rfl t (by rw [tableAt_cons_some hc, ht])

/-- Agreement along a path covers its first slot. -/
theorem AgreeAlong.head {f : F} {i : I} {path : List I}
    (h : AgreeAlong child m m' f (i :: path)) : m' f i = m f i :=
  h [] i path rfl f rfl

/-- Memories that agree along a path reach the same table. -/
theorem AgreeAlong.tableAt_eq {f : F} {path : List I} (h : AgreeAlong child m m' f path) :
    tableAt child m' f path = tableAt child m f path := by
  induction path generalizing f with
  | nil => rfl
  | cons i path ih =>
    cases hc : child (m f i) with
    | none => rw [tableAt_cons_none hc, tableAt_cons_none (by rw [h.head, hc])]
    | some g =>
      rw [tableAt_cons_some hc, tableAt_cons_some (show child (m' f i) = some g by rw [h.head, hc])]
      exact ih (h.tail hc)

/-- Memories that agree along a path give the same walk. -/
theorem AgreeAlong.walkEntries_eq {f : F} {path : List I} (h : AgreeAlong child m m' f path) :
    walkEntries child m' f path = walkEntries child m f path := by
  induction path generalizing f with
  | nil => rfl
  | cons i path ih =>
    cases hc : child (m f i) with
    | none =>
      rw [walkEntries_cons_none hc, walkEntries_cons_none (by rw [h.head, hc]), h.head]
    | some g =>
      rw [walkEntries_cons_some hc,
        walkEntries_cons_some (show child (m' f i) = some g by rw [h.head, hc]), h.head,
        ih (h.tail hc)]

/-- Overwriting a whole table that no walk along a path reads changes no such walk. -/
theorem agreeAlong_update [DecidableEq F] {f g : F} {row : I → E} {path : List I}
    (hfresh : ∀ q j r, path = q ++ j :: r → tableAt child m f q ≠ some g) :
    AgreeAlong child m (Function.update m g row) f path := by
  intro q j r hpath s hs
  have hne : s ≠ g := by
    rintro rfl
    exact hfresh q j r hpath hs
  rw [Function.update_of_ne hne]

/-- No path continues one of its own extensions. -/
theorem not_isPrefix_append_singleton (p : List I) (i : I) : ¬ p ++ [i] <+: p := by
  intro h
  have hle := h.length_le
  simp only [List.length_append, List.length_singleton] at hle
  omega

/-- Every entry on a complete path points to the next table of the path. -/
theorem exists_of_mem_walkEntries {f t : F} {path : List I} {x : E}
    (ht : tableAt child m f path = some t) (hx : x ∈ walkEntries child m f path) :
    ∃ q i r s g, path = q ++ i :: r ∧ tableAt child m f q = some s ∧ x = m s i ∧
      child x = some g := by
  induction path generalizing f with
  | nil => simp at hx
  | cons i path ih =>
    cases hc : child (m f i) with
    | none => simp [tableAt_cons_none hc] at ht
    | some g =>
      rw [tableAt_cons_some hc] at ht
      rw [walkEntries_cons_some hc] at hx
      rcases List.mem_cons.mp hx with rfl | hx
      · exact ⟨[], i, path, f, g, rfl, rfl, rfl, hc⟩
      · obtain ⟨q, j, r, s, g', rfl, hs, hxs, hg⟩ := ih ht hx
        exact ⟨i :: q, j, r, s, g', rfl, by rw [tableAt_cons_some hc, hs], hxs, hg⟩

/-- Along the paths of a domain, different paths reach different tables. -/
def DistinctTables (child : E → Option F) (dom : List I → Prop) (m : F → I → E) (root : F) : Prop :=
  ∀ p q t, dom p → dom q → tableAt child m root p = some t → tableAt child m root q = some t → p = q

/-- Every table that a walk along the path reads is reached by a path of the domain. -/
def ReadsWithin (dom : List I → Prop) (path : List I) : Prop :=
  ∀ q j r, path = q ++ j :: r → dom q

/-- Clearing a table outside the domain leaves the tables of the domain distinct. -/
theorem DistinctTables.update_fresh [DecidableEq F] {dom : List I → Prop} {root g : F}
    (row : I → E) (hdistinct : DistinctTables child dom m root)
    (hclosed : ∀ q, dom q → ReadsWithin dom q)
    (hfresh : ∀ q, dom q → tableAt child m root q ≠ some g) :
    DistinctTables child dom (Function.update m g row) root := by
  have hsame : ∀ q, dom q → tableAt child (Function.update m g row) root q =
      tableAt child m root q := fun q hq =>
    (agreeAlong_update fun a j r h => hfresh a (hclosed q hq a j r h)).tableAt_eq
  intro a b s ha hb hsa hsb
  rw [hsame a ha] at hsa
  rw [hsame b hb] at hsb
  exact hdistinct a b s ha hb hsa hsb

/-- The tables at the end of the paths of a domain. -/
def reachedTables (child : E → Option F) (dom : List I → Prop) (m : F → I → E) (root : F) : Set F :=
  {t | ∃ p, dom p ∧ tableAt child m root p = some t}

/-- Memories in which the paths lead to the same tables reach the same tables. -/
theorem reachedTables_congr {dom : List I → Prop} {root : F}
    (h : ∀ q, dom q → tableAt child m' root q = tableAt child m root q) :
    reachedTables child dom m' root = reachedTables child dom m root := by
  ext f
  exact exists_congr fun q => and_congr_right fun hq => by rw [h q hq]

section Retarget

variable [DecidableEq I]

/-- One path of the domain leads to `v`, and every other one where it led before. -/
def Retargets (child : E → Option F) (dom : List I → Prop) (m m' : F → I → E) (root : F)
    (path : List I) (v : Option F) : Prop :=
  ∀ q, dom q → tableAt child m' root q = if q = path then v else tableAt child m root q

variable {dom : List I → Prop} {root g : F} {path : List I} {v : Option F}

/-- Where one path leads to nothing, or to a table that was not reached, the tables stay
distinct. -/
theorem DistinctTables.retarget (h : DistinctTables child dom m root)
    (hpath : Retargets child dom m m' root path v)
    (hfresh : ∀ g, v = some g → g ∉ reachedTables child dom m root) :
    DistinctTables child dom m' root := by
  intro a b s ha hb hsa hsb
  rw [hpath a ha] at hsa
  rw [hpath b hb] at hsb
  by_cases hai : a = path <;> by_cases hbi : b = path
  · rw [hai, hbi]
  · rw [if_pos hai] at hsa
    rw [if_neg hbi] at hsb
    exact absurd ⟨b, hb, hsb⟩ (hfresh s hsa)
  · rw [if_pos hbi] at hsb
    rw [if_neg hai] at hsa
    exact absurd ⟨a, ha, hsa⟩ (hfresh s hsb)
  · rw [if_neg hai] at hsa
    rw [if_neg hbi] at hsb
    exact h a b s ha hb hsa hsb

/-- The tables reached afterwards: the new one, and all old ones but the one at the path. -/
theorem Retargets.mem_reached (h : Retargets child dom m m' root path v) (hdom : dom path)
    (hdistinct : DistinctTables child dom m root) {f : F} :
    f ∈ reachedTables child dom m' root ↔
      v = some f ∨ f ∈ reachedTables child dom m root ∧ tableAt child m root path ≠ some f := by
  constructor
  · intro ⟨q, hq, hf⟩
    rw [h q hq] at hf
    by_cases hqp : q = path
    · rw [if_pos hqp] at hf
      exact .inl hf
    · rw [if_neg hqp] at hf
      exact .inr ⟨⟨q, hq, hf⟩, fun hpath => hqp (hdistinct q path f hq hdom hf hpath)⟩
  · rintro (hv | ⟨⟨q, hq, hf⟩, hne⟩)
    · exact ⟨path, hdom, by rw [h path hdom, if_pos rfl, hv]⟩
    · refine ⟨q, hq, ?_⟩
      rw [h q hq, if_neg, hf]
      rintro rfl
      exact hne hf

/-- A list of the reached tables exchanges the old table at the path for the new one. -/
theorem Retargets.exchange [DecidableEq F] (h : Retargets child dom m m' root path v)
    (hdom : dom path) (hdistinct : DistinctTables child dom m root) {fs : List F} (hnodup : fs.Nodup)
    (hfs : ∀ f, f ∈ fs ↔ f ∈ reachedTables child dom m root) :
    ∃ fs' : List F, (∀ f, f ∈ fs' ↔ f ∈ reachedTables child dom m' root) ∧
      (v.toList ++ fs).Perm ((tableAt child m root path).toList ++ fs') := by
  cases hold : tableAt child m root path with
  | none =>
    refine ⟨v.toList ++ fs, fun f => ?_, .refl _⟩
    rw [h.mem_reached hdom hdistinct, hold, List.mem_append, Option.mem_toList, hfs]
    simp
  | some g =>
    have hg : g ∈ fs := (hfs g).mpr ⟨path, hdom, hold⟩
    refine ⟨v.toList ++ fs.erase g, fun f => ?_, ?_⟩
    · rw [h.mem_reached hdom hdistinct, hold, List.mem_append, Option.mem_toList,
        hnodup.mem_erase_iff, hfs]
      refine or_congr_right (and_comm.trans (and_congr_right fun _ => ?_))
      rw [ne_eq, ne_eq, Option.some.injEq, eq_comm]
    · exact ((List.perm_cons_erase hg).append_left v.toList).trans List.perm_middle

end Retarget

section Write

variable [DecidableEq F] [DecidableEq I] {t : F} {i : I} {e : E}

/-- The written slot holds the new entry. -/
@[simp] theorem writeSlot_self : writeSlot m t i e t i = e := by
  simp [writeSlot]

/-- Every other slot keeps its entry. -/
theorem writeSlot_of_ne {f : F} {j : I} (h : ¬ (f = t ∧ j = i)) :
    writeSlot m t i e f j = m f j := by
  by_cases hf : f = t
  · subst hf
    have hj : j ≠ i := fun hj => h ⟨rfl, hj⟩
    simp [writeSlot, hj]
  · simp [writeSlot, hf]

/-- Writing what is there changes nothing. -/
theorem writeSlot_eq_self (h : m t i = e) : writeSlot m t i e = m := by
  rw [writeSlot, ← h, Function.update_eq_self, Function.update_eq_self]

/-- Writing an entry that points nowhere only removes paths. -/
theorem tableAt_of_writeSlot_none (hleaf : child e = none) {f g : F} {q : List I}
    (h : tableAt child (writeSlot m t i e) f q = some g) : tableAt child m f q = some g := by
  induction q generalizing f with
  | nil => exact h
  | cons j q ih =>
    cases hc : child (writeSlot m t i e f j) with
    | none => simp [tableAt_cons_none hc] at h
    | some u =>
      rw [tableAt_cons_some hc] at h
      have hslot : ¬ (f = t ∧ j = i) := by
        rintro ⟨rfl, rfl⟩
        rw [writeSlot_self, hleaf] at hc
        cases hc
      rw [writeSlot_of_ne hslot] at hc
      rw [tableAt_cons_some hc]
      exact ih h

variable {dom : List I → Prop} {root : F} {p : List I}
  (hdistinct : DistinctTables child dom m root) (hp : dom p) (ht : tableAt child m root p = some t)

include hdistinct hp ht

/-- A write changes no walk that does not pass through the written slot. -/
theorem agreeAlong_writeSlot {path : List I} (hpath : ReadsWithin dom path)
    (havoid : ¬ p ++ [i] <+: path) : AgreeAlong child m (writeSlot m t i e) root path := by
  intro q j r hsplit s hs
  refine writeSlot_of_ne ?_
  rintro ⟨rfl, rfl⟩
  obtain rfl := hdistinct q p s (hpath q j r hsplit) hp hs ht
  exact havoid ⟨r, by simp [hsplit]⟩

variable (hreads : ReadsWithin dom p)

include hreads

/-- The table that is written stays where it was. -/
theorem tableAt_writeSlot_self : tableAt child (writeSlot m t i e) root p = some t := by
  rw [(agreeAlong_writeSlot hdistinct hp ht hreads
    (not_isPrefix_append_singleton p i)).tableAt_eq, ht]

/-- The walk to the written table is unchanged. -/
theorem walkEntries_writeSlot_self :
    walkEntries child (writeSlot m t i e) root p = walkEntries child m root p :=
  (agreeAlong_writeSlot hdistinct hp ht hreads
    (not_isPrefix_append_singleton p i)).walkEntries_eq

/-- An entry that points nowhere cuts every path through its slot. -/
theorem tableAt_writeSlot_leaf (hleaf : child e = none) (r : List I) :
    tableAt child (writeSlot m t i e) root (p ++ i :: r) = none := by
  rw [tableAt_append_of_some (tableAt_writeSlot_self hdistinct hp ht hreads),
    tableAt_cons_none (by rw [writeSlot_self, hleaf])]

/-- A walk through the written slot reads the new entry, and stops there if the entry points
nowhere or the path ends. -/
theorem walkEntries_writeSlot_leaf {r : List I} (hleaf : child e = none ∨ r = []) :
    walkEntries child (writeSlot m t i e) root (p ++ i :: r) =
      walkEntries child m root p ++ [e] := by
  rw [walkEntries_append_of_some (tableAt_writeSlot_self hdistinct hp ht hreads),
    walkEntries_writeSlot_self hdistinct hp ht hreads]
  congr 1
  rcases hleaf with hleaf | rfl
  · rw [walkEntries_cons_none (by rw [writeSlot_self, hleaf]), writeSlot_self]
  · cases hc : child e with
    | none => rw [walkEntries_cons_none (by rw [writeSlot_self, hc]), writeSlot_self]
    | some g =>
      rw [walkEntries_cons_some (g := g) (by rw [writeSlot_self, hc]), writeSlot_self,
        walkEntries_nil]

/-- At a slot behind which no path of the domain goes on, the new entry decides where the path to
the slot leads, and no other path changes. -/
theorem tableAt_writeSlot_last (hlast : ∀ q, dom q → p ++ [i] <+: q → q = p ++ [i])
    {q : List I} (hq : dom q) (hqreads : ReadsWithin dom q) :
    tableAt child (writeSlot m t i e) root q =
      if q = p ++ [i] then child e else tableAt child m root q := by
  by_cases hprefix : p ++ [i] <+: q
  · obtain rfl := hlast q hq hprefix
    rw [if_pos rfl, tableAt_append_of_some (tableAt_writeSlot_self hdistinct hp ht hreads)]
    cases hc : child e with
    | none => rw [tableAt_cons_none (by rw [writeSlot_self, hc])]
    | some g => rw [tableAt_cons_some (g := g) (by rw [writeSlot_self, hc]), tableAt_nil]
  · rw [(agreeAlong_writeSlot hdistinct hp ht hqreads hprefix).tableAt_eq, if_neg]
    rintro rfl
    exact hprefix (List.prefix_refl _)

end Write

/-! ## Linking an empty table

The slot pointed nowhere, the new table is not reached so far and is filled with entries that
point nowhere. Afterwards exactly one more path of the domain leads to a table. -/

section Link

variable [DecidableEq F] [DecidableEq I] {dom : List I → Prop} {root t g : F} {p : List I} {i : I}
  {row : I → E} {e : E}
  (hdistinct : DistinctTables child dom m root) (hclosed : ∀ q, dom q → ReadsWithin dom q)
  (hp : dom p) (ht : tableAt child m root p = some t)
  (hfresh : ∀ q, dom q → tableAt child m root q ≠ some g)
  (hrow : ∀ j, child (row j) = none) (hnone : child (m t i) = none) (hlink : child e = some g)

include hdistinct hclosed hp ht hfresh hrow hnone hlink

/-- After linking, the paths lead where they led, and the new path leads to the new table. -/
theorem tableAt_link {q : List I} (hq : ReadsWithin dom q) :
    tableAt child (writeSlot (Function.update m g row) t i e) root q =
      if q = p ++ [i] then some g else tableAt child m root q := by
  have hagree : ∀ q, ReadsWithin dom q → AgreeAlong child m (Function.update m g row) root q :=
    fun q hq => agreeAlong_update fun a j r h => hfresh a (hq a j r h)
  have hdistinct' := hdistinct.update_fresh row hclosed hfresh
  have ht' : tableAt child (Function.update m g row) root p = some t := by
    rw [(hagree p (hclosed p hp)).tableAt_eq, ht]
  have hne : g ≠ t := by
    rintro rfl
    exact hfresh p hp ht
  by_cases hprefix : p ++ [i] <+: q
  · obtain ⟨r, rfl⟩ := hprefix
    rw [List.append_assoc, List.singleton_append,
      tableAt_append_of_some (tableAt_writeSlot_self hdistinct' hp ht' (hclosed p hp)),
      tableAt_cons_some (by rw [writeSlot_self, hlink]),
      tableAt_append_of_some ht, tableAt_cons_none hnone]
    cases r with
    | nil => simp
    | cons j r =>
      rw [tableAt_cons_none, if_neg (by simp)]
      rw [writeSlot_of_ne (fun h => hne h.1), Function.update_self, hrow]
  · rw [(agreeAlong_writeSlot hdistinct' hp ht' hq hprefix).tableAt_eq,
      (hagree q hq).tableAt_eq, if_neg]
    rintro rfl
    exact hprefix (List.prefix_refl _)

/-- The tables of the domain stay distinct. -/
theorem distinctTables_link :
    DistinctTables child dom (writeSlot (Function.update m g row) t i e) root := by
  have hpath : Retargets child dom m (writeSlot (Function.update m g row) t i e) root (p ++ [i])
      (some g) := fun q hq =>
    tableAt_link hdistinct hclosed hp ht hfresh hrow hnone hlink (hclosed q hq)
  refine hdistinct.retarget hpath ?_
  rintro _ ⟨⟩ ⟨q, hq, hg⟩
  exact hfresh q hq hg

/-- A walk through the linked slot reads one entry of the empty table; every other walk is as
before. -/
theorem walkEntries_link {q : List I} (hq : ReadsWithin dom q) (hlen : q ≠ p ++ [i]) :
    walkEntries child (writeSlot (Function.update m g row) t i e) root q =
        walkEntries child m root q ∨
      ∃ j r, q = p ++ i :: j :: r ∧
        walkEntries child m root q = walkEntries child m root p ++ [m t i] ∧
        walkEntries child (writeSlot (Function.update m g row) t i e) root q =
          walkEntries child m root p ++ [e, row j] := by
  have hagree : ∀ q, ReadsWithin dom q → AgreeAlong child m (Function.update m g row) root q :=
    fun q hq => agreeAlong_update fun a j r h => hfresh a (hq a j r h)
  have hdistinct' := hdistinct.update_fresh row hclosed hfresh
  have ht' : tableAt child (Function.update m g row) root p = some t := by
    rw [(hagree p (hclosed p hp)).tableAt_eq, ht]
  have hne : g ≠ t := by
    rintro rfl
    exact hfresh p hp ht
  by_cases hprefix : p ++ [i] <+: q
  · right
    obtain ⟨r, rfl⟩ := hprefix
    cases r with
    | nil => simp at hlen
    | cons j r =>
      have hentry : writeSlot (Function.update m g row) t i e g j = row j := by
        rw [writeSlot_of_ne (fun h => hne h.1), Function.update_self]
      refine ⟨j, r, by simp, ?_, ?_⟩
      · rw [List.append_assoc, List.singleton_append, walkEntries_append_of_some ht,
          walkEntries_cons_none hnone]
      · rw [List.append_assoc, List.singleton_append,
          walkEntries_append_of_some (tableAt_writeSlot_self hdistinct' hp ht' (hclosed p hp)),
          walkEntries_writeSlot_self hdistinct' hp ht' (hclosed p hp),
          walkEntries_cons_some (by rw [writeSlot_self, hlink]), writeSlot_self,
          walkEntries_cons_none (by rw [hentry, hrow]), hentry,
          (hagree p (hclosed p hp)).walkEntries_eq]
  · left
    rw [(agreeAlong_writeSlot hdistinct' hp ht' hq hprefix).walkEntries_eq,
      (hagree q hq).walkEntries_eq]

end Link

end Flos.Lib
