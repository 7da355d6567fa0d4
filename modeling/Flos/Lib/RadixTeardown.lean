import Mathlib.Data.List.Nodup
import Flos.Lib.RadixWalk

/-!
# Tearing down a tree of tables

A teardown visits the tables below some slots, each table behind the tables below it. What it
visits are the tables at the end of the paths through these slots; where different paths reach
different tables it visits each of them once.
-/

namespace Flos.Lib

variable {F I E : Type*} (child : E → Option F) (m : F → I → E) (all : List I)

/-- The tables below the slots of a table, `depth` levels deep, each behind the tables below it;
`all` lists the slots of the lower tables. -/
def subtables : ℕ → F → List I → List F
  | 0, _, _ => []
  | depth + 1, t, slots =>
    slots.flatMap fun i =>
      match child (m t i) with
      | none => []
      | some g => subtables depth g all ++ [g]

variable {child m all}

/-- The tables that are visited are those at the end of the paths. -/
theorem mem_subtables (hall : ∀ i, i ∈ all) {depth : ℕ} {t f : F} {slots : List I} :
    f ∈ subtables child m all depth t slots ↔
      ∃ i ∈ slots, ∃ q : List I, q.length < depth ∧ tableAt child m t (i :: q) = some f := by
  induction depth generalizing t f slots with
  | zero => simp [subtables]
  | succ depth ih =>
    rw [subtables, List.mem_flatMap]
    refine exists_congr fun i => and_congr_right fun _ => ?_
    cases hc : child (m t i) with
    | none => simp [tableAt_cons_none hc]
    | some g =>
      simp only [List.mem_append, List.mem_singleton, ih, tableAt_cons_some hc]
      constructor
      · rintro (⟨j, -, q, hlen, hq⟩ | rfl)
        · exact ⟨j :: q, by simpa using hlen, hq⟩
        · exact ⟨[], by simp, rfl⟩
      · rintro ⟨q, hlen, hq⟩
        cases q with
        | nil => exact .inr (Option.some.inj hq).symm
        | cons j q => exact .inl ⟨j, hall j, q, by simpa using hlen, hq⟩

/-- Where different paths reach different tables, each table is visited once. -/
theorem nodup_subtables {dom : List I → Prop} {root t : F} {p slots : List I} {depth : ℕ}
    (hdistinct : DistinctTables child dom m root) (hall : ∀ i, i ∈ all) (hallNodup : all.Nodup)
    (ht : tableAt child m root p = some t) (hslots : slots.Nodup)
    (hdom : ∀ i ∈ slots, ∀ q : List I, q.length < depth → dom (p ++ i :: q)) :
    (subtables child m all depth t slots).Nodup := by
  induction depth generalizing t p slots with
  | zero => exact List.nodup_nil
  | succ depth ih =>
    -- the paths to a table below `t` agree
    have hpath : ∀ {i j : I} {q r : List I} {f : F}, i ∈ slots → j ∈ slots → q.length < depth + 1 →
        r.length < depth + 1 → tableAt child m t (i :: q) = some f →
        tableAt child m t (j :: r) = some f → i = j ∧ q = r := by
      intro i j q r f hi hj hq hr hfi hfj
      have heq := hdistinct _ _ f (hdom i hi q hq) (hdom j hj r hr)
        (by rw [tableAt_append_of_some ht, hfi]) (by rw [tableAt_append_of_some ht, hfj])
      simpa using heq
    have hbelow : ∀ {i : I} {f : F}, (f ∈ match child (m t i) with
        | none => []
        | some g => subtables child m all depth g all ++ [g]) →
        ∃ q : List I, q.length < depth + 1 ∧ tableAt child m t (i :: q) = some f := by
      intro i f hf
      cases hc : child (m t i) with
      | none => simp [hc] at hf
      | some g =>
        simp only [hc, List.mem_append, List.mem_singleton, mem_subtables hall] at hf
        rcases hf with ⟨j, -, q, hlen, hq⟩ | rfl
        · exact ⟨j :: q, by simpa using hlen, by rw [tableAt_cons_some hc, hq]⟩
        · exact ⟨[], by simp, by rw [tableAt_cons_some hc, tableAt_nil]⟩
    rw [subtables, List.nodup_flatMap]
    refine ⟨fun i hi => ?_, hslots.imp_of_mem fun {i j} hi hj hij => ?_⟩
    · cases hc : child (m t i) with
      | none => exact List.nodup_nil
      | some g =>
        have hg : tableAt child m root (p ++ [i]) = some g := by
          rw [tableAt_append_of_some ht, tableAt_cons_some hc, tableAt_nil]
        have hrest := ih hg hallNodup fun j _ q hq => by
          rw [List.append_assoc, List.singleton_append]
          exact hdom i hi (j :: q) (by simpa using hq)
        refine List.nodup_append.mpr ⟨hrest, by simp, fun f hf g' hg' => ?_⟩
        obtain rfl := List.mem_singleton.mp hg'
        obtain ⟨j, -, q, hlen, hq⟩ := (mem_subtables hall).mp hf
        rintro rfl
        have heq := hpath (q := j :: q) (r := []) hi hi (by simpa using hlen) (by simp)
          (by rw [tableAt_cons_some hc, hq]) (by rw [tableAt_cons_some hc, tableAt_nil])
        simp at heq
    · intro f hfi hfj
      obtain ⟨q, hq, hfq⟩ := hbelow hfi
      obtain ⟨r, hr, hfr⟩ := hbelow hfj
      exact hij (hpath hi hj hq hr hfq hfr).1

/-- The tables that are visited depend on the entries of the paths only. -/
theorem subtables_congr {m' : F → I → E} {depth : ℕ} {t : F} {slots : List I}
    (h : ∀ i ∈ slots, ∀ q : List I, q.length < depth → AgreeAlong child m m' t (i :: q)) :
    subtables child m' all depth t slots = subtables child m all depth t slots := by
  induction depth generalizing t slots with
  | zero => rfl
  | succ depth ih =>
    rw [subtables, subtables]
    refine List.flatMap_congr fun i hi => ?_
    rw [(h i hi [] (Nat.succ_pos depth)).head]
    cases hc : child (m t i) with
    | none => rfl
    | some g =>
      simp only
      rw [ih fun j _ q hq => (h i hi (j :: q) (Nat.succ_lt_succ hq)).tail hc]

end Flos.Lib
