import Mathlib.Data.Nat.Notation
import Mathlib.Tactic.TypeStar

/-!
# Finite runs of a labelled step relation

A run records the labels it performed, oldest first. The two rules below are the only
inductions over whole runs used in this development: an invariant that holds at the
start and is preserved by each step holds at the end, and a property of every step
taken from an invariant state holds of every step of the run.
-/

namespace Flos.Lib

variable {S A : Type*}

/-- `Run step s ops t`: performing `ops` in order from `s` can end in `t`. -/
inductive Run (step : S → A → S → Prop) : S → List A → S → Prop
  | nil (s : S) : Run step s [] s
  | snoc {s t u : S} {ops : List A} {op : A} :
      Run step s ops t → step t op u → Run step s (ops ++ [op]) u

/-- An invariant preserved by each step holds after every run that starts in it. -/
theorem Run.invariant {step : S → A → S → Prop} (Inv : S → Prop)
    (hstep : ∀ s op t, Inv s → step s op t → Inv t) {s t : S} {ops : List A}
    (hrun : Run step s ops t) (hs : Inv s) : Inv t := by
  induction hrun with
  | nil => exact hs
  | snoc _ hlast ih => exact hstep _ _ _ ih hlast

/-- One step is a run of length one. -/
theorem Run.single {step : S → A → S → Prop} {s t : S} {op : A} (h : step s op t) :
    Run step s [op] t :=
  (Run.nil s).snoc h

/-- A run can be extended at its front. -/
theorem Run.cons {step : S → A → S → Prop} {s t u : S} {op : A} {ops : List A}
    (hfirst : step s op t) (hrun : Run step t ops u) : Run step s (op :: ops) u := by
  induction hrun with
  | nil => exact Run.single hfirst
  | snoc _ hlast ih => exact ih.snoc hlast

/-- A deterministic step function runs through every list of labels. -/
theorem Run.of_foldl {next : S → A → S} (s : S) (ops : List A) :
    Run (fun s op t => t = next s op) s ops (ops.foldl next s) := by
  induction ops generalizing s with
  | nil => exact Run.nil s
  | cons op ops ih => exact Run.cons rfl (ih (next s op))

/-- If every step of one machine is answered by a step of another with the same label, then so is every
run. -/
theorem Run.simulation {S' : Type*} {step : S → A → S → Prop} {step' : S' → A → S' → Prop}
    (R : S → S' → Prop)
    (hstep : ∀ s s' op t, R s s' → step s op t → ∃ t', step' s' op t' ∧ R t t') {s t : S} {s' : S'}
    {ops : List A} (hrun : Run step s ops t) (hs : R s s') :
    ∃ t', Run step' s' ops t' ∧ R t t' := by
  induction hrun with
  | nil => exact ⟨s', Run.nil s', hs⟩
  | snoc _ hlast ih =>
    obtain ⟨u', hrun', hu⟩ := ih
    obtain ⟨t', hlast', ht⟩ := hstep _ _ _ _ hu hlast
    exact ⟨t', hrun'.snoc hlast', ht⟩

/-! ## Runs of a step function -/

/-- A property of every state that a sequence of calls goes through, the first one included. -/
def EveryState (next : S → A → S) (P : S → Prop) : S → List A → Prop
  | s, [] => P s
  | s, op :: ops => P s ∧ EveryState next P (next s op) ops

/-- A property of every call of a sequence and of the state in which it is made. -/
def EveryStep (next : S → A → S) (C : S → A → Prop) : S → List A → Prop
  | _, [] => True
  | s, op :: ops => C s op ∧ EveryStep next C (next s op) ops

instance EveryStep.decidable {next : S → A → S} {C : S → A → Prop} [∀ s op, Decidable (C s op)] :
    (s : S) → (ops : List A) → Decidable (EveryStep next C s ops)
  | _, [] => .isTrue trivial
  | s, op :: ops => @instDecidableAnd (C s op) _ _ (EveryStep.decidable (next s op) ops)

/-- An invariant that the allowed calls keep holds in every state. -/
theorem EveryStep.everyState {next : S → A → S} {C : S → A → Prop} {Inv P : S → Prop}
    (hP : ∀ s, Inv s → P s) (hstep : ∀ s op, Inv s → C s op → Inv (next s op)) {s : S} {ops : List A}
    (hops : EveryStep next C s ops) (hs : Inv s) : EveryState next P s ops := by
  induction ops generalizing s with
  | nil => exact hP s hs
  | cons op ops ih => exact ⟨hP s hs, ih hops.2 (hstep s op hs hops.1)⟩

/-- What an invariant gives for the allowed calls holds of every call. -/
theorem EveryStep.of_inv {next : S → A → S} {C D : S → A → Prop} {Inv : S → Prop}
    (hD : ∀ s op, Inv s → C s op → D s op) (hstep : ∀ s op, Inv s → C s op → Inv (next s op)) {s : S}
    {ops : List A} (hops : EveryStep next C s ops) (hs : Inv s) : EveryStep next D s ops := by
  induction ops generalizing s with
  | nil => trivial
  | cons op ops ih => exact ⟨hD s op hs hops.1, ih hops.2 (hstep s op hs hops.1)⟩

/-- Two conditions on calls that agree in all states of the run. -/
theorem everyStep_congr {next : S → A → S} {C C' : S → A → Prop} (Inv : S → Prop)
    (hstep : ∀ s op, Inv s → Inv (next s op)) (hiff : ∀ s op, Inv s → (C s op ↔ C' s op)) {s : S}
    {ops : List A} (hs : Inv s) : EveryStep next C s ops ↔ EveryStep next C' s ops := by
  induction ops generalizing s with
  | nil => rfl
  | cons op ops ih => exact and_congr (hiff s op hs) (ih (hstep s op hs))

/-- The first state of a run. -/
theorem EveryState.first {next : S → A → S} {P : S → Prop} {s : S} {ops : List A}
    (h : EveryState next P s ops) : P s := by
  cases ops with
  | nil => exact h
  | cons op ops => exact h.1

/-- The last state of a run. -/
theorem EveryState.last {next : S → A → S} {P : S → Prop} {s : S} {ops : List A}
    (h : EveryState next P s ops) : P (ops.foldl next s) := by
  induction ops generalizing s with
  | nil => exact h
  | cons op ops ih => exact ih h.2

/-- If exactly the good calls keep what holds so far, a run keeps it exactly when all calls are good. -/
theorem everyState_iff_everyStep {next : S → A → S} {Allowed Good : S → A → Prop} {Inv P : S → Prop}
    (hP : ∀ s, Inv s → P s)
    (hgood : ∀ s op, Inv s → Allowed s op → Good s op → Inv (next s op))
    (hbad : ∀ s op, Inv s → Allowed s op → P (next s op) → Good s op) {s : S} {ops : List A}
    (hops : EveryStep next Allowed s ops) (hs : Inv s) :
    EveryState next P s ops ↔ EveryStep next Good s ops := by
  induction ops generalizing s with
  | nil => exact iff_of_true (hP s hs) trivial
  | cons op ops ih =>
    constructor
    · intro h
      have hop := hbad s op hs hops.1 h.2.first
      exact ⟨hop, (ih hops.2 (hgood s op hs hops.1 hop)).mp h.2⟩
    · intro h
      exact ⟨hP s hs, (ih hops.2 (hgood s op hs hops.1 h.1)).mpr h.2⟩

/-! ## Runs with outputs -/

/-- The outputs of a sequence of calls, and the state that it leaves. -/
def outputs {B : Type*} (exec : S → A → B × S) : S → List A → List B × S
  | s, [] => ([], s)
  | s, op :: ops =>
    let r := outputs exec (exec s op).2 ops
    ((exec s op).1 :: r.1, r.2)

/-- Machines whose calls have the same outputs from related states have the same outputs over whole runs. -/
theorem outputs_simulation {B S' : Type*} {exec : S → A → B × S} {exec' : S' → A → B × S'}
    (R : S → S' → Prop)
    (hstep : ∀ s s' op, R s s' → (exec s op).1 = (exec' s' op).1 ∧ R (exec s op).2 (exec' s' op).2)
    {s : S} {s' : S'} (hs : R s s') (ops : List A) :
    (outputs exec s ops).1 = (outputs exec' s' ops).1 ∧
      R (outputs exec s ops).2 (outputs exec' s' ops).2 := by
  induction ops generalizing s s' with
  | nil => exact ⟨rfl, hs⟩
  | cons op ops ih =>
    obtain ⟨hout, hnext⟩ := hstep s s' op hs
    obtain ⟨houts, hlast⟩ := ih hnext
    refine ⟨?_, hlast⟩
    change _ :: _ = _ :: _
    rw [hout, houts]

end Flos.Lib
