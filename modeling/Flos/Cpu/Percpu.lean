import Flos.Lib.ByteMem
import Flos.Lib.Runs
import Flos.Mm.Types
import Mathlib.Order.Nat

/-!
# Per-CPU variables

`init_percpu` copies the template of the per-CPU section and then stores the address of the copy in its
first eight bytes, where `this_cpu_ptr` finds it. `linker.ld` packs the variables from the start of the
section, so those bytes belong to variables too. Accesses relative to `gs` are right for every placement;
what goes wrong is exactly what meets the first eight bytes, and the carry of `incq` and `decq` out of a
variable that is smaller than a word.
-/

namespace Flos.Cpu

open Flos.Lib
open Flos.Mm (wordSize)

/-- A variable of `.data..percpu`: its offset and size, and its initial bytes. -/
structure PercpuVar where
  off : ℕ
  size : ℕ
  init : ByteMem

/-- The variables as `linker.ld` lays them out from `_percpu_start` to `_percpu_end`. -/
structure Placement where
  vars : List PercpuVar
  size : ℕ
  inside : ∀ v ∈ vars, v.off + v.size ≤ size
  apart : vars.Pairwise fun v w => v.off + v.size ≤ w.off

/-- A variable by its place in the section. -/
abbrev Placement.Var (p : Placement) := Fin p.vars.length

/-- The declaration of a variable. -/
def Placement.var (p : Placement) (i : p.Var) : PercpuVar := p.vars.get i

/-- The bytes of the section in the kernel image. -/
def Placement.template (p : Placement) : ByteMem := fun k =>
  (p.vars.find? fun v => v.off ≤ k ∧ k < v.off + v.size).elim 0 fun v => v.init (k - v.off)

/-- The area of a CPU: a block that `kmalloc` returned for the section, not in the last word of the address
space, and its address in `gs`. -/
structure Area where
  placement : Placement
  base : ℕ
  fits : base + placement.size + 8 ≤ wordSize

variable {a : Area}

/-- `init_percpu` on one area: the template is copied, and the area's own address stored at its start. -/
def initPercpu (a : Area) (m : ByteMem) : ByteMem :=
  writeLE (fun x => if a.base ≤ x ∧ x < a.base + a.placement.size then
    a.placement.template (x - a.base) else m x) a.base 8 a.base

/-- `this_cpu_ptr`: `mov %gs:0` and the offset added. -/
def thisCpuPtr (a : Area) (m : ByteMem) (i : a.placement.Var) : ℕ :=
  (readLE m a.base 8 + (a.placement.var i).off) % wordSize

/-- The address of a variable relative to `gs`. -/
def gsAddr (a : Area) (i : a.placement.Var) : ℕ := (a.base + (a.placement.var i).off) % wordSize

/-- `this_cpu_read`. -/
def thisCpuRead (a : Area) (m : ByteMem) (i : a.placement.Var) : ℕ :=
  readLE m (gsAddr a i) (a.placement.var i).size

/-- A store: `this_cpu_write`, `this_cpu_inc`, `this_cpu_dec`, and `n` bytes at offset `k` of a variable
through `this_cpu_ptr`. -/
inductive PercpuOp (a : Area)
  | write (i : a.placement.Var) (v : ℕ)
  | inc (i : a.placement.Var)
  | dec (i : a.placement.Var)
  | ptrStore (i : a.placement.Var) (k n v : ℕ)

/-- Stores through a pointer stay in the variable. -/
def PercpuOp.Allowed : PercpuOp a → Prop
  | .write _ _ => True
  | .inc _ => True
  | .dec _ => True
  | .ptrStore i k n _ => k + n ≤ (a.placement.var i).size

/-- A store as the code makes it: `incq` and `decq` are on eight bytes, whatever the size of the variable. -/
def PercpuOp.exec (m : ByteMem) : PercpuOp a → ByteMem
  | .write i v => writeLE m (gsAddr a i) (a.placement.var i).size v
  | .inc i => writeLE m (gsAddr a i) 8 (readLE m (gsAddr a i) 8 + 1)
  | .dec i => writeLE m (gsAddr a i) 8 (readLE m (gsAddr a i) 8 + (wordSize - 1))
  | .ptrStore i k n v => writeLE m ((thisCpuPtr a m i + k) % wordSize) n v

/-- The last bytes stored to each variable. -/
abbrev Values (a : Area) := a.placement.Var → ByteMem

/-- The bytes of a variable that count: all of them, or the first word of a larger one. -/
def PercpuVar.width (v : PercpuVar) : ℕ := min v.size 8

/-- What a store means for its variable: the offset, the number of bytes and the value. -/
def PercpuOp.stored (vals : Values a) : PercpuOp a → a.placement.Var × ℕ × ℕ × ℕ
  | .write i v => (i, 0, (a.placement.var i).size, v)
  | .inc i => (i, 0, (a.placement.var i).width, readLE (vals i) 0 (a.placement.var i).width + 1)
  | .dec i => (i, 0, (a.placement.var i).width, readLE (vals i) 0 (a.placement.var i).width + (wordSize - 1))
  | .ptrStore i k n v => (i, k, n, v)

/-- The bytes of the variable behind a store. -/
def PercpuOp.bytes (vals : Values a) (op : PercpuOp a) : ByteMem :=
  writeLE (vals (op.stored vals).1) (op.stored vals).2.1 (op.stored vals).2.2.1 (op.stored vals).2.2.2

/-- A store, and what was stored last. -/
def execValues (p : ByteMem × Values a) (op : PercpuOp a) : ByteMem × Values a :=
  (op.exec p.1, Function.update p.2 (op.stored p.2).1 (op.bytes p.2))

/-- Every variable is where `this_cpu_ptr` says and reads as it was stored last. -/
def Undisturbed (p : ByteMem × Values a) : Prop :=
  ∀ i : a.placement.Var, thisCpuPtr a p.1 i = a.base + (a.placement.var i).off ∧
    thisCpuRead a p.1 i = readLE (p.2 i) 0 (a.placement.var i).size

/-- The bytes of a variable in the first eight bytes of the area are those of the area's address. -/
def SparesSelf (a : Area) (i : a.placement.Var) (bytes : ByteMem) : Prop :=
  ∀ j < (a.placement.var i).size, (a.placement.var i).off + j < 8 →
    bytes j = Fin.ofNat 256 (a.base / 256 ^ ((a.placement.var i).off + j))

/-- `incq` carries, or `decq` borrows, into the byte at this distance from the start of its variable and behind
it: all bytes before that one, those of the variable included, are full or zero. -/
def PercpuOp.Spills (m : ByteMem) : PercpuOp a → ℕ → Prop
  | .inc i, j => (a.placement.var i).size ≤ j ∧ ∀ k < j, m (gsAddr a i + k) = 255
  | .dec i, j => (a.placement.var i).size ≤ j ∧ ∀ k < j, m (gsAddr a i + k) = 0
  | .write _ _, _ => False
  | .ptrStore _ _ _ _, _ => False

/-- No variable has the byte at an offset, nor is it one of the first eight. -/
def SparedByte (a : Area) (x : ℕ) : Prop :=
  8 ≤ x ∧ ∀ i, x < (a.placement.var i).off ∨ (a.placement.var i).off + (a.placement.var i).size ≤ x

/-- A store that leaves the address at the start of the area intact, and other variables. -/
def SparingOp (p : ByteMem × Values a) (op : PercpuOp a) : Prop :=
  SparesSelf a (op.stored p.2).1 (op.bytes p.2) ∧
    ∀ j < 8, op.Spills p.1 j → SparedByte a ((a.placement.var (op.stored p.2).1).off + j)

instance PercpuOp.decidableAllowed : (op : PercpuOp a) → Decidable op.Allowed
  | .write _ _ => .isTrue trivial
  | .inc _ => .isTrue trivial
  | .dec _ => .isTrue trivial
  | .ptrStore _ _ _ _ => inferInstanceAs (Decidable (_ ≤ _))

instance PercpuOp.decidableSpills (m : ByteMem) : (op : PercpuOp a) → (j : ℕ) → Decidable (op.Spills m j)
  | .inc _, _ => inferInstanceAs (Decidable (_ ≤ _ ∧ _))
  | .dec _, _ => inferInstanceAs (Decidable (_ ≤ _ ∧ _))
  | .write _ _, _ => .isFalse id
  | .ptrStore _ _ _ _, _ => .isFalse id

instance (i : a.placement.Var) (bytes : ByteMem) : Decidable (SparesSelf a i bytes) :=
  inferInstanceAs (Decidable (∀ _ < _, _ → _))

instance (x : ℕ) : Decidable (SparedByte a x) := inferInstanceAs (Decidable (_ ∧ _))

instance (p : ByteMem × Values a) (op : PercpuOp a) : Decidable (SparingOp p op) :=
  inferInstanceAs (Decidable (_ ∧ _))

/-! ## Variables do not overlap -/

/-- A variable lies inside the section. -/
theorem Placement.var_inside (p : Placement) (i : p.Var) : (p.var i).off + (p.var i).size ≤ p.size :=
  p.inside _ (List.get_mem p.vars i)

/-- Two different variables have no byte in common. -/
theorem Placement.var_apart (p : Placement) {i i' : p.Var} (h : i ≠ i') :
    (p.var i).off + (p.var i).size ≤ (p.var i').off ∨
      (p.var i').off + (p.var i').size ≤ (p.var i).off := by
  have happart := List.pairwise_iff_getElem.mp p.apart
  cases Nat.lt_or_gt_of_ne (Fin.val_ne_of_ne h) with
  | inl hlt => exact .inl (happart i i' i.isLt i'.isLt hlt)
  | inr hgt => exact .inr (happart i' i i'.isLt i.isLt hgt)

/-- The template holds the initial bytes of every variable. -/
theorem Placement.template_var (p : Placement) (i : p.Var) {j : ℕ} (hj : j < (p.var i).size) :
    p.template ((p.var i).off + j) = (p.var i).init j := by
  let covers := fun v : PercpuVar => decide (v.off ≤ (p.var i).off + j ∧
    (p.var i).off + j < v.off + v.size)
  have hmem : covers (p.var i) = true := decide_eq_true (by omega)
  have hsome : (p.vars.find? covers).isSome :=
    List.find?_isSome.mpr ⟨p.var i, List.get_mem p.vars i, hmem⟩
  obtain ⟨v, hv⟩ := Option.isSome_iff_exists.mp hsome
  have hfound : covers v = true := List.find?_some hv
  have hcover := of_decide_eq_true hfound
  obtain ⟨i', hi'⟩ := List.get_of_mem (List.mem_of_find?_eq_some hv)
  have hsame : i' = i := by
    by_contra hne
    have happart := p.var_apart hne
    rw [Placement.var, hi'] at happart
    omega
  have hvar : v = p.var i := by rw [← hi', hsame]; rfl
  show (p.vars.find? covers).elim 0 _ = _
  rw [hv, hvar]
  exact congrArg (p.var i).init (Nat.add_sub_cancel_left _ _)

/-! ## The area -/

/-- The start of the area holds its address, and every variable its bytes. -/
structure AreaHolds (a : Area) (m : ByteMem) (vals : Values a) : Prop where
  self : readLE m a.base 8 = a.base
  bytes : ∀ i : a.placement.Var, ∀ j < (a.placement.var i).size,
    m (a.base + (a.placement.var i).off + j) = vals i j

/-- An address behind `gs` does not wrap. -/
theorem gsAddr_eq (i : a.placement.Var) : gsAddr a i = a.base + (a.placement.var i).off := by
  have hinside := a.placement.var_inside i
  have hfits := a.fits
  exact Nat.mod_eq_of_lt (by omega)

/-- `this_cpu_ptr` is right exactly when the start of the area holds its address. -/
theorem thisCpuPtr_eq_iff (m : ByteMem) (i : a.placement.Var) :
    thisCpuPtr a m i = a.base + (a.placement.var i).off ↔ readLE m a.base 8 = a.base := by
  have hinside := a.placement.var_inside i
  have hfits := a.fits
  have hword : readLE m a.base 8 < wordSize := readLE_lt m a.base 8
  simp only [thisCpuPtr, wordSize] at *
  omega

/-- The claim on the accesses, byte by byte. -/
theorem undisturbed_iff (i₀ : a.placement.Var) (m : ByteMem) (vals : Values a) :
    Undisturbed (m, vals) ↔ AreaHolds a m vals := by
  have hread : ∀ i : a.placement.Var, thisCpuRead a m i = readLE (vals i) 0 (a.placement.var i).size ↔
      ∀ j < (a.placement.var i).size, m (a.base + (a.placement.var i).off + j) = vals i j := by
    intro i
    rw [thisCpuRead, gsAddr_eq, readLE_eq_readLE_iff]
    simp only [Nat.zero_add]
  constructor
  · intro h
    exact ⟨(thisCpuPtr_eq_iff m i₀).mp (h i₀).1, fun i => (hread i).mp (h i).2⟩
  · intro h i
    exact ⟨(thisCpuPtr_eq_iff m i).mpr h.self, (hread i).mpr (h.bytes i)⟩

/-- After `init_percpu`, the variables are right exactly when their initial bytes spare the address. -/
theorem areaHolds_init_iff (a : Area) (m : ByteMem) :
    AreaHolds a (initPercpu a m) (fun i => (a.placement.var i).init) ↔
      ∀ i, SparesSelf a i (a.placement.var i).init := by
  have hself : readLE (initPercpu a m) a.base 8 = a.base :=
    readLE_writeLE_self (by have := a.fits; simp only [wordSize] at this; omega)
  have hbyte : ∀ (i : a.placement.Var), ∀ j < (a.placement.var i).size,
      initPercpu a m (a.base + (a.placement.var i).off + j) =
        if (a.placement.var i).off + j < 8 then
          Fin.ofNat 256 (a.base / 256 ^ ((a.placement.var i).off + j))
        else (a.placement.var i).init j := by
    intro i j hj
    have hinside := a.placement.var_inside i
    rw [initPercpu, writeLE_apply]
    by_cases hlow : (a.placement.var i).off + j < 8
    · rw [if_pos (by omega), if_pos hlow, Nat.add_assoc, Nat.add_sub_cancel_left]
    · rw [if_neg (by omega), if_neg hlow, if_pos (by omega), Nat.add_assoc, Nat.add_sub_cancel_left,
        a.placement.template_var i hj]
  constructor
  · intro h i j hj hlow
    rw [← h.bytes i j hj, hbyte i j hj, if_pos hlow]
  · intro h
    refine ⟨hself, fun i j hj => ?_⟩
    rw [hbyte i j hj]
    by_cases hlow : (a.placement.var i).off + j < 8
    · rw [if_pos hlow, h i j hj hlow]
    · rw [if_neg hlow]

/-- A store to bytes of a variable that changes nothing behind it. -/
theorem AreaHolds.writeLE_bytes {m : ByteMem} {vals : Values a} (h : AreaHolds a m vals)
    {i : a.placement.Var} {k n : ℕ} (v : ℕ) (hk : k + n ≤ (a.placement.var i).size) :
    (∀ j < (a.placement.var i).size,
        writeLE m (a.base + (a.placement.var i).off + k) n v (a.base + (a.placement.var i).off + j) =
          writeLE (vals i) k n v j) ∧
      ∀ x, x < a.base + (a.placement.var i).off ∨ a.base + (a.placement.var i).off + (a.placement.var i).size ≤ x →
        writeLE m (a.base + (a.placement.var i).off + k) n v x = m x := by
  refine ⟨fun j hj => ?_, fun x hx => writeLE_of_outside (by omega)⟩
  rw [writeLE_apply, writeLE_apply]
  by_cases hin : k ≤ j ∧ j < k + n
  · rw [if_pos (by omega), if_pos hin]
    congr 3
    omega
  · rw [if_neg (by omega), if_neg hin]
    exact h.bytes i j hj

/-- Counting on the eight bytes at a variable: the variable counts. -/
theorem AreaHolds.count_bytes {m : ByteMem} {vals : Values a} (h : AreaHolds a m vals) (i : a.placement.Var)
    (v : ℕ) {j : ℕ} (hj : j < (a.placement.var i).size) :
    writeLE m (gsAddr a i) 8 (readLE m (gsAddr a i) 8 + v) (a.base + (a.placement.var i).off + j) =
      writeLE (vals i) 0 (a.placement.var i).width (readLE (vals i) 0 (a.placement.var i).width + v) j := by
  have hwidth : (a.placement.var i).width ≤ (a.placement.var i).size := Nat.min_le_left _ _
  have hread : readLE m (a.base + (a.placement.var i).off) (a.placement.var i).width =
      readLE (vals i) 0 (a.placement.var i).width := by
    rw [readLE_eq_readLE_iff]
    intro k hk
    rw [Nat.zero_add]
    exact h.bytes i k (hk.trans_le hwidth)
  rw [gsAddr_eq]
  by_cases hlow : j < (a.placement.var i).width
  · rw [writeLE_add_congr m _ v hlow (Nat.min_le_right _ _), hread, writeLE_apply, writeLE_apply,
      if_pos (by omega), if_pos (by omega), Nat.add_sub_cancel_left, Nat.sub_zero]
  · have hword : 8 ≤ j := by
      rw [PercpuVar.width] at hlow
      omega
    rw [writeLE_of_outside (by omega), writeLE_of_outside (by omega)]
    exact h.bytes i j hj

/-- In a sound area a store writes its variable, and behind it exactly what it spills. -/
theorem AreaHolds.exec_bytes {m : ByteMem} {vals : Values a} (h : AreaHolds a m vals) {op : PercpuOp a}
    (hop : op.Allowed) :
    (∀ j < (a.placement.var (op.stored vals).1).size,
        op.exec m (a.base + (a.placement.var (op.stored vals).1).off + j) = op.bytes vals j) ∧
      (∀ x, x < a.base + (a.placement.var (op.stored vals).1).off ∨
          a.base + (a.placement.var (op.stored vals).1).off + (a.placement.var (op.stored vals).1).size ≤ x →
        (op.exec m x ≠ m x ↔
          ∃ j < 8, op.Spills m j ∧ x = a.base + (a.placement.var (op.stored vals).1).off + j)) := by
  have hspill : ∀ (i : a.placement.Var) (v : ℕ) (b : Fin 256),
      (∀ j < 8, writeLE m (gsAddr a i) 8 (readLE m (gsAddr a i) 8 + v) (gsAddr a i + j) = m (gsAddr a i + j) ↔
        ¬ ∀ k < j, m (gsAddr a i + k) = b) →
      ∀ x, x < a.base + (a.placement.var i).off ∨
          a.base + (a.placement.var i).off + (a.placement.var i).size ≤ x →
        (writeLE m (gsAddr a i) 8 (readLE m (gsAddr a i) 8 + v) x ≠ m x ↔
          ∃ j < 8, ((a.placement.var i).size ≤ j ∧ ∀ k < j, m (gsAddr a i + k) = b) ∧
            x = a.base + (a.placement.var i).off + j) := by
    intro i v b hcarry x hx
    have hgs := gsAddr_eq i
    constructor
    · intro hne
      have hin : gsAddr a i ≤ x ∧ x < gsAddr a i + 8 := by
        by_contra hout
        exact hne (writeLE_of_outside (by omega))
      obtain ⟨j, rfl⟩ := Nat.exists_eq_add_of_le hin.1
      exact ⟨j, by omega, ⟨by omega, not_not.mp fun hnot => hne ((hcarry j (by omega)).mpr hnot)⟩, by rw [hgs]⟩
    · rintro ⟨j, hj, ⟨-, hfull⟩, rfl⟩ heq
      rw [← hgs] at heq
      exact (hcarry j hj).mp heq hfull
  have hnone : ∀ {op : PercpuOp a} {x y : ℕ}, op.exec m x = m x → (∀ j, ¬ op.Spills m j) →
      (op.exec m x ≠ m x ↔ ∃ j < 8, op.Spills m j ∧ x = y + j) := by
    intro op x y hsame hno
    exact iff_of_false (not_not_intro hsame) fun ⟨j, _, hj, _⟩ => hno j hj
  cases op with
  | write i v =>
    obtain ⟨hown, hout⟩ := h.writeLE_bytes (i := i) v (Nat.zero_add _).le
    have hexec : PercpuOp.exec m (.write i v) =
        writeLE m (a.base + (a.placement.var i).off + 0) (a.placement.var i).size v := by
      rw [PercpuOp.exec, gsAddr_eq]
      rfl
    refine ⟨fun j hj => ?_, fun x hx => hnone ?_ fun _ => id⟩
    · rw [hexec]
      exact hown j hj
    · rw [hexec]
      exact hout x hx
  | inc i => exact ⟨fun j hj => h.count_bytes i 1 hj, hspill i 1 255 fun j hj => writeLE_add_one_eq_iff m _ hj⟩
  | dec i =>
    exact ⟨fun j hj => h.count_bytes i (wordSize - 1) hj,
      hspill i (wordSize - 1) 0 fun j hj => writeLE_sub_one_eq_iff m _ hj⟩
  | ptrStore i k n v =>
    have hinside := a.placement.var_inside i
    have hfits := a.fits
    have hk : k + n ≤ (a.placement.var i).size := hop
    obtain ⟨hown, hout⟩ := h.writeLE_bytes (i := i) v hk
    have hexec : PercpuOp.exec m (.ptrStore i k n v) =
        writeLE m (a.base + (a.placement.var i).off + k) n v := by
      rw [PercpuOp.exec, (thisCpuPtr_eq_iff m i).mpr h.self, Nat.mod_eq_of_lt (by omega)]
    refine ⟨fun j hj => ?_, fun x hx => hnone ?_ fun _ => id⟩
    · rw [hexec]
      exact hown j hj
    · rw [hexec]
      exact hout x hx

/-- A store keeps the area exactly when it spares the address at its start and the other variables. -/
theorem AreaHolds.exec_iff {m : ByteMem} {vals : Values a} (h : AreaHolds a m vals) {op : PercpuOp a}
    (hop : op.Allowed) :
    AreaHolds a (execValues (m, vals) op).1 (execValues (m, vals) op).2 ↔ SparingOp (m, vals) op := by
  obtain ⟨hown, hout⟩ := h.exec_bytes hop
  have hfits := a.fits
  have hbase : a.base < 256 ^ 8 := by simp only [wordSize] at hfits; omega
  have hsaved := (readLE_eq_iff hbase).mp h.self
  show AreaHolds a (op.exec m) (Function.update vals (op.stored vals).1 (op.bytes vals)) ↔
    SparesSelf a (op.stored vals).1 (op.bytes vals) ∧
      ∀ j < 8, op.Spills m j → SparedByte a ((a.placement.var (op.stored vals).1).off + j)
  have hsize : ∀ j, op.Spills m j → (a.placement.var (op.stored vals).1).size ≤ j := by
    intro j hj
    cases op with
    | write => exact hj.elim
    | inc => exact hj.1
    | dec => exact hj.1
    | ptrStore => exact hj.elim
  generalize (op.stored vals).1 = i at hown hout hsize ⊢
  constructor
  · intro h'
    refine ⟨fun j hj hlow => ?_, fun j hj8 hj => ?_⟩
    · have hdigit := (readLE_eq_iff hbase).mp h'.self ((a.placement.var i).off + j) hlow
      rw [← Nat.add_assoc, hown j hj] at hdigit
      exact hdigit
    · have hbehind := hsize j hj
      have hchanged := (hout (a.base + (a.placement.var i).off + j) (by omega)).mpr ⟨j, hj8, hj, rfl⟩
      refine ⟨?_, fun i' => ?_⟩
      · by_contra hlow
        refine hchanged ?_
        rw [Nat.add_assoc, (readLE_eq_iff hbase).mp h'.self _ (by omega), hsaved _ (by omega)]
      · by_contra hin
        have hne : i' ≠ i := by
          rintro rfl
          omega
        have hplace : a.base + (a.placement.var i).off + j =
            a.base + (a.placement.var i').off + ((a.placement.var i).off + j - (a.placement.var i').off) := by
          omega
        refine hchanged ?_
        rw [hplace, h'.bytes i' _ (by omega), h.bytes i' _ (by omega), Function.update_of_ne hne]
  · rintro ⟨hspares, hspills⟩
    refine ⟨(readLE_eq_iff hbase).mpr fun x hx => ?_, fun i' j hj => ?_⟩
    · by_cases hin : (a.placement.var i).off ≤ x ∧ x < (a.placement.var i).off + (a.placement.var i).size
      · obtain ⟨j, rfl⟩ := Nat.exists_eq_add_of_le hin.1
        rw [← Nat.add_assoc, hown j (by omega), hspares j (by omega) hx]
      · rw [← hsaved x hx]
        by_contra hchanged
        obtain ⟨j, hj8, hj, hplace⟩ := (hout (a.base + x) (by omega)).mp hchanged
        have hspared := (hspills j hj8 hj).1
        omega
    · by_cases hsame : i' = i
      · subst hsame
        rw [Function.update_self]
        exact hown j hj
      · have happart := a.placement.var_apart hsame
        rw [Function.update_of_ne hsame, ← h.bytes i' j hj]
        by_contra hchanged
        obtain ⟨k, hk8, hk, hplace⟩ := (hout (a.base + (a.placement.var i').off + j) (by omega)).mp hchanged
        have hspared := (hspills k hk8 hk).2 i'
        omega

/-- The variables of an area as `init_percpu` leaves them. -/
def initValues (a : Area) (m : ByteMem) : ByteMem × Values a :=
  (initPercpu a m, fun i => (a.placement.var i).init)

/-- From a sound area, exactly the runs of sparing stores keep the variables undisturbed. -/
theorem AreaHolds.run_iff {m : ByteMem} {vals : Values a} (h : AreaHolds a m vals)
    {ops : List (PercpuOp a)} (hops : EveryStep execValues (fun _ op => op.Allowed) (m, vals) ops) :
    EveryState execValues Undisturbed (m, vals) ops ↔
      EveryStep execValues SparingOp (m, vals) ops := by
  refine @everyState_iff_everyStep _ _ _ _ _ (fun p => AreaHolds a p.1 p.2) _ ?_ ?_ ?_ _ _ hops h
  · intro p hp i
    exact (undisturbed_iff i p.1 p.2).mpr hp i
  · intro p op hp hop hspares
    exact (hp.exec_iff hop).mpr hspares
  · intro p op hp hop hnext
    exact (hp.exec_iff hop).mp ((undisturbed_iff (op.stored p.2).1 _ _).mp hnext)

/-- The variables of a CPU stay undisturbed exactly when no initial value and no store changes the area's
own address in the first eight bytes, and no carry out of a variable reaches that address or another variable. -/
theorem percpu_run_undisturbed_iff (a : Area) (m : ByteMem) (ops : List (PercpuOp a))
    (hops : EveryStep execValues (fun _ op => op.Allowed) (initValues a m) ops) :
    EveryState execValues Undisturbed (initValues a m) ops ↔
      (∀ i, SparesSelf a i (a.placement.var i).init) ∧
        EveryStep execValues SparingOp (initValues a m) ops := by
  have hinit := areaHolds_init_iff a m
  cases ops with
  | nil =>
    constructor
    · intro h
      refine ⟨fun i => ?_, trivial⟩
      exact hinit.mp ((undisturbed_iff i _ _).mp h) i
    · rintro ⟨hspares, -⟩ i
      exact (undisturbed_iff i _ _).mpr (hinit.mpr hspares) i
  | cons op ops =>
    constructor
    · intro h
      have harea := (undisturbed_iff (op.stored (initValues a m).2).1 _ _).mp h.first
      exact ⟨hinit.mp harea, (harea.run_iff hops).mp h⟩
    · rintro ⟨hspares, hgood⟩
      exact ((hinit.mpr hspares).run_iff hops).mpr hgood

/-- A flag at the start of the section, and behind it a counter of four bytes before another variable. -/
def flagAndCounter : Area where
  placement :=
    { vars := [⟨0, 1, fun _ => 0⟩, ⟨8, 4, fun _ => 0⟩, ⟨12, 4, fun _ => 7⟩]
      size := 16
      inside := by decide
      apart := by decide }
  base := 0x1000
  fits := by decide

/-- The flag is clear like the low byte of the address, and the counter does not overflow. -/
theorem percpu_run_undisturbed_flagAndCounter :
    EveryState execValues Undisturbed (initValues flagAndCounter fun _ => 0)
      [.inc ⟨1, by decide⟩, .ptrStore ⟨2, by decide⟩ 0 4 9, .dec ⟨1, by decide⟩] :=
  (percpu_run_undisturbed_iff flagAndCounter (fun _ => 0)
    [.inc ⟨1, by decide⟩, .ptrStore ⟨2, by decide⟩ 0 4 9, .dec ⟨1, by decide⟩] (by decide +kernel)).mpr
    (by decide +kernel)

/-- A counter alone in the section, in an area at `0x1000`. -/
def counterFirst : Area where
  placement :=
    { vars := [⟨0, 8, fun _ => 0⟩]
      size := 8
      inside := by decide
      apart := by decide }
  base := 0x1000
  fits := by decide

/-- A counter at the start of the section does not start at zero but at the address of the area, and once it
is set to 1 `this_cpu_ptr` returns 1 for it. -/
theorem counterFirst_disturbed :
    thisCpuRead counterFirst (initValues counterFirst fun _ => 0).1 ⟨0, by decide⟩ = 0x1000 ∧
    thisCpuPtr counterFirst
      (execValues (initValues counterFirst fun _ => 0) (.write ⟨0, by decide⟩ 1)).1 ⟨0, by decide⟩ = 1 ∧
    ¬ EveryState execValues Undisturbed (initValues counterFirst fun _ => 0) [] := by
  have hread : thisCpuRead counterFirst (initValues counterFirst fun _ => 0).1 ⟨0, by decide⟩ = 0x1000 := by
    decide
  refine ⟨hread, by decide, ?_⟩
  intro h
  have hzero := (h ⟨0, by decide⟩).2
  rw [hread] at hzero
  exact absurd hzero (by decide)

end Flos.Cpu
