import Mathlib.Data.List.Nodup
import Mathlib.Data.Nat.Notation
import Mathlib.Algebra.Order.Ring.Nat
import Mathlib.Data.Fin.Basic
import Mathlib.Logic.Function.Basic

/-!
# Byte memory

Memory as a function from addresses to bytes, with little-endian accesses of any width, and
singly linked lists threaded through it. An access depends on, and changes, exactly the bytes
it names; the rules for lists follow from that.
-/

namespace Flos.Lib

/-- A byte has a value. -/
instance neZero_byteSize : NeZero 256 := ⟨by decide⟩

/-- A byte for each address. -/
abbrev ByteMem := ℕ → Fin 256

/-- The little-endian number in `n` bytes from `a`. -/
def readLE (m : ByteMem) (a : ℕ) : ℕ → ℕ
  | 0 => 0
  | n + 1 => (m a).val + 256 * readLE m (a + 1) n

/-- Store `v` in `n` little-endian bytes from `a`, dropping its higher digits. -/
def writeLE (m : ByteMem) (a : ℕ) : ℕ → ℕ → ByteMem
  | 0, _ => m
  | n + 1, v => writeLE (Function.update m a (Fin.ofNat 256 v)) (a + 1) n (v / 256)

/-- A read depends on the bytes it covers only. -/
theorem readLE_congr {m m' : ByteMem} {a n : ℕ} (h : ∀ x, a ≤ x → x < a + n → m' x = m x) :
    readLE m' a n = readLE m a n := by
  induction n generalizing a with
  | zero => rfl
  | succ n ih =>
    rw [readLE, readLE, h a le_rfl (by omega),
      ih fun x h1 h2 => h x (by omega) (by omega)]

/-- A read of `n` bytes is below `256 ^ n`. -/
theorem readLE_lt (m : ByteMem) (a n : ℕ) : readLE m a n < 256 ^ n := by
  induction n generalizing a with
  | zero => simp [readLE]
  | succ n ih =>
    have hlt := ih (a + 1)
    have hbyte := (m a).isLt
    rw [readLE, Nat.pow_succ]
    omega

/-- A write changes no byte outside the bytes it covers. -/
theorem writeLE_of_outside {m : ByteMem} {a n v x : ℕ} (h : x < a ∨ a + n ≤ x) :
    writeLE m a n v x = m x := by
  induction n generalizing m a v with
  | zero => rfl
  | succ n ih =>
    rw [writeLE, ih (by omega), Function.update_of_ne (by omega)]

/-- A read of written bytes returns what fits into them. -/
theorem readLE_writeLE {m : ByteMem} {a n v : ℕ} : readLE (writeLE m a n v) a n = v % 256 ^ n := by
  induction n generalizing m a v with
  | zero => simp [readLE, Nat.mod_one]
  | succ n ih =>
    rw [writeLE, readLE, writeLE_of_outside (by omega), Function.update_self, ih, Fin.val_ofNat,
      Nat.pow_succ', Nat.mod_mul]

/-- A read returns what was written to the same bytes. -/
theorem readLE_writeLE_self {m : ByteMem} {a n v : ℕ} (hv : v < 256 ^ n) :
    readLE (writeLE m a n v) a n = v := by
  rw [readLE_writeLE, Nat.mod_eq_of_lt hv]

/-- A write does not change a read of other bytes. -/
theorem readLE_writeLE_of_disjoint {m : ByteMem} {a n v b k : ℕ} (h : b + k ≤ a ∨ a + n ≤ b) :
    readLE (writeLE m a n v) b k = readLE m b k :=
  readLE_congr fun _ _ _ => writeLE_of_outside (by omega)

/-- The bytes of a write. -/
theorem writeLE_apply (m : ByteMem) (a n v x : ℕ) :
    writeLE m a n v x =
      if a ≤ x ∧ x < a + n then Fin.ofNat 256 (v / 256 ^ (x - a)) else m x := by
  induction n generalizing m a v with
  | zero => exact (if_neg (by omega)).symm
  | succ n ih =>
    rw [writeLE, ih]
    by_cases hfirst : x = a
    · rw [if_neg (by omega), if_pos (by omega), hfirst, Function.update_self, Nat.sub_self, pow_zero,
        Nat.div_one]
    · rw [Function.update_of_ne hfirst]
      by_cases hx : a + 1 ≤ x ∧ x < a + 1 + n
      · rw [if_pos hx, if_pos (by omega), Nat.div_div_eq_div_mul, ← Nat.pow_succ',
          show (x - (a + 1)).succ = x - a by omega]
      · rw [if_neg hx, if_neg (by omega)]

/-- Two reads agree exactly when their bytes do. -/
theorem readLE_eq_readLE_iff {m m' : ByteMem} {a b n : ℕ} :
    readLE m a n = readLE m' b n ↔ ∀ j < n, m (a + j) = m' (b + j) := by
  induction n generalizing a b with
  | zero => exact iff_of_true rfl fun _ hj => absurd hj (Nat.not_lt_zero _)
  | succ n ih =>
    have hm := (m a).isLt
    have hm' := (m' b).isLt
    have hrest := ih (a := a + 1) (b := b + 1)
    constructor
    · intro h j hj
      rw [readLE, readLE] at h
      cases j with
      | zero => exact Fin.ext (by simp only [Nat.add_zero]; omega)
      | succ j =>
        have hbyte := hrest.mp (by omega) j (by omega)
        rwa [show a + (j + 1) = a + 1 + j by omega, show b + (j + 1) = b + 1 + j by omega]
    · intro h
      have hfirst : m a = m' b := h 0 (Nat.succ_pos n)
      have hnext : readLE m (a + 1) n = readLE m' (b + 1) n := hrest.mpr fun j hj => by
        have hbyte := h (j + 1) (by omega)
        rwa [show a + (j + 1) = a + 1 + j by omega, show b + (j + 1) = b + 1 + j by omega] at hbyte
      rw [readLE, readLE, hfirst, hnext]

/-- A read returns a number exactly when its bytes are the digits. -/
theorem readLE_eq_iff {m : ByteMem} {a n v : ℕ} (hv : v < 256 ^ n) :
    readLE m a n = v ↔ ∀ j < n, m (a + j) = Fin.ofNat 256 (v / 256 ^ j) := by
  have hwrite : readLE (writeLE m a n v) a n = v := readLE_writeLE_self hv
  have hbytes : readLE m a n = readLE (writeLE m a n v) a n ↔ _ := readLE_eq_readLE_iff
  rw [hwrite] at hbytes
  rw [hbytes]
  apply forall_congr'
  intro j
  apply forall_congr'
  intro hj
  rw [writeLE_apply, if_pos (by omega), Nat.add_sub_cancel_left]

/-! ## Counting in memory -/

/-- The low bytes of a number in memory. -/
theorem readLE_mod (m : ByteMem) (a : ℕ) {k n : ℕ} (hk : k ≤ n) : readLE m a n % 256 ^ k = readLE m a k := by
  induction n generalizing a k with
  | zero =>
    obtain rfl : k = 0 := Nat.le_zero.mp hk
    exact Nat.mod_one _
  | succ n ih =>
    cases k with
    | zero => exact Nat.mod_one _
    | succ k =>
      have hbyte := (m a).isLt
      have hrest := ih (a + 1) (Nat.le_of_succ_le_succ hk)
      rw [readLE, readLE, Nat.pow_succ', Nat.mod_mul, show ((m a).val + 256 * readLE m (a + 1) n) / 256 =
        readLE m (a + 1) n by omega, hrest]
      omega

/-- Adding to a number in memory changes its low bytes as it changes the number in them. -/
theorem writeLE_add_congr (m : ByteMem) (a v : ℕ) {j k n : ℕ} (hj : j < k) (hk : k ≤ n) :
    writeLE m a n (readLE m a n + v) (a + j) = writeLE m a k (readLE m a k + v) (a + j) := by
  have hdigit : ∀ x : ℕ, x % 256 ^ k / 256 ^ j % 256 = x / 256 ^ j % 256 := by
    intro x
    obtain ⟨d, rfl⟩ := Nat.exists_eq_add_of_lt hj
    rw [show j + d + 1 = j + (d + 1) by omega, Nat.pow_add, Nat.mod_mul_right_div_self, Nat.pow_succ',
      Nat.mod_mul_right_mod]
  have hmod : (readLE m a n + v) % 256 ^ k = (readLE m a k + v) % 256 ^ k := by
    rw [Nat.add_mod, readLE_mod m a hk, ← Nat.mod_eq_of_lt (readLE_lt m a k), ← Nat.add_mod,
      Nat.mod_eq_of_lt (readLE_lt m a k)]
  rw [writeLE_apply, writeLE_apply, if_pos (by omega), if_pos (by omega), Nat.add_sub_cancel_left]
  refine Fin.ext ?_
  rw [Fin.val_ofNat, Fin.val_ofNat, ← hdigit, hmod, hdigit]

/-- A digit differs from the one of the next number exactly where that begins with zeros. -/
theorem digit_succ_eq_iff (x j : ℕ) : (x + 1) / 256 ^ j % 256 = x / 256 ^ j % 256 ↔ ¬ 256 ^ j ∣ x + 1 := by
  rw [Nat.succ_div]
  by_cases hdvd : 256 ^ j ∣ x + 1
  · rw [if_pos hdvd]
    exact iff_of_false (by omega) (not_not_intro hdvd)
  · rw [if_neg hdvd]
    exact iff_of_true rfl hdvd

/-- The bytes of a number in memory. -/
theorem readLE_digit (m : ByteMem) (a : ℕ) {j n : ℕ} (hj : j < n) :
    m (a + j) = Fin.ofNat 256 (readLE m a n / 256 ^ j) :=
  (readLE_eq_iff (readLE_lt m a n)).mp rfl j hj

/-- A property of the first bytes, and of the others. -/
theorem forall_lt_succ_bytes {m : ByteMem} {a j : ℕ} {b : Fin 256} :
    (∀ k < j + 1, m (a + k) = b) ↔ m a = b ∧ ∀ k < j, m (a + 1 + k) = b := by
  constructor
  · intro h
    refine ⟨h 0 (Nat.succ_pos j), fun k hk => ?_⟩
    rw [Nat.add_assoc, Nat.add_comm 1 k]
    exact h (k + 1) (Nat.succ_lt_succ hk)
  · rintro ⟨hfirst, hrest⟩ k hk
    cases k with
    | zero => exact hfirst
    | succ k =>
      rw [Nat.add_comm k 1, ← Nat.add_assoc]
      exact hrest k (Nat.lt_of_succ_lt_succ hk)

/-- The number in bytes that are all full. -/
theorem dvd_readLE_add_one_iff (m : ByteMem) (a j : ℕ) :
    256 ^ j ∣ readLE m a j + 1 ↔ ∀ k < j, m (a + k) = 255 := by
  induction j generalizing a with
  | zero => exact iff_of_true (one_dvd _) fun k hk => absurd hk (Nat.not_lt_zero k)
  | succ j ih =>
    have hbyte := (m a).isLt
    rw [forall_lt_succ_bytes, ← ih, readLE, Nat.pow_succ']
    constructor
    · intro h
      have hlow : 256 ∣ (m a).val + 256 * readLE m (a + 1) j + 1 := dvd_of_mul_right_dvd h
      have hfull : (m a).val = 255 := by omega
      refine ⟨Fin.ext hfull, ?_⟩
      rw [show (m a).val + 256 * readLE m (a + 1) j + 1 = 256 * (readLE m (a + 1) j + 1) by omega] at h
      exact Nat.dvd_of_mul_dvd_mul_left (by decide) h
    · rintro ⟨hfull, h⟩
      have hval : (m a).val = 255 := congrArg Fin.val hfull
      rw [show (m a).val + 256 * readLE m (a + 1) j + 1 = 256 * (readLE m (a + 1) j + 1) by omega]
      exact Nat.mul_dvd_mul_left 256 h

/-- The number in bytes that are all zero. -/
theorem dvd_readLE_iff (m : ByteMem) (a j : ℕ) : 256 ^ j ∣ readLE m a j ↔ ∀ k < j, m (a + k) = 0 := by
  induction j generalizing a with
  | zero => exact iff_of_true (one_dvd _) fun k hk => absurd hk (Nat.not_lt_zero k)
  | succ j ih =>
    have hbyte := (m a).isLt
    rw [forall_lt_succ_bytes, ← ih, readLE, Nat.pow_succ']
    constructor
    · intro h
      have hlow : 256 ∣ (m a).val + 256 * readLE m (a + 1) j := dvd_of_mul_right_dvd h
      have hzero : (m a).val = 0 := by omega
      refine ⟨Fin.ext hzero, ?_⟩
      rw [hzero, Nat.zero_add] at h
      exact Nat.dvd_of_mul_dvd_mul_left (by decide) h
    · rintro ⟨hzero, h⟩
      rw [hzero, Fin.val_zero, Nat.zero_add]
      exact Nat.mul_dvd_mul_left 256 h

/-- An increment leaves exactly the bytes that no carry reaches. -/
theorem writeLE_add_one_eq_iff (m : ByteMem) (a : ℕ) {j n : ℕ} (hj : j < n) :
    writeLE m a n (readLE m a n + 1) (a + j) = m (a + j) ↔ ¬ ∀ k < j, m (a + k) = 255 := by
  have hdvd : 256 ^ j ∣ readLE m a n + 1 ↔ 256 ^ j ∣ readLE m a j + 1 := by
    rw [← readLE_mod m a hj.le, Nat.dvd_iff_mod_eq_zero, Nat.dvd_iff_mod_eq_zero, Nat.mod_add_mod]
  rw [writeLE_apply, if_pos (by omega), Nat.add_sub_cancel_left, readLE_digit m a hj, Fin.ext_iff,
    Fin.val_ofNat, Fin.val_ofNat, digit_succ_eq_iff, hdvd, dvd_readLE_add_one_iff]

/-- A decrement leaves exactly the bytes that no borrow reaches. -/
theorem writeLE_sub_one_eq_iff (m : ByteMem) (a : ℕ) {j n : ℕ} (hj : j < n) :
    writeLE m a n (readLE m a n + (256 ^ n - 1)) (a + j) = m (a + j) ↔ ¬ ∀ k < j, m (a + k) = 0 := by
  have hpos : 0 < 256 ^ n := Nat.pow_pos (by decide)
  have hsucc : readLE m a n + (256 ^ n - 1) + 1 = readLE m a n + 256 ^ n := by omega
  have hpow : 256 ^ n = 256 ^ j * (256 * 256 ^ (n - j - 1)) := by
    rw [← Nat.pow_succ', ← Nat.pow_add]
    congr 1
    omega
  have hdvd : 256 ^ j ∣ readLE m a n + (256 ^ n - 1) + 1 ↔ 256 ^ j ∣ readLE m a j := by
    rw [hsucc, hpow, Nat.dvd_add_left (dvd_mul_right _ _), ← readLE_mod m a hj.le, Nat.dvd_iff_mod_eq_zero,
      Nat.dvd_iff_mod_eq_zero, Nat.mod_mod]
  have hdigit : (readLE m a n + (256 ^ n - 1) + 1) / 256 ^ j % 256 = readLE m a n / 256 ^ j % 256 := by
    rw [hsucc, hpow, Nat.add_mul_div_left _ _ (Nat.pow_pos (by decide)), Nat.add_mul_mod_self_left]
  have hnext := digit_succ_eq_iff (readLE m a n + (256 ^ n - 1)) j
  rw [writeLE_apply, if_pos (by omega), Nat.add_sub_cancel_left, readLE_digit m a hj, Fin.ext_iff,
    Fin.val_ofNat, Fin.val_ofNat, ← hdigit, eq_comm, hnext, hdvd, dvd_readLE_iff]

/-! ## Linked lists -/

/-- The nodes of a list linked by the pointers `off` bytes into each node, from the head pointer
`p` to the null pointer. -/
def LinkChain (m : ByteMem) (off : ℕ) : ℕ → List ℕ → Prop
  | p, [] => p = 0
  | p, a :: rest => p = a ∧ a ≠ 0 ∧ LinkChain m off (readLE m (a + off) 8) rest

variable {m m' : ByteMem} {off p : ℕ} {l : List ℕ}

/-- A list depends on the pointers of its nodes only. -/
theorem LinkChain.congr (h : LinkChain m off p l)
    (hsame : ∀ a ∈ l, readLE m' (a + off) 8 = readLE m (a + off) 8) : LinkChain m' off p l := by
  induction l generalizing p with
  | nil => exact h
  | cons a rest ih =>
    obtain ⟨hp, ha, hrest⟩ := h
    refine ⟨hp, ha, ?_⟩
    rw [hsame a List.mem_cons_self]
    exact ih hrest fun b hb => hsame b (List.mem_cons_of_mem _ hb)

/-- The null pointer heads the empty list. -/
theorem linkChain_zero : LinkChain m off 0 l ↔ l = [] := by
  cases l with
  | nil => simp [LinkChain]
  | cons a rest =>
    simp only [LinkChain, reduceCtorEq, iff_false, not_and]
    rintro rfl h
    exact absurd rfl h

/-- A non-null pointer heads a list whose first node it is. -/
theorem LinkChain.of_ne_zero (h : LinkChain m off p l) (hp : p ≠ 0) :
    ∃ rest, l = p :: rest ∧ LinkChain m off (readLE m (p + off) 8) rest := by
  cases l with
  | nil => exact absurd h hp
  | cons a rest =>
    obtain ⟨rfl, -, hrest⟩ := h
    exact ⟨rest, rfl, hrest⟩

/-- The head pointer is null exactly for the empty list. -/
theorem LinkChain.eq_zero_iff (h : LinkChain m off p l) : p = 0 ↔ l = [] := by
  constructor
  · rintro rfl
    exact linkChain_zero.mp h
  · rintro rfl
    exact h

/-- Pushing a node whose pointer has been set to the old head. -/
theorem LinkChain.push {a : ℕ} (ha : a ≠ 0) (h : LinkChain m off p l)
    (hsame : ∀ b ∈ l, readLE m' (b + off) 8 = readLE m (b + off) 8)
    (hnext : readLE m' (a + off) 8 = p) : LinkChain m' off a (a :: l) :=
  ⟨rfl, ha, hnext ▸ h.congr hsame⟩

/-- The head pointer is null or a node. -/
theorem LinkChain.head_lt {bound : ℕ} (h : LinkChain m off p l) (hpos : 0 < bound)
    (hl : ∀ a ∈ l, a < bound) : p < bound := by
  by_cases hp : p = 0
  · omega
  · obtain ⟨rest, rfl, -⟩ := h.of_ne_zero hp
    exact hl p List.mem_cons_self

end Flos.Lib
