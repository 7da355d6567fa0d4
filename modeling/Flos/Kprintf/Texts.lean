import Mathlib.Algebra.Group.Int.Defs
import Mathlib.Data.List.GetD
import Mathlib.Data.Nat.Basic
import Flos.Kprintf.Format

/-!
# The text of a format

What a call prints does not depend on where it prints to: a format and its arguments ask for a list of
conversions, every conversion has a text, and every sink receives the texts one behind the other.
-/

namespace Flos.Kprintf

/-- The text of a conversion. -/
def Conversion.text : Conversion → List UInt8
  | .number value negative base precision width flags => ntoaText value negative base precision width flags
  | .character c width flags => characterText c width flags
  | .string p precision width flags => stringText p precision width flags
  | .plain c => [c]

/-- What the specifiers ask for: a word in one of four bases; a minus sign only for a number that is not
zero and has no `#`; a precision of 32 bits, which is zero when there is none. -/
def Conversion.WellFormed : Conversion → Prop
  | .number value negative base precision _ flags =>
    value < 2 ^ 64 ∧ (base = 2 ∨ base = 8 ∨ base = 10 ∨ base = 16) ∧
      (negative = true → flags.hash = false ∧ value ≠ 0) ∧ precision < 2 ^ 32 ∧
      (flags.precision = false → precision = 0)
  | .string _ precision _ flags => precision < 2 ^ 32 ∧ (flags.precision = false → precision = 0)
  | .character _ _ _ => True
  | .plain _ => True

variable {strAt : BitVec 64 → Option CString} {σ : Type} {out : Out σ}

/-- A conversion prints its text into every sink. -/
theorem convert_eq {conv : Conversion} (h : conv.WellFormed) (s : σ × ℕ) :
    convert out conv s = emitAll out conv.text s := by
  cases conv with
  | number value negative base precision width flags => exact ntoaLong_eq value negative base precision width flags
  | character c width flags => exact outCharacter_eq c width flags
  | string p precision width flags => exact outString_eq p precision width flags h.1 h.2
  | plain c => rfl

/-! ## What the fields leave -/

/-- The flags field leaves no more of the format than there was. -/
theorem readFlags_length (flags : Flags) (format : List UInt8) :
    (readFlags flags format).2.length ≤ format.length := by
  induction format generalizing flags with
  | nil => exact le_rfl
  | cons c format ih =>
    rw [readFlags]
    cases flags.set c with
    | none => exact le_rfl
    | some flags => exact Nat.le_trans (ih flags) (Nat.le_succ _)

/-- Neither does a number. -/
theorem atoi_length (i : ℕ) (str : List UInt8) : (atoi i str).2.length ≤ str.length := by
  induction str generalizing i with
  | nil => exact le_rfl
  | cons c str ih =>
    rw [atoi]
    split
    · exact Nat.le_trans (ih _) (Nat.le_succ _)
    · exact le_rfl

/-- `_atoi` returns an `unsigned int`. -/
theorem atoi_lt {i : ℕ} (hi : i < 2 ^ 32) (str : List UInt8) : (atoi i str).1 < 2 ^ 32 := by
  induction str generalizing i with
  | nil => exact hi
  | cons c str ih =>
    rw [atoi]
    split
    · exact ih (Nat.mod_lt _ (by decide))
    · exact hi

/-- The width field leaves no more of the format than there was. -/
theorem readWidth_length {flags flags' : Flags} {format format' : List UInt8} {va va' : VaList} {width : ℕ}
    (h : readWidth flags format va = some (flags', width, format', va')) :
    format'.length ≤ format.length := by
  cases format with
  | nil =>
    simp only [readWidth, Option.some.injEq, Prod.mk.injEq] at h
    rw [h.2.2.1]
  | cons c rest =>
    simp only [readWidth] at h
    split at h
    next =>
      simp only [Option.some.injEq, Prod.mk.injEq] at h
      exact h.2.2.1 ▸ atoi_length 0 (c :: rest)
    next =>
      split at h
      next =>
        cases va with
        | nil => cases h
        | cons arg va =>
          have hrest : rest = format' := by
            revert h
            dsimp only
            split <;> simp +contextual
          rw [← hrest]
          exact Nat.le_succ _
      next =>
        simp only [Option.some.injEq, Prod.mk.injEq] at h
        rw [h.2.2.1]

/-- The precision field leaves no more of the format than there was; a precision is zero when there is
none. -/
theorem readPrecision_spec {flags flags' : Flags} {format format' : List UInt8} {va va' : VaList}
    {precision : ℕ} (h : readPrecision flags format va = some (flags', precision, format', va')) :
    format'.length ≤ format.length ∧ precision < 2 ^ 32 ∧ (flags'.precision = false → precision = 0) := by
  cases format with
  | nil =>
    simp only [readPrecision, Option.some.injEq, Prod.mk.injEq] at h
    obtain ⟨-, rfl, rfl, -⟩ := h
    exact ⟨le_rfl, by decide, fun _ => rfl⟩
  | cons dot rest =>
    simp only [readPrecision] at h
    split at h
    next =>
      cases rest with
      | nil =>
        simp only [Option.some.injEq, Prod.mk.injEq] at h
        obtain ⟨-, rfl, rfl, -⟩ := h
        exact ⟨Nat.le_succ _, by decide, fun _ => rfl⟩
      | cons c rest =>
        dsimp only at h
        split at h
        next =>
          simp only [Option.some.injEq, Prod.mk.injEq] at h
          obtain ⟨rfl, rfl, rfl, -⟩ := h
          exact ⟨Nat.le_trans (atoi_length 0 (c :: rest)) (Nat.le_succ _), atoi_lt (by decide) _, by simp⟩
        next =>
          split at h
          next =>
            cases va with
            | nil => cases h
            | cons arg va =>
              simp only [Option.some.injEq, Prod.mk.injEq] at h
              obtain ⟨rfl, rfl, rfl, -⟩ := h
              refine ⟨by simp only [List.length_cons]; omega, ?_, by simp⟩
              split
              · exact BitVec.isLt _
              · decide
          next =>
            simp only [Option.some.injEq, Prod.mk.injEq] at h
            obtain ⟨rfl, rfl, rfl, -⟩ := h
            exact ⟨Nat.le_succ _, by decide, by simp⟩
    next =>
      simp only [Option.some.injEq, Prod.mk.injEq] at h
      obtain ⟨-, rfl, rfl, -⟩ := h
      exact ⟨le_rfl, by decide, fun _ => rfl⟩

/-- The length field leaves the flag of the precision alone. -/
theorem readLength_spec (flags : Flags) (format : List UInt8) :
    (readLength flags format).2.length ≤ format.length ∧
      (readLength flags format).1.precision = flags.precision := by
  cases format with
  | nil => exact ⟨le_rfl, rfl⟩
  | cons c rest =>
    have htail : rest.tail.length ≤ rest.length := by rw [List.length_tail]; omega
    simp only [readLength]
    split
    · split <;> exact ⟨by simp only [List.length_cons]; omega, rfl⟩
    · split
      · split <;> exact ⟨by simp only [List.length_cons]; omega, rfl⟩
      · split <;> exact ⟨by simp only [List.length_cons]; omega, rfl⟩

/-- The bits of an integer argument that count. -/
def argumentBits (flags : Flags) : ℕ :=
  if flags.longLong || flags.long then 64 else if flags.char then 8 else if flags.short then 16 else 32

/-- An argument has at most 64 bits. -/
theorem argumentBits_le (flags : Flags) : argumentBits flags ≤ 64 := by
  rw [argumentBits]
  repeat' split
  all_goals decide

/-- The magnitude is the absolute value, save of the least value. -/
theorem magnitude_eq {w : ℕ} (hw : 0 < w) (value : BitVec w) :
    magnitude value = if value.toInt = -2 ^ (w - 1) then none else some value.toInt.natAbs := by
  have hlt := value.isLt
  have hsub : (0 - value).toNat = (2 ^ w - value.toNat) % 2 ^ w := by simp
  have hleast : value = BitVec.intMin w ↔ value.toInt = -2 ^ (w - 1) := by
    rw [← BitVec.toInt_inj, BitVec.toInt_intMin_of_pos hw]
  have hpow : (0 : ℤ) < 2 ^ (w - 1) := Int.pow_pos (by decide)
  simp only [magnitude, hleast]
  split
  next hpos =>
    rw [if_neg (by omega), Option.some.injEq]
    rw [BitVec.toInt_eq_toNat_cond] at hpos ⊢
    split at hpos <;> omega
  next hneg =>
    refine if_congr Iff.rfl rfl (congrArg some ?_)
    rw [hsub]
    rw [BitVec.toInt_eq_toNat_cond] at hneg ⊢
    generalize 2 ^ w = m at hlt hneg ⊢
    obtain hzero | hpos := Nat.eq_zero_or_pos value.toNat
    · simp [hzero, Nat.zero_lt_of_lt hlt]
    · rw [Nat.mod_eq_of_lt (by omega)]
      split at hneg
      next => omega
      next hhalf =>
        rw [if_neg hhalf]
        omega

/-- The least value of the `int` or the `long` that a signed argument is read into. -/
def leastValue (flags : Flags) : ℤ := if flags.longLong || flags.long then -2 ^ 63 else -2 ^ 31

/-- A signed argument is printed as the integer that its bits are, unless its negation overflows. -/
theorem signedNumber_eq (flags : Flags) (arg : BitVec 64) :
    signedNumber flags arg =
      if (arg.setWidth (argumentBits flags)).toInt = leastValue flags then none
      else some ((arg.setWidth (argumentBits flags)).toInt.natAbs,
        decide ((arg.setWidth (argumentBits flags)).toInt < 0)) := by
  have hmap {w : ℕ} (hw : 0 < w) (value : BitVec w) :
      ((magnitude value).map fun number => (number, decide (value.toInt < 0))) =
        if value.toInt = -2 ^ (w - 1) then none else some (value.toInt.natAbs, decide (value.toInt < 0)) := by
    rw [magnitude_eq hw]
    split <;> rfl
  rw [argumentBits, leastValue]
  cases hlong : flags.longLong || flags.long with
  | true =>
    simp only [signedNumber, hlong, if_true]
    rw [hmap (by decide)]
    change _ = if (arg.setWidth 64).toInt = _ then none
      else some ((arg.setWidth 64).toInt.natAbs, decide ((arg.setWidth 64).toInt < 0))
    rw [BitVec.setWidth_eq]
  | false =>
    simp only [signedNumber, hlong, Bool.false_eq_true, if_false]
    rw [hmap (by decide)]
    cases flags.char with
    | true =>
      simp only [if_true, BitVec.toInt_signExtend_of_le (show 8 ≤ 32 by decide)]
      rfl
    | false =>
      cases flags.short with
      | true =>
        simp only [if_true, Bool.false_eq_true, if_false,
          BitVec.toInt_signExtend_of_le (show 16 ≤ 32 by decide)]
        rfl
      | false => rfl

/-- An unsigned argument is printed as the number that its bits are. -/
theorem unsignedNumber_eq (flags : Flags) (arg : BitVec 64) :
    unsignedNumber flags arg = (arg.setWidth (argumentBits flags)).toNat := by
  rw [argumentBits]
  cases hlong : flags.longLong || flags.long with
  | true =>
    simp only [unsignedNumber, hlong, if_true]
    change _ = (arg.setWidth 64).toNat
    rw [BitVec.setWidth_eq]
  | false =>
    simp only [unsignedNumber, hlong, Bool.false_eq_true, if_false]
    cases flags.char with
    | true => rfl
    | false => cases flags.short <;> rfl

/-- A signed number is a word, and is negative only if it is not zero. -/
theorem signedNumber_spec {flags : Flags} {arg : BitVec 64} {number : ℕ} {negative : Bool}
    (h : signedNumber flags arg = some (number, negative)) :
    number < 2 ^ 64 ∧ (negative = true → number ≠ 0) := by
  have hbits : 2 ^ argumentBits flags ≤ 2 ^ 64 := Nat.pow_le_pow_right (by decide) (argumentBits_le flags)
  rw [signedNumber_eq] at h
  generalize arg.setWidth (argumentBits flags) = value at h
  split at h
  next => cases h
  next =>
    obtain ⟨rfl, rfl⟩ := Prod.mk.inj (Option.some.inj h)
    have hlo := BitVec.le_toInt value
    have hhi := @BitVec.toInt_lt _ value
    have hhalf : (2 : ℤ) ^ (argumentBits flags - 1) ≤ 2 ^ 63 := by
      exact_mod_cast Nat.pow_le_pow_right (show 0 < 2 by decide) (Nat.sub_le_sub_right (argumentBits_le flags) 1)
    rw [decide_eq_true_iff]
    omega

/-- An unsigned number is a word. -/
theorem unsignedNumber_lt (flags : Flags) (arg : BitVec 64) : unsignedNumber flags arg < 2 ^ 64 := by
  rw [unsignedNumber_eq]
  exact Nat.lt_of_lt_of_le (BitVec.isLt _) (Nat.pow_le_pow_right (by decide) (argumentBits_le flags))

/-- The four bases. -/
theorem baseOf_cases (c : UInt8) : baseOf c = 2 ∨ baseOf c = 8 ∨ baseOf c = 10 ∨ baseOf c = 16 := by
  rw [baseOf]
  repeat' split
  all_goals simp

/-- Signed integers are decimal. -/
theorem baseOf_eq_ten {c : UInt8} (h : isSigned c) : baseOf c = 10 := by
  rw [isSigned, Bool.or_eq_true, decide_eq_true_iff, decide_eq_true_iff] at h
  obtain rfl | rfl := h <;> rfl

/-- A specifier that takes an argument asks for a conversion that is well formed. -/
theorem convertArgument_wellFormed {c : UInt8} {flags : Flags} {width precision : ℕ} {arg : BitVec 64}
    {conv : Conversion} (hprec : precision < 2 ^ 32) (hnone : flags.precision = false → precision = 0)
    (h : convertArgument strAt c flags width precision arg = some conv) : conv.WellFormed := by
  rw [convertArgument] at h
  split at h
  next =>
    rw [integerConversion] at h
    split at h
    next hsigned =>
      obtain ⟨⟨number, negative⟩, hnumber, rfl⟩ := Option.map_eq_some_iff.mp h
      obtain ⟨hlt, hne⟩ := signedNumber_spec hnumber
      exact ⟨hlt, baseOf_cases c, fun hneg => ⟨by simp [integerFlags, baseOf_eq_ten hsigned], hne hneg⟩,
        hprec, hnone⟩
    next =>
      rw [← Option.some.inj h]
      exact ⟨unsignedNumber_lt _ arg, baseOf_cases c, fun hneg => absurd hneg (by decide), hprec, hnone⟩
  next =>
    split at h
    next =>
      rw [← Option.some.inj h]
      exact trivial
    next =>
      split at h
      next =>
        obtain ⟨p, -, rfl⟩ := Option.map_eq_some_iff.mp h
        exact ⟨hprec, hnone⟩
      next =>
        rw [← Option.some.inj h]
        exact ⟨arg.isLt, by simp, fun hneg => absurd hneg (by decide), hprec, hnone⟩

/-- A directive takes a part of the format, and asks for a conversion that is well formed. -/
theorem directive_spec {format format' : List UInt8} {va va' : VaList} {conv : Conversion}
    (h : directive strAt format va = some (conv, format', va')) :
    format'.length ≤ format.length ∧ conv.WellFormed := by
  simp only [directive, Option.bind_eq_bind, Option.bind_eq_some_iff] at h
  obtain ⟨⟨flags₁, width, format₁, va₁⟩, hwidth, ⟨flags₂, precision, format₂, va₂⟩, hprec, hspec⟩ := h
  have hflags := readFlags_length {} format
  have hwidth := readWidth_length hwidth
  dsimp only at hwidth hprec hspec
  obtain ⟨hlen, hlt, hnone⟩ := readPrecision_spec hprec
  obtain ⟨hlength, hflag⟩ := readLength_spec flags₂ format₂
  generalize hrest : readLength flags₂ format₂ = r at hspec hlength hflag
  obtain ⟨flags₃, format₃⟩ := r
  dsimp only at hspec hlength hflag
  cases format₃ with
  | nil => cases hspec
  | cons c rest =>
    rw [List.length_cons] at hlength
    simp only [readSpecifier] at hspec
    split at hspec
    next =>
      cases va₂ with
      | nil => cases hspec
      | cons arg va₃ =>
        obtain ⟨conv', hconv, heq⟩ := Option.map_eq_some_iff.mp hspec
        simp only [Prod.mk.injEq] at heq
        obtain ⟨rfl, rfl, -⟩ := heq
        exact ⟨by omega, convertArgument_wellFormed hlt (fun hf => hnone (hflag ▸ hf)) hconv⟩
    next =>
      simp only [Option.some.injEq, Prod.mk.injEq] at hspec
      obtain ⟨rfl, rfl, -⟩ := hspec
      exact ⟨by omega, trivial⟩

/-! ## The loop -/

/-- The conversions that a format and its arguments ask for. -/
def conversionsLoop (strAt : BitVec 64 → Option CString) :
    (fuel : ℕ) → List UInt8 → VaList → Option (List Conversion)
  | _, [], _ => some []
  | 0, _ :: _, _ => none
  | fuel + 1, c :: format, va =>
    if c ≠ '%' then (conversionsLoop strAt fuel format va).map (.plain c :: ·)
    else
      (directive strAt format va).bind fun (conv, format, va) =>
        (conversionsLoop strAt fuel format va).map (conv :: ·)

/-- The conversions of a format. -/
def conversions (strAt : BitVec 64 → Option CString) (format : List UInt8) (va : VaList) :
    Option (List Conversion) :=
  conversionsLoop strAt format.length format va

/-- The text of a format. -/
def formatText (strAt : BitVec 64 → Option CString) (format : List UInt8) (va : VaList) :
    Option (List UInt8) :=
  (conversions strAt format va).map fun convs => convs.flatMap Conversion.text

/-- An iteration for each character is enough. -/
theorem conversionsLoop_fuel {fuel : ℕ} {format : List UInt8} (va : VaList) (h : format.length ≤ fuel) :
    conversionsLoop strAt fuel format va = conversions strAt format va := by
  -- two amounts of fuel that are enough give the same
  have hsame (n m : ℕ) (format : List UInt8) (va : VaList) (hn : format.length ≤ n)
      (hm : format.length ≤ m) : conversionsLoop strAt n format va = conversionsLoop strAt m format va := by
    induction n generalizing m format va with
    | zero =>
      rw [List.length_eq_zero_iff.mp (Nat.le_zero.mp hn)]
      cases m <;> rfl
    | succ n ih =>
      cases format with
      | nil => cases m <;> rfl
      | cons c format =>
        rw [List.length_cons] at hn hm
        obtain ⟨m, rfl⟩ := Nat.exists_eq_add_one.mpr (Nat.lt_of_lt_of_le (Nat.succ_pos _) hm)
        rw [conversionsLoop, conversionsLoop, ih m format va (by omega) (by omega)]
        split
        next => rfl
        next =>
          cases hdir : directive strAt format va with
          | none => rfl
          | some r =>
            obtain ⟨conv, format', va'⟩ := r
            have hlen := (directive_spec hdir).1
            rw [Option.bind_some, Option.bind_some]
            dsimp only
            rw [ih m format' va' (by omega) (by omega)]
  exact hsame fuel format.length format va h le_rfl

/-- What a character of the format that is no `%` asks for. -/
theorem conversions_cons_plain {c : UInt8} (hc : c ≠ '%') (format : List UInt8) (va : VaList) :
    conversions strAt (c :: format) va = (conversions strAt format va).map (.plain c :: ·) := by
  rw [conversions, List.length_cons, conversionsLoop, if_pos hc, conversions]

/-- What a directive asks for. -/
theorem conversions_cons_directive (format : List UInt8) (va : VaList) :
    conversions strAt ('%' :: format) va =
      (directive strAt format va).bind fun r => (conversions strAt r.2.1 r.2.2).map (r.1 :: ·) := by
  rw [conversions, List.length_cons, conversionsLoop, if_neg (not_not_intro rfl)]
  cases hdir : directive strAt format va with
  | none => rfl
  | some r =>
    rw [Option.bind_some, Option.bind_some]
    dsimp only
    rw [conversionsLoop_fuel _ (directive_spec hdir).1]

/-- The loop of `_vsnprintf` prints the text of the format into every sink. -/
theorem vsnprintfLoop_eq {fuel : ℕ} (format : List UInt8) (va : VaList) (s : σ × ℕ) :
    vsnprintfLoop strAt out fuel format va s =
      (conversionsLoop strAt fuel format va).map fun convs =>
        emitAll out (convs.flatMap Conversion.text) s := by
  induction fuel generalizing format va s with
  | zero => cases format <;> rfl
  | succ fuel ih =>
    cases format with
    | nil => rfl
    | cons c format =>
      rw [vsnprintfLoop, conversionsLoop]
      split
      next =>
        rw [ih, Option.map_map]
        rfl
      next =>
        cases hdir : directive strAt format va with
        | none => rfl
        | some r =>
          obtain ⟨conv, format', va'⟩ := r
          simp only [Option.bind_some, Option.map_map]
          rw [ih, convert_eq (directive_spec hdir).2]
          congr 1
          funext convs
          rw [Function.comp_apply, List.flatMap_cons, emitAll_append]

/-- `_vsnprintf` prints the text and a NUL, at the end of what it may write if the text is longer, and
returns the length of the text. -/
theorem vsnprintf_eq (maxlen : ℕ) (format : CString) (va : VaList) (buffer : σ) :
    vsnprintf strAt out maxlen format va buffer =
      (formatText strAt format.chars va).map fun text =>
        (out 0 (if text.length < maxlen then text.length else (maxlen + (2 ^ 64 - 1)) % 2 ^ 64)
          (emitAll out text (buffer, 0)).1, (BitVec.ofNat 32 text.length).toInt) := by
  rw [vsnprintf, vsnprintfLoop_eq, formatText, ← conversions, Option.map_map, Option.map_map]
  congr 1
  funext convs
  simp only [Function.comp_apply, emitAll_snd, Nat.zero_add]

/-! ## Sinks -/

/-- `vsnprintf_`, with no buffer for NULL. -/
def vsnprintf_ (strAt : BitVec 64 → Option CString) (buffer : Option (ℕ → UInt8)) (count : ℕ)
    (format : CString) (va : VaList) : Option (Option (ℕ → UInt8) × ℤ) :=
  match buffer with
  | none => (vsnprintf strAt outNull count format va ()).map fun r => (none, r.2)
  | some buffer => (vsnprintf strAt (outBuffer count) count format va buffer).map fun r => (some r.1, r.2)

/-- `fctprintf`. -/
def fctprintf (strAt : BitVec 64 → Option CString) (fct : UInt8 → σ → σ) (arg : σ) (format : CString)
    (va : VaList) : Option (σ × ℤ) :=
  vsnprintf strAt (outFct fct) (2 ^ 64 - 1) format va arg

/-- The bytes that a text leaves in a buffer of `count` bytes: as much of it as fits, and a NUL. -/
def storedBytes (count : ℕ) (text : List UInt8) : List UInt8 :=
  if count = 0 then [] else text.take (count - 1) ++ [0]

/-- A buffer with bytes at its start. -/
def overwrite (buffer : ℕ → UInt8) (bytes : List UInt8) (i : ℕ) : UInt8 := bytes.getD i (buffer i)

/-- A text in a buffer: nothing is written behind its end. -/
theorem emitAll_outBuffer (maxlen : ℕ) (text : List UInt8) (buffer : ℕ → UInt8) (k j : ℕ) :
    (emitAll (outBuffer maxlen) text (buffer, k)).1 j =
      if k ≤ j ∧ j < maxlen then text.getD (j - k) (buffer j) else buffer j := by
  induction text generalizing buffer k with
  | nil => simp
  | cons c text ih =>
    rw [emitAll_cons, emit, ih]
    have hother (hne : j ≠ k) : outBuffer maxlen c k buffer j = buffer j := by
      rw [outBuffer]
      split
      · exact Function.update_of_ne hne c buffer
      · rfl
    obtain hlt | rfl | hgt := Nat.lt_trichotomy j k
    · rw [if_neg (by omega), if_neg (by omega), hother (by omega)]
    · rw [if_neg (by omega), Nat.sub_self, List.getD_cons_zero, outBuffer]
      split
      next hfits => rw [if_pos ⟨le_rfl, hfits⟩, Function.update_self]
      next hfull => rw [if_neg fun h => hfull h.2]
    · have hsub : j - k = j - (k + 1) + 1 := by omega
      rw [hother (by omega), hsub, List.getD_cons_succ]
      exact if_congr (by omega) rfl rfl

/-- What a call leaves in its buffer. -/
theorem outBuffer_terminated {count : ℕ} (hcount : count < 2 ^ 64) (text : List UInt8)
    (buffer : ℕ → UInt8) :
    outBuffer count 0 (if text.length < count then text.length else (count + (2 ^ 64 - 1)) % 2 ^ 64)
      (emitAll (outBuffer count) text (buffer, 0)).1 = overwrite buffer (storedBytes count text) := by
  funext j
  rw [overwrite, storedBytes, outBuffer]
  obtain rfl | hpos := Nat.eq_zero_or_pos count
  · simp [emitAll_outBuffer]
  · -- the place of the NUL
    have hplace : (if text.length < count then text.length else (count + (2 ^ 64 - 1)) % 2 ^ 64) =
        (text.take (count - 1)).length := by
      rw [List.length_take]
      split <;> omega
    have hlen : (text.take (count - 1)).length = min (count - 1) text.length := List.length_take
    rw [hplace, if_pos (by omega), if_neg (by omega)]
    obtain hlt | rfl | hgt := Nat.lt_trichotomy j (text.take (count - 1)).length
    · have hj : j < text.length := by omega
      rw [Function.update_of_ne (by omega), emitAll_outBuffer, if_pos (by omega), Nat.sub_zero,
        List.getD_eq_getElem _ _ hj, List.getD_append _ _ _ _ hlt, List.getD_eq_getElem _ _ hlt,
        List.getElem_take]
    · rw [Function.update_self, List.getD_append_right _ _ _ _ le_rfl, Nat.sub_self, List.getD_cons_zero]
    · have hend : (text.take (count - 1) ++ [(0 : UInt8)]).length ≤ j := by
        rw [List.length_append, List.length_singleton]
        omega
      rw [Function.update_of_ne (by omega), emitAll_outBuffer, List.getD_eq_default _ _ hend]
      split
      next hin => rw [List.getD_eq_default _ _ (by omega)]
      next => rfl

/-- A text for a function: it gets every character but NULs. -/
theorem emitAll_outFct (fct : UInt8 → σ → σ) (text : List UInt8) (arg : σ) (k : ℕ) :
    (emitAll (outFct fct) text (arg, k)).1 =
      (text.filter (· ≠ 0)).foldl (fun arg character => fct character arg) arg := by
  induction text generalizing arg k with
  | nil => rfl
  | cons c text ih =>
    rw [emitAll_cons, emit, ih, List.filter_cons]
    by_cases hc : c = 0 <;> simp [outFct, hc]

/-- `vsnprintf_` with a buffer. -/
theorem vsnprintf_buffer {count : ℕ} (hcount : count < 2 ^ 64) (format : CString) (va : VaList)
    (buffer : ℕ → UInt8) :
    vsnprintf_ strAt (some buffer) count format va =
      (formatText strAt format.chars va).map fun text =>
        (some (overwrite buffer (storedBytes count text)), (BitVec.ofNat 32 text.length).toInt) := by
  rw [vsnprintf_, vsnprintf_eq, Option.map_map]
  simp only [Function.comp_def, outBuffer_terminated hcount]

/-- Every sink gets the same text of a format and its arguments. A buffer of `count` bytes gets as much of
it as fits and a NUL, and no byte behind them is written; without a buffer nothing is; a function gets every
character but NULs in order. All return the length of the whole text, as an `int`. -/
theorem vsnprintf_prints (format : CString) (va : VaList) (count : ℕ) (hcount : count < 2 ^ 64)
    (buffer : ℕ → UInt8) (fct : UInt8 → σ → σ) (arg : σ) :
    vsnprintf_ strAt (some buffer) count format va =
        (formatText strAt format.chars va).map (fun text =>
          (some (overwrite buffer (storedBytes count text)), (BitVec.ofNat 32 text.length).toInt)) ∧
      vsnprintf_ strAt none count format va =
        (formatText strAt format.chars va).map (fun text =>
          (none, (BitVec.ofNat 32 text.length).toInt)) ∧
      fctprintf strAt fct arg format va =
        (formatText strAt format.chars va).map fun text =>
          ((text.filter (· ≠ 0)).foldl (fun arg character => fct character arg) arg,
            (BitVec.ofNat 32 text.length).toInt) := by
  refine ⟨vsnprintf_buffer hcount format va buffer, ?_, ?_⟩
  · rw [vsnprintf_, vsnprintf_eq, Option.map_map]
    rfl
  · rw [fctprintf, vsnprintf_eq]
    simp only [emitAll_outFct]
    rfl

/-- `n=%d` of `-17` in a buffer of four bytes: three characters and a NUL, and the length of all five. -/
theorem vsnprintf_prints_truncated :
    ∃ buffer, vsnprintf_ (fun _ => none) (some fun _ => 0xFF) 4
        ⟨bytes ['n', '=', '%', 'd'], by decide, by decide⟩ [-17] = some (some buffer, 5) ∧
      (List.range 5).map buffer = bytes ['n', '=', '-'] ++ [0, 0xFF] := by
  have hprints := (@vsnprintf_prints (fun _ => none) ℕ
    ⟨bytes ['n', '=', '%', 'd'], by decide, by decide⟩ [-17] 4 (by decide) (fun _ => 0xFF)
    (fun _ n => n) 0).1
  have htext : formatText (fun _ => none) (bytes ['n', '=', '%', 'd']) [-17] =
      some (bytes ['n', '=', '-', '1', '7']) := by decide +kernel
  rw [htext] at hprints
  exact ⟨_, hprints, by decide⟩

end Flos.Kprintf
