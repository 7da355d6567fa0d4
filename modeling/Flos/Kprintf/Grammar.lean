import Flos.Kprintf.Numbers

/-!
# The grammar of formats

A format is written from literal characters and directives `%[flags][width][.precision][length]specifier`.
Whatever is written so is read as it was meant: the parser takes every directive apart again, with the
arguments that belong to it.
-/

namespace Flos.Kprintf

/-- The characters of the flags field. -/
inductive FlagChar where
  | zero | minus | plus | space | hash
deriving DecidableEq

/-- A width: written in decimal, where zero is not written at all, or an argument. -/
inductive Count where
  | literal (n : ℕ)
  | argument

/-- A precision: written in decimal behind any number of zeros, or an argument. -/
inductive Precision where
  | literal (zeros n : ℕ)
  | argument

/-- The length field. -/
inductive Length where
  | none | hh | h | l | ll | t | j | z

/-- The specifiers. -/
inductive Specifier where
  | d | i | u | x | X | o | b | c | s | p | percent

/-- A directive. -/
structure Directive where
  flags : List FlagChar
  width : Count
  precision : Option Precision
  length : Length
  specifier : Specifier

/-- A piece of a format: a character that is neither `%` nor the NUL, or a directive. -/
inductive Piece where
  | literal (c : UInt8) (hc : c ≠ '%' ∧ c ≠ 0)
  | directive (d : Directive)

/-! ## Spelling -/

def FlagChar.char : FlagChar → UInt8
  | zero => '0'
  | minus => '-'
  | plus => '+'
  | space => ' '
  | hash => '#'

def Count.spell : Count → List UInt8
  | literal n => Kprintf.spell false (Nat.digits 10 n)
  | argument => bytes ['*']

def Precision.spell : Precision → List UInt8
  | literal zeros n => Kprintf.spell false (Nat.digits 10 n ++ List.replicate zeros 0)
  | argument => bytes ['*']

def Length.spell : Length → List UInt8
  | none => []
  | hh => bytes ['h', 'h']
  | h => bytes ['h']
  | l => bytes ['l']
  | ll => bytes ['l', 'l']
  | t => bytes ['t']
  | j => bytes ['j']
  | z => bytes ['z']

def Specifier.char : Specifier → UInt8
  | d => 'd'
  | i => 'i'
  | u => 'u'
  | x => 'x'
  | X => 'X'
  | o => 'o'
  | b => 'b'
  | c => 'c'
  | s => 's'
  | p => 'p'
  | percent => '%'

/-- The precision field of a directive. -/
def Directive.spellPrecision (d : Directive) : List UInt8 :=
  match d.precision with
  | none => []
  | some precision => '.' :: precision.spell

/-- A directive behind its `%`. -/
def Directive.spell (d : Directive) : List UInt8 :=
  d.flags.map FlagChar.char ++
    (d.width.spell ++ (d.spellPrecision ++ (d.length.spell ++ [d.specifier.char])))

def Piece.spell : Piece → List UInt8
  | literal c _ => [c]
  | directive d => '%' :: d.spell

/-! ## Meaning -/

/-- The flags of a length. -/
def Length.set (length : Length) (flags : Flags) : Flags :=
  match length with
  | none => flags
  | hh => { flags with short := true, char := true }
  | h => { flags with short := true }
  | ll => { flags with long := true, longLong := true }
  | l | t | j | z => { flags with long := true }

/-- The number that a count stands for, an `int` if it is an argument. -/
def Count.take (count : Count) (va : VaList) : Option (ℤ × VaList) :=
  match count with
  | literal n => some ((n % 2 ^ 32 : ℕ), va)
  | argument =>
    match va with
    | [] => none
    | arg :: va => some ((arg.setWidth 32).toInt, va)

/-- The count of a precision. -/
def Precision.count : Precision → Count
  | literal _ n => .literal n
  | argument => .argument

/-- What the fields of a directive mean in front of its specifier: flags, width and precision, and the
arguments that they leave. A negative width asks for the left, a negative precision is none. -/
def Directive.fields (d : Directive) (va : VaList) : Option (Flags × ℕ × ℕ × VaList) := do
  let (width, va) ← d.width.take va
  let (precision, va) ← (d.precision.elim (.literal 0) Precision.count).take va
  let flags := d.length.set {
    zeropad := .zero ∈ d.flags
    left := .minus ∈ d.flags || width < 0
    plus := .plus ∈ d.flags
    space := .space ∈ d.flags
    hash := .hash ∈ d.flags
    precision := d.precision.isSome }
  some (flags, width.natAbs, precision.toNat, va)

/-- What a directive means, and the arguments that it leaves. -/
def Directive.meaning (strAt : BitVec 64 → Option CString) (d : Directive) (va : VaList) :
    Option (Conversion × VaList) :=
  (d.fields va).bind fun (flags, width, precision, va) =>
    match d.specifier, va with
    | .percent, va => some (.plain '%', va)
    | _, [] => none
    | specifier, arg :: va =>
      (convertArgument strAt specifier.char flags width precision arg).map fun conv => (conv, va)

/-- What pieces mean, one behind the other. -/
def meanings (strAt : BitVec 64 → Option CString) : List Piece → VaList → Option (List Conversion)
  | [], _ => some []
  | .literal c _ :: pieces, va => (meanings strAt pieces va).map (.plain c :: ·)
  | .directive d :: pieces, va =>
    (d.meaning strAt va).bind fun r => (meanings strAt pieces r.2).map (r.1 :: ·)

/-! ## Reading what was written -/

/-- Texts in front of which a count ends. -/
def EndsCount (text : List UInt8) : Prop :=
  ∃ c rest, text = c :: rest ∧ isDigit c = false ∧ c ≠ '*'

/-- Texts in front of which the flags end. -/
def EndsFlags (text : List UInt8) : Prop :=
  ∃ c rest, text = c :: rest ∧ ∀ flags : Flags, flags.set c = none

/-- The flags with those of a flags field. -/
def setFlags (flags : Flags) (chars : List FlagChar) : Flags :=
  { flags with
    zeropad := flags.zeropad || .zero ∈ chars
    left := flags.left || .minus ∈ chars
    plus := flags.plus || .plus ∈ chars
    space := flags.space || .space ∈ chars
    hash := flags.hash || .hash ∈ chars }

variable {strAt : BitVec 64 → Option CString} {text : List UInt8}

/-- The flags field is read as it was written. -/
theorem readFlags_spell (h : EndsFlags text) (flags : Flags) (chars : List FlagChar) :
    readFlags flags (chars.map FlagChar.char ++ text) = (setFlags flags chars, text) := by
  induction chars generalizing flags with
  | nil =>
    obtain ⟨c, rest, rfl, hc⟩ := h
    rw [List.map_nil, List.nil_append, readFlags, hc flags]
    simp [setFlags]
  | cons c chars ih =>
    have hset : flags.set c.char = some (setFlags flags [c]) := by
      cases c <;> simp [setFlags] <;> rfl
    rw [List.map_cons, List.cons_append, readFlags, hset]
    dsimp only
    rw [ih]
    simp [setFlags, Bool.or_assoc]

/-- A number ends in front of what is no digit. -/
theorem atoi_stop (i : ℕ) (h : EndsCount text) : atoi i text = (i, text) := by
  obtain ⟨c, rest, rfl, hc, -⟩ := h
  rw [atoi, hc]
  rfl

/-- A decimal digit is read as what was written. -/
theorem isDigit_digitChar {d : ℕ} (hd : d < 10) :
    isDigit (digitChar false d) = true ∧ (digitChar false d - '0').toNat = d := by
  have hall : ∀ d < 10, isDigit (digitChar false d) = true ∧ (digitChar false d - '0').toNat = d := by
    decide
  exact hall d hd

/-- `_atoi` reads the number that was written, as an `unsigned int`. -/
theorem atoi_spell {i : ℕ} (hi : i < 2 ^ 32) {digits : List ℕ} (hdigits : ∀ d ∈ digits, d < 10)
    (text : List UInt8) :
    atoi i (spell false digits ++ text) =
      atoi ((i * 10 ^ digits.length + Nat.ofDigits 10 digits) % 2 ^ 32) text := by
  induction digits generalizing text with
  | nil =>
    rw [List.length_nil, pow_zero, Nat.ofDigits_nil, mul_one, add_zero, Nat.mod_eq_of_lt hi]
    rfl
  | cons d digits ih =>
    obtain ⟨hdigit, hvalue⟩ := isDigit_digitChar (hdigits d List.mem_cons_self)
    have hstep : spell false (d :: digits) ++ text = spell false digits ++ digitChar false d :: text := by
      simp [spell]
    rw [hstep, ih fun d hd => hdigits d (List.mem_cons_of_mem _ hd), atoi, if_pos hdigit, hvalue,
      List.length_cons, Nat.ofDigits_cons, pow_succ]
    congr 1
    rw [Nat.add_mod, Nat.mod_mul_mod, ← Nat.add_mod]
    congr 1
    ring

/-- A number that is written out starts with its highest digit. -/
theorem spell_cons {digits : List ℕ} (hne : digits ≠ []) :
    ∃ rest, spell false digits = digitChar false (digits.getLast hne) :: rest := by
  refine ⟨spell false digits.dropLast, ?_⟩
  conv_lhs => rw [← List.dropLast_append_getLast hne]
  simp [spell]

/-- A width that is written out starts with a digit that is not zero. -/
theorem spell_digits_cons {n : ℕ} (hn : n ≠ 0) :
    ∃ d rest, d ≠ 0 ∧ d < 10 ∧ spell false (Nat.digits 10 n) = digitChar false d :: rest := by
  have hne : Nat.digits 10 n ≠ [] := Nat.digits_ne_nil_iff_ne_zero.mpr hn
  obtain ⟨rest, hrest⟩ := spell_cons hne
  exact ⟨_, rest, Nat.getLast_digit_ne_zero 10 hn, Nat.digits_lt_base (by decide) (List.getLast_mem hne), hrest⟩

/-- The size of an `int`. -/
theorem toInt_natAbs (w : BitVec 32) :
    (w.toInt < 0 → (-w).toNat = w.toInt.natAbs) ∧ (¬ w.toInt < 0 → w.toNat = w.toInt.natAbs) := by
  have hlt := w.isLt
  rw [BitVec.toInt_eq_toNat_cond, BitVec.toNat_neg]
  constructor
  · intro hneg
    split at hneg <;> omega
  · intro hpos
    split at hpos <;> omega

/-- The width field is read as it was written. -/
theorem readWidth_spell (h : EndsCount text) (flags : Flags) (count : Count) (va : VaList) :
    readWidth flags (count.spell ++ text) va =
      (count.take va).map fun r =>
        ({ flags with left := flags.left || r.1 < 0 }, r.1.natAbs, text, r.2) := by
  cases count with
  | literal n =>
    have hcount : (Count.literal n).take va = some (((n % 2 ^ 32 : ℕ) : ℤ), va) := rfl
    have hnonneg : ¬ ((n % 2 ^ 32 : ℕ) : ℤ) < 0 := Int.not_lt.mpr (Int.natCast_nonneg _)
    rw [hcount, Option.map_some, Count.spell]
    simp only [hnonneg, decide_false, Bool.or_false, Int.natAbs_natCast]
    by_cases hn : n = 0
    · obtain ⟨c, rest, rfl, hdigit, hstar⟩ := h
      rw [hn, Nat.digits_zero]
      simp [spell, readWidth, hdigit, hstar]
    · obtain ⟨d, rest, -, hd, hspell⟩ := spell_digits_cons hn
      have hread := atoi_spell (i := 0) (by decide) (fun d hd => Nat.digits_lt_base (m := n) (by decide) hd) text
      rw [Nat.zero_mul, Nat.zero_add, Nat.ofDigits_digits, atoi_stop _ h, hspell, List.cons_append] at hread
      rw [hspell, List.cons_append]
      simp only [readWidth, (isDigit_digitChar hd).1, if_true, hread]
  | argument =>
    have hcons : Count.argument.spell ++ text = ('*' : UInt8) :: text := rfl
    rw [hcons]
    cases va with
    | nil => rfl
    | cons arg va =>
      have htake : Count.argument.take (arg :: va) = some ((arg.setWidth 32).toInt, va) := rfl
      rw [htake, Option.map_some, readWidth, if_neg (by decide), if_pos rfl]
      generalize arg.setWidth 32 = w
      obtain ⟨hneg, hpos⟩ := toInt_natAbs w
      dsimp only
      split
      next hlt => simp only [hneg hlt, hlt, decide_true, Bool.or_true]
      next hge => simp only [hpos hge, hge, decide_false, Bool.or_false]

/-- A precision is read as it was written. -/
theorem readPrecision_spell (h : EndsCount text) (flags : Flags) (precision : Precision) (va : VaList) :
    readPrecision flags (('.' : UInt8) :: (precision.spell ++ text)) va =
      (precision.count.take va).map fun r => ({ flags with precision := true }, r.1.toNat, text, r.2) := by
  rw [readPrecision, if_pos rfl]
  cases precision with
  | literal zeros n =>
    have hcount : (Precision.literal zeros n).count.take va = some (((n % 2 ^ 32 : ℕ) : ℤ), va) := rfl
    have hdigits : ∀ d ∈ Nat.digits 10 n ++ List.replicate zeros 0, d < 10 := by
      intro d hd
      rcases List.mem_append.mp hd with hd | hd
      · exact Nat.digits_lt_base (by decide) hd
      · rw [List.eq_of_mem_replicate hd]
        decide
    rw [hcount, Option.map_some, Precision.spell, Int.toNat_natCast]
    by_cases hnil : Nat.digits 10 n ++ List.replicate zeros 0 = []
    · obtain ⟨c, rest, rfl, hdigit, hstar⟩ := h
      have hzero : n = 0 := Nat.digits_eq_nil_iff_eq_zero.mp (List.append_eq_nil_iff.mp hnil).1
      rw [hnil, hzero]
      simp [spell, hdigit, hstar]
    · obtain ⟨rest, hspell⟩ := spell_cons hnil
      have hd := hdigits _ (List.getLast_mem hnil)
      have hread := atoi_spell (i := 0) (by decide) hdigits text
      rw [Nat.zero_mul, Nat.zero_add, Nat.ofDigits_append_replicate_zero, Nat.ofDigits_digits, atoi_stop _ h,
        hspell, List.cons_append] at hread
      rw [hspell, List.cons_append]
      dsimp only
      rw [if_pos (isDigit_digitChar hd).1, hread]
  | argument =>
    have hcons : Precision.argument.spell ++ text = ('*' : UInt8) :: text := rfl
    rw [hcons]
    dsimp only
    rw [if_neg (by decide), if_pos rfl]
    cases va with
    | nil => rfl
    | cons arg va =>
      have htake : Precision.argument.count.take (arg :: va) = some ((arg.setWidth 32).toInt, va) := rfl
      have htoNat : (if 0 < (arg.setWidth 32).toInt then (arg.setWidth 32).toNat else 0) =
          (arg.setWidth 32).toInt.toNat := by
        have hpos := (toInt_natAbs (arg.setWidth 32)).2
        split
        next hlt => rw [hpos (by omega)]; omega
        next => omega
      rw [htake, Option.map_some, ← htoNat]

/-- The length field is read as it was written. -/
theorem readLength_spell (flags : Flags) (length : Length) (specifier : Specifier) (rest : List UInt8) :
    readLength flags (length.spell ++ specifier.char :: rest) =
      (length.set flags, specifier.char :: rest) := by
  cases length <;> cases specifier <;> rfl

/-- Counts and flags end in front of a length and a specifier. -/
theorem length_ends (length : Length) (specifier : Specifier) (rest : List UInt8) :
    ∃ c text, length.spell ++ specifier.char :: rest = c :: text ∧ c ≠ '.' ∧ isDigit c = false ∧ c ≠ '*' ∧
      ∀ flags : Flags, flags.set c = none := by
  cases length <;> cases specifier <;>
    exact ⟨_, _, rfl, by decide, by decide, by decide, fun flags => rfl⟩

/-- They end in front of a precision. -/
theorem precision_ends (d : Directive) (rest : List UInt8) :
    EndsCount (d.spellPrecision ++ (d.length.spell ++ d.specifier.char :: rest)) ∧
      EndsFlags (d.spellPrecision ++ (d.length.spell ++ d.specifier.char :: rest)) := by
  rw [Directive.spellPrecision]
  cases d.precision with
  | none =>
    obtain ⟨c, text, heq, -, hdigit, hstar, hflag⟩ := length_ends d.length d.specifier rest
    exact ⟨⟨c, text, heq, hdigit, hstar⟩, ⟨c, text, heq, hflag⟩⟩
  | some precision => exact ⟨⟨_, _, rfl, by decide, by decide⟩, ⟨_, _, rfl, fun flags => rfl⟩⟩

/-- Flags end in front of a width. -/
theorem width_ends (count : Count) (h : EndsFlags text) : EndsFlags (count.spell ++ text) := by
  cases count with
  | literal n =>
    by_cases hn : n = 0
    · rw [Count.spell, hn, Nat.digits_zero]
      exact h
    · obtain ⟨d, rest, hne, hd, hspell⟩ := spell_digits_cons hn
      have hall : ∀ d < 10, d ≠ 0 → ∀ flags : Flags, flags.set (digitChar false d) = none := by
        intro d hd hne flags
        interval_cases d <;> first | exact absurd rfl hne | rfl
      exact ⟨_, _, by rw [Count.spell, hspell, List.cons_append], hall d hd hne⟩
  | argument => exact ⟨_, _, rfl, fun flags => rfl⟩

/-- The precision field is read as it was written. -/
theorem readPrecision_directive (d : Directive) (flags : Flags) (hflags : flags.precision = false)
    (rest : List UInt8) (va : VaList) :
    readPrecision flags (d.spellPrecision ++ (d.length.spell ++ d.specifier.char :: rest)) va =
      ((d.precision.elim (.literal 0) Precision.count).take va).map fun r =>
        ({ flags with precision := d.precision.isSome }, r.1.toNat,
          d.length.spell ++ d.specifier.char :: rest, r.2) := by
  obtain ⟨c, text, heq, hdot, hdigit, hstar, -⟩ := length_ends d.length d.specifier rest
  rw [Directive.spellPrecision]
  cases d.precision with
  | none =>
    rw [List.nil_append, heq]
    simp only [readPrecision, hdot, if_false, Option.elim_none, Option.isSome_none, ← hflags]
    rfl
  | some precision => exact readPrecision_spell ⟨c, text, heq, hdigit, hstar⟩ flags precision va

/-- A directive is read as it was meant. -/
theorem directive_spell (d : Directive) (rest : List UInt8) (va : VaList) :
    directive strAt (d.spell ++ rest) va = (d.meaning strAt va).map fun r => (r.1, rest, r.2) := by
  have hspell : d.spell ++ rest = d.flags.map FlagChar.char ++
      (d.width.spell ++ (d.spellPrecision ++ (d.length.spell ++ d.specifier.char :: rest))) := by
    simp [Directive.spell]
  obtain ⟨hcount, hflags⟩ := precision_ends d rest
  rw [hspell, directive, readFlags_spell (width_ends d.width hflags)]
  dsimp only
  rw [readWidth_spell hcount, Directive.meaning, Directive.fields]
  cases hwidth : d.width.take va with
  | none => rfl
  | some r =>
    obtain ⟨width, va⟩ := r
    simp only [Option.map_some, Option.bind_eq_bind, Option.bind_some]
    rw [readPrecision_directive d _ rfl]
    cases hprec : (d.precision.elim (.literal 0) Precision.count).take va with
    | none => rfl
    | some r =>
      obtain ⟨precision, va⟩ := r
      simp only [Option.map_some, Option.bind_some, readLength_spell, readSpecifier, setFlags,
        Bool.false_or]
      cases d.specifier with
      | percent => rfl
      | _ =>
        cases va with
        | nil => rfl
        | cons arg va =>
          dsimp only
          rw [if_pos (by decide), Option.map_map]
          rfl

/-- A count has 32 bits. -/
theorem Count.take_lt {count : Count} {va va' : VaList} {n : ℤ} (h : count.take va = some (n, va')) :
    n < 2 ^ 32 := by
  cases count with
  | literal m =>
    rw [← (Prod.mk.inj (Option.some.inj h)).1]
    have := Nat.mod_lt m (show 0 < 2 ^ 32 by decide)
    omega
  | argument =>
    cases va with
    | nil => cases h
    | cons arg va =>
      rw [← (Prod.mk.inj (Option.some.inj h)).1]
      exact Int.lt_trans BitVec.toInt_lt (by decide)

/-- A precision has 32 bits, and is zero when there is none. -/
theorem Directive.fields_precision {d : Directive} {va va' : VaList} {flags : Flags} {width precision : ℕ}
    (h : d.fields va = some (flags, width, precision, va')) :
    precision < 2 ^ 32 ∧ (flags.precision = false → precision = 0) := by
  have hlength (length : Length) (flags : Flags) : (length.set flags).precision = flags.precision := by
    cases length <;> rfl
  simp only [Directive.fields, Option.bind_eq_bind, Option.bind_eq_some_iff, Option.some.injEq,
    Prod.mk.injEq] at h
  obtain ⟨⟨w, va₁⟩, -, ⟨p, va₂⟩, htake, rfl, -, rfl, -⟩ := h
  rw [hlength]
  refine ⟨by have := Count.take_lt htake; omega, fun hnone => ?_⟩
  rw [Option.isSome_eq_false_iff, Option.isNone_iff_eq_none] at hnone
  rw [hnone] at htake
  rw [← (Prod.mk.inj (Option.some.inj htake)).1]
  rfl

/-- The integer that an argument is for a specifier. -/
def argumentValue (specifier : UInt8) (flags : Flags) (arg : BitVec 64) : ℤ :=
  if isSigned specifier then (arg.setWidth (argumentBits flags)).toInt
  else (arg.setWidth (argumentBits flags)).toNat

/-- An integer specifier asks for the sign and the size of the argument, unless its negation overflows. -/
theorem integerConversion_eq (specifier : UInt8) (flags : Flags) (width precision : ℕ) (arg : BitVec 64) :
    integerConversion specifier flags width precision arg =
      if isSigned specifier = true ∧ argumentValue specifier flags arg = leastValue flags then none
      else some (.number (argumentValue specifier flags arg).natAbs
        (decide (argumentValue specifier flags arg < 0)) (baseOf specifier) precision width
        (integerFlags specifier flags)) := by
  rw [integerConversion, argumentValue]
  split
  next hsigned =>
    have hnumber : signedNumber (integerFlags specifier flags) arg = signedNumber flags arg := rfl
    rw [hnumber, signedNumber_eq]
    simp only [hsigned, true_and]
    split <;> rfl
  next hunsigned =>
    have hnonneg (n : ℕ) : decide ((n : ℤ) < 0) = false := decide_eq_false (Int.not_lt.mpr (Int.natCast_nonneg n))
    rw [hnonneg, Int.natAbs_natCast, if_neg fun h => hunsigned h.1]
    simp only [unsignedNumber_eq]
    rfl

/-- An integer directive prints the conversion of its argument. -/
theorem directive_convert {d : Directive} (hd : isInteger d.specifier.char = true) {va va' : VaList}
    {flags : Flags} {width precision : ℕ} {arg : BitVec 64}
    (hfields : d.fields va = some (flags, width, precision, arg :: va')) {conv : Conversion}
    (hconv : convertArgument strAt d.specifier.char flags width precision arg = some conv) (rest : List UInt8) :
    directive strAt (d.spell ++ rest) va = some (conv, rest, va') := by
  rw [directive_spell, Directive.meaning, hfields, Option.bind_some]
  cases hspec : d.specifier with
  | percent =>
    rw [hspec] at hd
    exact absurd hd (by decide)
  | _ =>
    rw [hspec] at hconv
    dsimp only
    rw [hconv]
    rfl

/-- The text of an integer directive is read back as the integer that its argument is, if and only if the
buffer of 32 characters is large enough for it. The least value of a signed type is left out: its negation
overflows. -/
theorem directive_integer_reads_iff {d : Directive} (hd : isInteger d.specifier.char = true)
    {va va' : VaList} {flags : Flags} {width precision : ℕ} {arg : BitVec 64}
    (hfields : d.fields va = some (flags, width, precision, arg :: va'))
    (hleast : isSigned d.specifier.char = true → argumentValue d.specifier.char flags arg ≠ leastValue flags)
    (rest : List UInt8) :
    ∃ conv, directive strAt (d.spell ++ rest) va = some (conv, rest, va') ∧
      (readNumber (baseOf d.specifier.char) conv.text = some (argumentValue d.specifier.char flags arg) ↔
        NumberFits (argumentValue d.specifier.char flags arg).natAbs
          (decide (argumentValue d.specifier.char flags arg < 0)) (baseOf d.specifier.char) precision width
          (integerFlags d.specifier.char flags)) := by
  have hprec := Directive.fields_precision hfields
  have hconv : convertArgument strAt d.specifier.char flags width precision arg =
      some (.number (argumentValue d.specifier.char flags arg).natAbs
        (decide (argumentValue d.specifier.char flags arg < 0)) (baseOf d.specifier.char) precision width
        (integerFlags d.specifier.char flags)) := by
    rw [convertArgument, if_pos hd, integerConversion_eq, if_neg fun h => hleast h.1 h.2]
  refine ⟨_, directive_convert hd hfields hconv rest, ?_⟩
  have hiff := ntoaText_fits_iff (convertArgument_wellFormed hprec.1 hprec.2 hconv)
  have hsign (n : ℤ) : withSign (decide (n < 0)) n.natAbs = n := by
    rw [withSign]
    split
    next hneg =>
      rw [decide_eq_true_iff] at hneg
      omega
    next hpos =>
      rw [decide_eq_true_iff] at hpos
      omega
  rw [hsign] at hiff
  exact hiff

/-- `%#4x` of `0x1234`: the digits fill the field, and two of them make room for the prefix. -/
theorem directive_integer_reads_iff_fullField :
    ∃ conv, directive (fun _ => none) (bytes ['#', '4', 'x']) [0x1234] = some (conv, [], []) ∧
      ¬ readNumber 16 conv.text = some 0x1234 := by
  obtain ⟨conv, hread, hiff⟩ := @directive_integer_reads_iff (fun _ => none)
    ⟨[.hash], .literal 4, none, .none, .x⟩ rfl [0x1234] [] { hash := true } 4 0 0x1234 (by decide)
    (fun hsigned => absurd hsigned (by decide)) []
  exact ⟨conv, hread, fun h => absurd (hiff.mp h) (by decide)⟩

-- `0 - value` overflows for the least `int`
example : directive (fun _ => none) (bytes ['d']) [0x80000000] = none := by decide

/-- A format that is written from pieces asks for the conversions that the pieces mean. -/
theorem conversions_spell (pieces : List Piece) (va : VaList) :
    conversions strAt (pieces.flatMap Piece.spell) va = meanings strAt pieces va := by
  induction pieces generalizing va with
  | nil => rfl
  | cons piece pieces ih =>
    cases piece with
    | literal c hc =>
      rw [List.flatMap_cons, Piece.spell, List.singleton_append, conversions_cons_plain hc.1, ih, meanings]
    | directive d =>
      rw [List.flatMap_cons, Piece.spell, List.cons_append, conversions_cons_directive, directive_spell,
        meanings, Option.bind_map]
      congr 1
      funext r
      rw [Function.comp_apply, ih]

end Flos.Kprintf
