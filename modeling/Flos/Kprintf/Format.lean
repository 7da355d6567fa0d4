import Mathlib.Data.Int.Notation
import Flos.Kprintf.Output

/-!
# Formats

`_vsnprintf` reads a format `%[flags][width][.precision][length]specifier` character by character. What a
directive asks for, with its arguments taken, is a `Conversion`. Arguments are words of eight bytes. A call
that would read behind the NUL of its format, take an argument that is not there or follow a bad pointer to
a string has no result.
-/

namespace Flos.Kprintf

/-- The arguments that `va_arg` has not taken yet. -/
abbrev VaList := List (BitVec 64)

/-- What a directive asks for: a number in a base, a character, a string, or a character of the format
itself. -/
inductive Conversion where
  | number (value : ℕ) (negative : Bool) (base precision width : ℕ) (flags : Flags)
  | character (c : UInt8) (width : ℕ) (flags : Flags)
  | string (p : CString) (precision width : ℕ) (flags : Flags)
  | plain (c : UInt8)
deriving DecidableEq

/-- The flag that a character sets, if it is one. -/
def Flags.set (flags : Flags) (c : UInt8) : Option Flags :=
  if c = '0' then some { flags with zeropad := true }
  else if c = '-' then some { flags with left := true }
  else if c = '+' then some { flags with plus := true }
  else if c = ' ' then some { flags with space := true }
  else if c = '#' then some { flags with hash := true }
  else none

/-- The loop that evaluates flags. -/
def readFlags : Flags → List UInt8 → Flags × List UInt8
  | flags, [] => (flags, [])
  | flags, c :: format =>
    match flags.set c with
    | some flags => readFlags flags format
    | none => (flags, c :: format)

/-- `_is_digit`. -/
def isDigit (ch : UInt8) : Bool := ('0' : UInt8) ≤ ch && ch ≤ ('9' : UInt8)

/-- `_atoi`, from the value `i` on. -/
def atoi : (i : ℕ) → List UInt8 → ℕ × List UInt8
  | i, [] => (i, [])
  | i, c :: str => if isDigit c then atoi ((i * 10 + (c - '0').toNat) % 2 ^ 32) str else (i, c :: str)

/-- The width field. A negative argument asks for the left. -/
def readWidth (flags : Flags) (format : List UInt8) (va : VaList) :
    Option (Flags × ℕ × List UInt8 × VaList) :=
  match format with
  | [] => some (flags, 0, [], va)
  | c :: rest =>
    if isDigit c then
      let r := atoi 0 format
      some (flags, r.1, r.2, va)
    else if c = '*' then
      match va with
      | [] => none
      | arg :: va =>
        let w := arg.setWidth 32
        if w.toInt < 0 then some ({ flags with left := true }, (-w).toNat, rest, va)
        else some (flags, w.toNat, rest, va)
    else some (flags, 0, format, va)

/-- The precision field. -/
def readPrecision (flags : Flags) (format : List UInt8) (va : VaList) :
    Option (Flags × ℕ × List UInt8 × VaList) :=
  match format with
  | [] => some (flags, 0, [], va)
  | dot :: format =>
    if dot = '.' then
      let flags := { flags with precision := true }
      match format with
      | [] => some (flags, 0, [], va)
      | c :: rest =>
        if isDigit c then
          let r := atoi 0 format
          some (flags, r.1, r.2, va)
        else if c = '*' then
          match va with
          | [] => none
          | arg :: va =>
            let prec := arg.setWidth 32
            some (flags, if 0 < prec.toInt then prec.toNat else 0, rest, va)
        else some (flags, 0, format, va)
    else some (flags, 0, dot :: format, va)

/-- The length field. The types of `t`, `j` and `z` are as long as a `long`. -/
def readLength (flags : Flags) (format : List UInt8) : Flags × List UInt8 :=
  match format with
  | [] => (flags, [])
  | c :: rest =>
    if c = 'l' then
      if rest.head? = some ('l' : UInt8) then ({ flags with long := true, longLong := true }, rest.tail)
      else ({ flags with long := true }, rest)
    else if c = 'h' then
      if rest.head? = some ('h' : UInt8) then ({ flags with short := true, char := true }, rest.tail)
      else ({ flags with short := true }, rest)
    else if c = 't' || c = 'j' || c = 'z' then ({ flags with long := true }, rest)
    else (flags, format)

/-- The base of an integer specifier. -/
def baseOf (specifier : UInt8) : ℕ :=
  if specifier = 'x' || specifier = 'X' then 16
  else if specifier = 'o' then 8
  else if specifier = 'b' then 2
  else 10

/-- The specifiers of signed integers. -/
def isSigned (specifier : UInt8) : Bool := specifier = 'i' || specifier = 'd'

/-- The specifiers of integers. -/
def isInteger (specifier : UInt8) : Bool :=
  isSigned specifier || specifier = 'u' || specifier = 'x' || specifier = 'X' || specifier = 'o' ||
    specifier = 'b'

/-- The flags that count for an integer: no `#` for a decimal one, `+` and space for a signed one only, and
no `0` behind a precision. -/
def integerFlags (specifier : UInt8) (flags : Flags) : Flags :=
  { flags with
    hash := flags.hash && baseOf specifier ≠ 10
    uppercase := flags.uppercase || specifier = 'X'
    plus := flags.plus && isSigned specifier
    space := flags.space && isSigned specifier
    zeropad := flags.zeropad && !flags.precision }

/-- `value > 0 ? value : 0 - value`, unsigned. At the least value of its type the subtraction overflows, and
C leaves the result undefined. -/
def magnitude {w : ℕ} (value : BitVec w) : Option ℕ :=
  if 0 < value.toInt then some value.toNat
  else if value = BitVec.intMin w then none
  else some (0 - value).toNat

/-- The word of a signed argument: the whole one, or its lower half, which `hh` and `h` cut down further. -/
def signedNumber (flags : Flags) (arg : BitVec 64) : Option (ℕ × Bool) :=
  if flags.longLong || flags.long then (magnitude arg).map fun value => (value, arg.toInt < 0)
  else
    let value : BitVec 32 :=
      if flags.char then (arg.setWidth 8).signExtend 32
      else if flags.short then (arg.setWidth 16).signExtend 32
      else arg.setWidth 32
    (magnitude value).map fun number => (number, value.toInt < 0)

/-- The value of an unsigned argument. -/
def unsignedNumber (flags : Flags) (arg : BitVec 64) : ℕ :=
  if flags.longLong || flags.long then arg.toNat
  else if flags.char then (arg.setWidth 8).toNat
  else if flags.short then (arg.setWidth 16).toNat
  else (arg.setWidth 32).toNat

/-- The integer that a specifier makes of an argument. -/
def integerConversion (specifier : UInt8) (flags : Flags) (width precision : ℕ) (arg : BitVec 64) :
    Option Conversion :=
  let flags := integerFlags specifier flags
  if isSigned specifier then
    (signedNumber flags arg).map fun (value, negative) =>
      .number value negative (baseOf specifier) precision width flags
  else some (.number (unsignedNumber flags arg) false (baseOf specifier) precision width flags)

section Directives

variable (strAt : BitVec 64 → Option CString)

/-- The specifiers that take an argument. -/
def takesArgument (specifier : UInt8) : Bool :=
  isInteger specifier || specifier = 'c' || specifier = 's' || specifier = 'p'

/-- The specifier of a directive that takes an argument. -/
def convertArgument (specifier : UInt8) (flags : Flags) (width precision : ℕ) (arg : BitVec 64) :
    Option Conversion :=
  if isInteger specifier then integerConversion specifier flags width precision arg
  else if specifier = 'c' then some (.character (UInt8.ofNat arg.toNat) width flags)
  else if specifier = 's' then (strAt arg).map fun p => .string p precision width flags
  else some (.number arg.toNat false 16 precision 16 { flags with zeropad := true, uppercase := true })

/-- The `switch` on the specifier. At the end of the format the default branch prints the NUL and goes on
behind it. -/
def readSpecifier (flags : Flags) (width precision : ℕ) (format : List UInt8) (va : VaList) :
    Option (Conversion × List UInt8 × VaList) :=
  match format with
  | [] => none
  | c :: format =>
    if takesArgument c then
      match va with
      | [] => none
      | arg :: va => (convertArgument strAt c flags width precision arg).map fun conv => (conv, format, va)
    else some (.plain c, format, va)

/-- The body of the loop of `_vsnprintf` behind a `%`. -/
def directive (format : List UInt8) (va : VaList) : Option (Conversion × List UInt8 × VaList) := do
  let (flags, format) := readFlags {} format
  let (flags, width, format, va) ← readWidth flags format va
  let (flags, precision, format, va) ← readPrecision flags format va
  let (flags, format) := readLength flags format
  readSpecifier strAt flags width precision format va

end Directives

section Printing

variable {σ : Type} (strAt : BitVec 64 → Option CString) (out : Out σ)

/-- Prints one conversion. -/
def convert : Conversion → σ × ℕ → σ × ℕ
  | .number value negative base precision width flags =>
    ntoaLong out value negative base precision width flags
  | .character c width flags => outCharacter out c width flags
  | .string p precision width flags => outString out p precision width flags
  | .plain c => emit out c

/-- The loop of `_vsnprintf`. Every iteration takes a character of the format at least. -/
def vsnprintfLoop : (fuel : ℕ) → List UInt8 → VaList → σ × ℕ → Option (σ × ℕ)
  | _, [], _, s => some s
  | 0, _ :: _, _, _ => none
  | fuel + 1, c :: format, va, s =>
    if c ≠ '%' then vsnprintfLoop fuel format va (emit out c s)
    else
      match directive strAt format va with
      | none => none
      | some (conv, format, va) => vsnprintfLoop fuel format va (convert out conv s)

/-- `_vsnprintf`: what it writes, and the `int` that it returns. -/
def vsnprintf (maxlen : ℕ) (format : CString) (va : VaList) (buffer : σ) : Option (σ × ℤ) :=
  (vsnprintfLoop strAt out format.chars.length format.chars va (buffer, 0)).map fun s =>
    (out 0 (if s.2 < maxlen then s.2 else (maxlen + (2 ^ 64 - 1)) % 2 ^ 64) s.1,
      (BitVec.ofNat 32 s.2).toInt)

end Printing

end Flos.Kprintf
