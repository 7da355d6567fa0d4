import Mathlib.Algebra.Group.Nat.Defs
import Mathlib.Logic.Function.Basic

/-!
# Output of the formatter

`_vsnprintf` and its helpers give every character to a function `out`, with the place `idx` where it goes, and
count the place up whether the character was stored or not. Here are the functions that it is called with,
and the helpers that print one converted argument.

The buffer `buf` in which a number is converted is the list of its first `len` characters, the last one
first: `buf[len++] = c` puts a character in front, `len--` takes one away, and printing from the last one
down is printing the list. A place `idx` is a natural number: no call prints `2 ^ 64` characters.
-/

namespace Flos.Kprintf

/-- The characters of a C string, without the NUL that ends it. It lies in the address space. -/
structure CString where
  chars : List UInt8
  noNul : 0 ∉ chars
  length_lt : chars.length < 2 ^ 64
deriving DecidableEq

instance coeCharUInt8 : Coe Char UInt8 := ⟨Char.toUInt8⟩

/-- The bytes of characters. -/
def bytes (chars : List Char) : List UInt8 := chars.map Char.toUInt8

/-- The bits `FLAGS_*`. -/
structure Flags where
  zeropad : Bool := false
  left : Bool := false
  plus : Bool := false
  space : Bool := false
  hash : Bool := false
  uppercase : Bool := false
  char : Bool := false
  short : Bool := false
  long : Bool := false
  longLong : Bool := false
  precision : Bool := false
deriving DecidableEq, Repr

/-- `PRINTF_NTOA_BUFFER_SIZE`. -/
def ntoaBufferSize : ℕ := 32

/-! ## Sinks -/

/-- `out(character, buffer, idx, maxlen)` for the `maxlen` of a call, on what it writes to. -/
abbrev Out (σ : Type) := (character : UInt8) → (idx : ℕ) → σ → σ

/-- `_out_buffer`. -/
def outBuffer (maxlen : ℕ) : Out (ℕ → UInt8) := fun character idx buffer =>
  if idx < maxlen then Function.update buffer idx character else buffer

/-- `_out_null`. -/
def outNull {σ : Type} : Out σ := fun _ _ buffer => buffer

/-- `_out_fct`, and with `_putchar` for `fct`, `_out_char`. -/
def outFct {σ : Type} (fct : UInt8 → σ → σ) : Out σ := fun character _ arg =>
  if character = 0 then arg else fct character arg

variable {σ : Type} (out : Out σ)

/-- `out(character, buffer, idx++, maxlen)`. -/
def emit (character : UInt8) (s : σ × ℕ) : σ × ℕ := (out character s.2 s.1, s.2 + 1)

/-- The characters of a text, one behind the other. -/
def emitAll (text : List UInt8) (s : σ × ℕ) : σ × ℕ := text.foldl (fun s c => emit out c s) s

/-! ## Printing one argument -/

/-- `n` iterations of a loop that pads with spaces. -/
def outSpaces : (n : ℕ) → σ × ℕ → σ × ℕ
  | 0, s => s
  | n + 1, s => outSpaces n (emit out ' ' s)

/-- `while (len) out(buf[--len], …)`. -/
def outBuf : (buf : List UInt8) → σ × ℕ → σ × ℕ
  | [], s => s
  | c :: buf, s => outBuf buf (emit out c s)

/-- `_out_rev`. -/
def outRev (buf : List UInt8) (width : ℕ) (flags : Flags) (s : σ × ℕ) : σ × ℕ :=
  let s₁ := if !flags.left && !flags.zeropad then outSpaces out (width - buf.length) s else s
  let s₂ := outBuf out buf s₁
  if flags.left then outSpaces out (width - (s₂.2 - s.2)) s₂ else s₂

/-- `if (len < PRINTF_NTOA_BUFFER_SIZE) buf[len++] = c`. -/
def push (c : UInt8) (buf : List UInt8) : List UInt8 :=
  if buf.length < ntoaBufferSize then c :: buf else buf

/-- `while (len < n && len < PRINTF_NTOA_BUFFER_SIZE) buf[len++] = '0'`. -/
def padZeros (n : ℕ) (buf : List UInt8) : List UInt8 :=
  List.replicate (min n ntoaBufferSize - buf.length) ('0' : UInt8) ++ buf

/-- The width that is left for the digits: one less when zeros go behind a sign. -/
def digitsWidth (negative : Bool) (width : ℕ) (flags : Flags) : ℕ :=
  if !flags.left && width ≠ 0 && flags.zeropad && (negative || flags.plus || flags.space) then width - 1
  else width

/-- The leading zeros of `_ntoa_format`. -/
def padNumber (prec width : ℕ) (flags : Flags) (buf : List UInt8) : List UInt8 :=
  if flags.left then buf
  else
    let buf := padZeros prec buf
    if flags.zeropad then padZeros width buf else buf

/-- The branch of `_ntoa_format` that handles `#`. -/
def handleHash (base prec width : ℕ) (flags : Flags) (buf : List UInt8) : List UInt8 :=
  if flags.hash then
    let buf :=
      if !flags.precision && buf.length ≠ 0 && (buf.length = prec || buf.length = width) then
        if buf.tail.length ≠ 0 && base = 16 then buf.tail.tail else buf.tail
      else buf
    let buf :=
      if base = 16 then push (if flags.uppercase then 'X' else 'x') buf
      else if base = 2 then push 'b' buf
      else buf
    push '0' buf
  else buf

/-- The sign of `_ntoa_format`. -/
def pushSign (negative : Bool) (flags : Flags) (buf : List UInt8) : List UInt8 :=
  if negative then push '-' buf
  else if flags.plus then push '+' buf
  else if flags.space then push ' ' buf
  else buf

/-- `_ntoa_format`. -/
def ntoaFormat (buf : List UInt8) (negative : Bool) (base prec width : ℕ) (flags : Flags) (s : σ × ℕ) :
    σ × ℕ :=
  let width := digitsWidth negative width flags
  let buf := pushSign negative flags (handleHash base prec width flags (padNumber prec width flags buf))
  outRev out buf width flags s

/-- The character of a digit. -/
def digitChar (uppercase : Bool) (digit : ℕ) : UInt8 :=
  if digit < 10 then ('0' : UInt8) + digit.toUInt8
  else (if uppercase then ('A' : UInt8) else ('a' : UInt8)) + digit.toUInt8 - 10

/-- The loop of `_ntoa_long`, with `room` places left in `buf`. -/
def digitsLoop (base : ℕ) (uppercase : Bool) : (room value : ℕ) → (buf : List UInt8) → List UInt8
  | 0, _, buf => buf
  | room + 1, value, buf =>
    let buf := digitChar uppercase (value % base) :: buf
    if value / base ≠ 0 then digitsLoop base uppercase room (value / base) buf else buf

/-- `_ntoa_long` and `_ntoa_long_long`, which are the same for words of 64 bits. -/
def ntoaLong (value : ℕ) (negative : Bool) (base prec width : ℕ) (flags : Flags) (s : σ × ℕ) : σ × ℕ :=
  let flags := if value = 0 then { flags with hash := false } else flags
  let buf :=
    if !flags.precision || value ≠ 0 then digitsLoop base flags.uppercase ntoaBufferSize value [] else []
  ntoaFormat out buf negative base prec width flags s

/-- `case 'c'`. -/
def outCharacter (c : UInt8) (width : ℕ) (flags : Flags) (s : σ × ℕ) : σ × ℕ :=
  let s := if flags.left then s else outSpaces out (width - 1) s
  let s := emit out c s
  if flags.left then outSpaces out (width - 1) s else s

/-- `_strnlen_s`, at most `maxsize` characters of the string. -/
def strnlen (chars : List UInt8) (maxsize : ℕ) : ℕ := (chars.take maxsize).length

/-- The loop of `case 's'`, with the precision counted down when there is one. -/
def outChars (limited : Bool) : (chars : List UInt8) → (precision : ℕ) → σ × ℕ → σ × ℕ
  | [], _, s => s
  | c :: chars, precision, s =>
    if !limited || precision ≠ 0 then outChars limited chars (precision - 1) (emit out c s) else s

/-- `case 's'`. -/
def outString (p : CString) (precision width : ℕ) (flags : Flags) (s : σ × ℕ) : σ × ℕ :=
  let l := strnlen p.chars (if precision ≠ 0 then precision else 2 ^ 64 - 1) % 2 ^ 32
  let l := if flags.precision then min l precision else l
  let s := if flags.left then s else outSpaces out (width - l) s
  let s := outChars out flags.precision p.chars precision s
  if flags.left then outSpaces out (width - l) s else s

/-! ## Texts -/

/-- A text in a field of `width` characters. -/
def padText (width : ℕ) (left zeropad : Bool) (len : ℕ) (text : List UInt8) : List UInt8 :=
  let spaces := List.replicate (width - len) (' ' : UInt8)
  if left then text ++ spaces else if zeropad then text else spaces ++ text

/-- The characters of a number before the padding: sign, prefix, zeros and digits. -/
def ntoaBuf (value : ℕ) (negative : Bool) (base prec width : ℕ) (flags : Flags) : List UInt8 :=
  let flags := if value = 0 then { flags with hash := false } else flags
  let buf :=
    if !flags.precision || value ≠ 0 then digitsLoop base flags.uppercase ntoaBufferSize value [] else []
  pushSign negative flags (handleHash base prec width flags (padNumber prec width flags buf))

/-- The text that `_ntoa_long` prints. -/
def ntoaText (value : ℕ) (negative : Bool) (base prec width : ℕ) (flags : Flags) : List UInt8 :=
  let width := digitsWidth negative width flags
  let buf := ntoaBuf value negative base prec width flags
  padText width flags.left flags.zeropad buf.length buf

/-- The text of `case 'c'`. -/
def characterText (c : UInt8) (width : ℕ) (flags : Flags) : List UInt8 :=
  padText width flags.left false 1 [c]

/-- The text of `case 's'`. The length of the string is an `unsigned int`. -/
def stringText (p : CString) (precision width : ℕ) (flags : Flags) : List UInt8 :=
  let shown := if flags.precision then p.chars.take precision else p.chars
  padText width flags.left false (shown.length % 2 ^ 32) shown

variable {out} {s : σ × ℕ}

/-- No character. -/
@[simp] theorem emitAll_nil : emitAll out [] s = s := rfl

/-- The first character, then the rest. -/
@[simp] theorem emitAll_cons (c : UInt8) (text : List UInt8) :
    emitAll out (c :: text) s = emitAll out text (emit out c s) := rfl

/-- One text behind the other. -/
theorem emitAll_append (text text' : List UInt8) :
    emitAll out (text ++ text') s = emitAll out text' (emitAll out text s) := List.foldl_append

/-- The place counts every character. -/
theorem emitAll_snd (text : List UInt8) : (emitAll out text s).2 = s.2 + text.length := by
  induction text generalizing s with
  | nil => rfl
  | cons c text ih =>
    rw [emitAll_cons, ih, List.length_cons, emit]
    omega

/-- A run of spaces. -/
theorem outSpaces_eq (n : ℕ) : outSpaces out n s = emitAll out (List.replicate n ' ') s := by
  induction n generalizing s with
  | zero => rfl
  | succ n ih => rw [outSpaces, ih, List.replicate_succ, emitAll_cons]

/-- The characters of a buffer. -/
theorem outBuf_eq (buf : List UInt8) : outBuf out buf s = emitAll out buf s := by
  induction buf generalizing s with
  | nil => rfl
  | cons c buf ih => rw [outBuf, ih, emitAll_cons]

/-- `_out_rev` pads the text to its width. -/
theorem outRev_eq (buf : List UInt8) (width : ℕ) (flags : Flags) :
    outRev out buf width flags s =
      emitAll out (padText width flags.left flags.zeropad buf.length buf) s := by
  have hlen : (emitAll out buf s).2 - s.2 = buf.length := by rw [emitAll_snd, Nat.add_sub_cancel_left]
  cases hleft : flags.left <;> cases hzero : flags.zeropad <;>
    simp [outRev, padText, hleft, hzero, outBuf_eq, outSpaces_eq, emitAll_append, hlen]

/-- `_ntoa_long` prints its text into every sink. -/
theorem ntoaLong_eq (value : ℕ) (negative : Bool) (base prec width : ℕ) (flags : Flags) :
    ntoaLong out value negative base prec width flags s =
      emitAll out (ntoaText value negative base prec width flags) s := by
  rw [ntoaLong, ntoaFormat, outRev_eq, ntoaText, ntoaBuf]
  split <;> rfl

/-- A character padded to its width. -/
theorem outCharacter_eq (c : UInt8) (width : ℕ) (flags : Flags) :
    outCharacter out c width flags s = emitAll out (characterText c width flags) s := by
  cases hleft : flags.left <;>
    simp [outCharacter, characterText, padText, hleft, outSpaces_eq, emitAll_append]

/-- A string up to its precision. -/
theorem outChars_eq (limited : Bool) (chars : List UInt8) (precision : ℕ) :
    outChars out limited chars precision s =
      emitAll out (if limited then chars.take precision else chars) s := by
  induction chars generalizing s precision with
  | nil => cases limited <;> simp [outChars]
  | cons c chars ih =>
    rw [outChars, ih]
    cases limited with
    | false => rfl
    | true =>
      cases precision with
      | zero => rfl
      | succ precision => rfl

/-- `case 's'` prints its text, for a precision that is zero unless it was given. -/
theorem outString_eq (p : CString) (precision width : ℕ) (flags : Flags) (hprec : precision < 2 ^ 32)
    (hnone : flags.precision = false → precision = 0) :
    outString out p precision width flags s = emitAll out (stringText p precision width flags) s := by
  have hlen :
      (if flags.precision then
          min (strnlen p.chars (if precision ≠ 0 then precision else 2 ^ 64 - 1) % 2 ^ 32) precision
        else strnlen p.chars (if precision ≠ 0 then precision else 2 ^ 64 - 1) % 2 ^ 32) =
        (if flags.precision then p.chars.take precision else p.chars).length % 2 ^ 32 := by
    have hfits := p.length_lt
    cases hflag : flags.precision with
    | false =>
      have hall : min (2 ^ 64 - 1) p.chars.length = p.chars.length := by omega
      simp only [Bool.false_eq_true, if_false, strnlen, hnone hflag, ne_eq, not_true_eq_false,
        List.length_take, hall]
    | true =>
      simp only [strnlen, if_true, List.length_take]
      split <;> omega
  rw [outString, hlen, outChars_eq, stringText, padText]
  cases hleft : flags.left <;> simp [outSpaces_eq, emitAll_append]

end Flos.Kprintf
