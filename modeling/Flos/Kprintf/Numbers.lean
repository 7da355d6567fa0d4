import Mathlib.Data.Nat.Digits.Lemmas
import Flos.Kprintf.Texts

/-!
# Reading printed numbers back

A number is printed as its sign, a prefix of its base, zeros and digits, with spaces around them. All but the
spaces goes through a buffer of 32 characters, and for `#` characters are taken out of it again to make room
for the prefix. Reading a printed number back shows when this loses a digit, the sign or a part of the prefix.
-/

namespace Flos.Kprintf

/-! ## Reading -/

/-- The value of a digit, small or capital. -/
def digitValue (c : UInt8) : Option ℕ :=
  if ('0' : UInt8) ≤ c ∧ c ≤ ('9' : UInt8) then some (c - '0').toNat
  else if ('a' : UInt8) ≤ c ∧ c ≤ ('f' : UInt8) then some ((c - 'a').toNat + 10)
  else if ('A' : UInt8) ≤ c ∧ c ≤ ('F' : UInt8) then some ((c - 'A').toNat + 10)
  else none

/-- The number that digits spell behind a number read before them. -/
def readDigits (base : ℕ) (start : ℕ) (text : List UInt8) : Option ℕ :=
  text.foldlM (fun n c => ((digitValue c).filter (· < base)).map (n * base + ·)) start

/-- The character of a space. -/
def isSpace (c : UInt8) : Bool := c = ' '

/-- A text without the spaces around it. -/
def trim (text : List UInt8) : List UInt8 :=
  ((text.dropWhile isSpace).reverse.dropWhile isSpace).reverse

/-- A text behind the prefix `0x` or `0b` of its base. -/
def behindPrefix (base : ℕ) (text : List UInt8) : List UInt8 :=
  if base = 16 ∧ (text.take 2 = bytes ['0', 'x'] ∨ text.take 2 = bytes ['0', 'X']) then text.drop 2
  else if base = 2 ∧ text.take 2 = bytes ['0', 'b'] then text.drop 2
  else text

/-- A number with its sign. -/
def withSign (negative : Bool) (n : ℕ) : ℤ := if negative then -n else n

/-- Reads a printed number. No digits are zero. -/
def readNumber (base : ℕ) (text : List UInt8) : Option ℤ :=
  match trim text with
  | [] => some 0
  | c :: rest =>
    if c = '-' then (readDigits base 0 (behindPrefix base rest)).map (withSign true)
    else if c = '+' then (readDigits base 0 (behindPrefix base rest)).map (withSign false)
    else (readDigits base 0 (behindPrefix base (c :: rest))).map (withSign false)

/-! ## When it works -/

/-- The number of characters of a number before its prefix and its sign: its digits, and zeros in front of
them. -/
def paddedLength (digits prec width : ℕ) (flags : Flags) : ℕ :=
  if flags.left then digits
  else max (max digits (min prec ntoaBufferSize)) (if flags.zeropad then min width ntoaBufferSize else 0)

/-- The number of digits that are converted. -/
def digitCount (value base : ℕ) (flags : Flags) : ℕ :=
  if value = 0 then if flags.precision then 0 else 1 else (Nat.digits base value).length

/-- How many characters are taken out of the buffer again for a prefix: none unless they just fill the
field. -/
def strippedCount (base len width : ℕ) (flags : Flags) : ℕ :=
  if !flags.precision ∧ len = width then if base = 16 then 2 else 1 else 0

/-- The buffer is large enough for a number: for its digits, for a minus sign, and for a prefix, which must
not take the place of a digit, nor end in the middle. -/
def NumberFits (value : ℕ) (negative : Bool) (base prec width : ℕ) (flags : Flags) : Prop :=
  let width := digitsWidth negative width flags
  let digits := digitCount value base flags
  let len := paddedLength digits prec width flags
  let stripped := strippedCount base len width flags
  value < base ^ ntoaBufferSize ∧ (negative = true → len < ntoaBufferSize) ∧
    (flags.hash = true → value ≠ 0 →
      digits + stripped ≤ len ∧ (base = 2 ∨ base = 16 → len ≠ stripped + 31))

instance (value : ℕ) (negative : Bool) (base prec width : ℕ) (flags : Flags) :
    Decidable (NumberFits value negative base prec width flags) := by
  unfold NumberFits
  infer_instance

/-! ## Digits -/

/-- The characters of digits, of which the least significant one is the first. -/
def spell (uppercase : Bool) (digits : List ℕ) : List UInt8 := (digits.map (digitChar uppercase)).reverse

/-- The digits that `_ntoa_long` converts. -/
def convertedDigits (value base : ℕ) (flags : Flags) : List ℕ :=
  if value = 0 then if flags.precision then [] else [0] else (Nat.digits base value).take ntoaBufferSize

/-- A digit is read as what was written. -/
theorem digitValue_digitChar (uppercase : Bool) {d : ℕ} (hd : d < 16) :
    digitValue (digitChar uppercase d) = some d := by
  have hall : ∀ uppercase, ∀ d < 16, digitValue (digitChar uppercase d) = some d := by decide
  exact hall uppercase d hd

/-- The loop of `_ntoa_long` converts the digits from the least significant one on. -/
theorem digitsLoop_eq {base : ℕ} (hbase : 1 < base) (uppercase : Bool) (room value : ℕ)
    (buf : List UInt8) :
    digitsLoop base uppercase (room + 1) value buf =
      spell uppercase (if value = 0 then [0] else (Nat.digits base value).take (room + 1)) ++ buf := by
  have hcons (n : ℕ) (hn : n ≠ 0) : Nat.digits base n = n % base :: Nat.digits base (n / base) :=
    Nat.digits_def' hbase (Nat.pos_of_ne_zero hn)
  induction room generalizing value buf with
  | zero =>
    have hloop : digitsLoop base uppercase 1 value buf = digitChar uppercase (value % base) :: buf := by
      simp [digitsLoop]
    rw [hloop]
    split
    next hzero => simp [hzero, spell]
    next hne => simp [hcons value hne, spell]
  | succ room ih =>
    rw [digitsLoop]
    split
    next hrest =>
      have hne : value ≠ 0 := fun h => hrest (by rw [h, Nat.zero_div])
      rw [ih, if_neg hrest, if_neg hne, hcons value hne, List.take_succ_cons]
      simp [spell]
    next hrest =>
      rw [not_not] at hrest
      split
      next hzero => simp [hzero, spell]
      next hne => simp [hcons value hne, hrest, spell]

/-- Digits are read from the left. -/
theorem readDigits_append (base start : ℕ) (text text' : List UInt8) :
    readDigits base start (text ++ text') =
      (readDigits base start text).bind fun n => readDigits base n text' := List.foldlM_append

/-- Reading digits back gives the number that they are the digits of. -/
theorem readDigits_spell {base : ℕ} (hbase : base ≤ 16) (uppercase : Bool) {digits : List ℕ}
    (h : ∀ d ∈ digits, d < base) (start : ℕ) :
    readDigits base start (spell uppercase digits) =
      some (start * base ^ digits.length + Nat.ofDigits base digits) := by
  induction digits generalizing start with
  | nil => simp [spell, readDigits]
  | cons d digits ih =>
    have hd : d < base := h d List.mem_cons_self
    have hvalue : digitValue (digitChar uppercase d) = some d :=
      digitValue_digitChar uppercase (Nat.lt_of_lt_of_le hd hbase)
    have hstep : spell uppercase (d :: digits) = spell uppercase digits ++ [digitChar uppercase d] := by
      simp [spell]
    rw [hstep, readDigits_append, ih fun d hmem => h d (List.mem_cons_of_mem _ hmem), Option.bind_some,
      Nat.ofDigits_cons, List.length_cons]
    simp only [readDigits, List.foldlM_cons, List.foldlM_nil, hvalue, Option.filter_some, hd,
      decide_true, if_true, Option.map_some, bind_pure, Option.some.injEq, pow_succ]
    ring

/-- Zeros in front of a number are digits that come last. -/
theorem replicate_append_spell (uppercase : Bool) (n : ℕ) (digits : List ℕ) :
    List.replicate n ('0' : UInt8) ++ spell uppercase digits =
      spell uppercase (digits ++ List.replicate n 0) := by
  rw [spell, spell, List.map_append, List.reverse_append, List.map_replicate, List.reverse_replicate]
  rfl

/-- Taking characters out of the buffer takes the most significant digits away. -/
theorem drop_spell (uppercase : Bool) (k : ℕ) (digits : List ℕ) :
    (spell uppercase digits).drop k = spell uppercase (digits.take (digits.length - k)) := by
  rw [spell, List.drop_reverse, List.length_map, spell, List.map_take]

/-- One character for each digit. -/
@[simp] theorem length_spell (uppercase : Bool) (digits : List ℕ) :
    (spell uppercase digits).length = digits.length := by
  rw [spell, List.length_reverse, List.length_map]

/-- Spaces around a text without spaces go away. -/
theorem trim_padded {text : List UInt8} (h : ∀ c ∈ text, isSpace c = false) (before behind : ℕ) :
    trim (List.replicate before (' ' : UInt8) ++ (text ++ List.replicate behind (' ' : UInt8))) = text := by
  have hspaces (n : ℕ) : ∀ c ∈ List.replicate n (' ' : UInt8), isSpace c = true := by
    intro c hc
    rw [(List.mem_replicate.mp hc).2]
    rfl
  have hstop (t rest : List UInt8) (ht : ∀ c ∈ t, isSpace c = false) (hne : t ≠ []) :
      (t ++ rest).dropWhile isSpace = t ++ rest := by
    cases t with
    | nil => exact absurd rfl hne
    | cons c t => rw [List.cons_append, List.dropWhile_cons_of_neg (by simp [ht c List.mem_cons_self])]
  rw [trim, List.dropWhile_append_of_pos (hspaces before)]
  obtain rfl | hne := eq_or_ne text []
  · have hall : (List.replicate behind (' ' : UInt8)).dropWhile isSpace = [] := by
      rw [← List.append_nil (List.replicate behind (' ' : UInt8)),
        List.dropWhile_append_of_pos (hspaces behind), List.dropWhile_nil]
    rw [List.nil_append, hall]
    rfl
  · rw [hstop text _ h hne, List.reverse_append, List.reverse_replicate,
      List.dropWhile_append_of_pos (hspaces behind)]
    have hrev := hstop text.reverse [] (fun c hc => h c (List.mem_reverse.mp hc))
      (List.reverse_ne_nil_iff.mpr hne)
    rw [List.append_nil] at hrev
    rw [hrev, List.reverse_reverse]

/-- The prefixes of a base that are skipped. -/
def IsPrefix (base : ℕ) (pre : List UInt8) : Prop :=
  pre = [] ∨ base = 16 ∧ (pre = bytes ['0', 'x'] ∨ pre = bytes ['0', 'X']) ∨
    base = 2 ∧ pre = bytes ['0', 'b']

/-- The signs, and whether they are a minus. -/
def IsSign (sign : List UInt8) (negative : Bool) : Prop :=
  sign = [] ∧ negative = false ∨ sign = bytes ['-'] ∧ negative = true ∨
    sign = bytes ['+'] ∧ negative = false

/-- A sign is no space. -/
theorem IsSign.not_space {sign : List UInt8} {negative : Bool} (h : IsSign sign negative) :
    ∀ c ∈ sign, isSpace c = false := by
  obtain ⟨rfl, -⟩ | ⟨rfl, -⟩ | ⟨rfl, -⟩ := h
  · exact fun _ hc => absurd hc List.not_mem_nil
  · exact List.forall_mem_singleton.mpr rfl
  · exact List.forall_mem_singleton.mpr rfl

/-- The characters of a prefix are neither spaces nor signs. -/
theorem IsPrefix.plain {base : ℕ} {pre : List UInt8} (h : IsPrefix base pre) :
    ∀ c ∈ pre, isSpace c = false ∧ c ≠ '-' ∧ c ≠ '+' := by
  obtain rfl | ⟨-, rfl | rfl⟩ | ⟨-, rfl⟩ := h
  · exact fun _ hc => absurd hc List.not_mem_nil
  all_goals exact List.forall_mem_cons.mpr ⟨by decide, List.forall_mem_singleton.mpr (by decide)⟩

/-- A minus sign in front of a text. -/
theorem bytes_minus_append (text : List UInt8) : bytes ['-'] ++ text = ('-' : UInt8) :: text := rfl

/-- A plus sign in front of a text. -/
theorem bytes_plus_append (text : List UInt8) : bytes ['+'] ++ text = ('+' : UInt8) :: text := rfl

/-- The characters that no number of the base starts with. -/
def NoStart (base : ℕ) (c : UInt8) : Prop :=
  isSpace c = false ∧ c ≠ '-' ∧ c ≠ '+' ∧ c ≠ '0' ∧ (digitValue c).filter (· < base) = none

instance (base : ℕ) (c : UInt8) : Decidable (NoStart base c) :=
  inferInstanceAs (Decidable (isSpace c = false ∧ c ≠ '-' ∧ c ≠ '+' ∧ c ≠ '0' ∧
    (digitValue c).filter (· < base) = none))

section Reading

variable {base : ℕ} {uppercase negative : Bool} {digits : List ℕ} {sign pre : List UInt8}

/-- The characters of digits are digits. -/
theorem digitValue_of_mem_spell (hbase : base ≤ 16) (h : ∀ d ∈ digits, d < base) {c : UInt8}
    (hc : c ∈ spell uppercase digits) : ∃ d < base, digitValue c = some d := by
  rw [spell, List.mem_reverse, List.mem_map] at hc
  obtain ⟨d, hd, rfl⟩ := hc
  exact ⟨d, h d hd, digitValue_digitChar uppercase (Nat.lt_of_lt_of_le (h d hd) hbase)⟩

/-- The digits behind a prefix, or without one. -/
theorem behindPrefix_append (hpre : IsPrefix base pre) (hbase : base ≤ 16) (h : ∀ d ∈ digits, d < base) :
    behindPrefix base (pre ++ spell uppercase digits) = spell uppercase digits := by
  obtain rfl | ⟨rfl, rfl | rfl⟩ | ⟨rfl, rfl⟩ := hpre
  · -- without a prefix the second character is a digit of the base
    have hsecond (c c' : UInt8) (htwo : (spell uppercase digits).take 2 = [c, c']) :
        ∃ d < base, digitValue c' = some d :=
      digitValue_of_mem_spell hbase h (List.mem_of_mem_take (htwo ▸ List.mem_cons_of_mem _ List.mem_cons_self))
    rw [List.nil_append, behindPrefix, if_neg, if_neg]
    · rintro ⟨rfl, htwo⟩
      obtain ⟨d, hd, hvalue⟩ := hsecond _ _ htwo
      have helev : digitValue 'b' = some 11 := by decide
      have : d = 11 := Option.some.inj (hvalue.symm.trans helev)
      omega
    · rintro ⟨-, htwo | htwo⟩
      · obtain ⟨d, -, hvalue⟩ := hsecond _ _ htwo
        exact (Option.some_ne_none d (hvalue.symm.trans (by decide))).elim
      · obtain ⟨d, -, hvalue⟩ := hsecond _ _ htwo
        exact (Option.some_ne_none d (hvalue.symm.trans (by decide))).elim
  · rfl
  · rfl
  · rfl

/-- A sign, a prefix of the base and digits are read as the sign and the number, whatever spaces are around
them. -/
theorem readNumber_eq (hsign : IsSign sign negative) (hpre : IsPrefix base pre) (hbase : base ≤ 16)
    (h : ∀ d ∈ digits, d < base) (before behind : ℕ) :
    readNumber base (List.replicate before (' ' : UInt8) ++
        (sign ++ (pre ++ spell uppercase digits) ++ List.replicate behind (' ' : UInt8))) =
      some (withSign negative (Nat.ofDigits base digits)) := by
  have hread : readDigits base 0 (behindPrefix base (pre ++ spell uppercase digits)) =
      some (Nat.ofDigits base digits) := by
    rw [behindPrefix_append hpre hbase h, readDigits_spell hbase uppercase h, Nat.zero_mul, Nat.zero_add]
  have hplain : ∀ c ∈ pre ++ spell uppercase digits, isSpace c = false ∧ c ≠ '-' ∧ c ≠ '+' := by
    intro c hc
    rw [List.mem_append] at hc
    obtain hc | hc := hc
    · exact hpre.plain c hc
    · obtain ⟨d, -, hvalue⟩ := digitValue_of_mem_spell hbase h hc
      refine ⟨Bool.eq_false_iff.mpr fun hsp => ?_, ?_, ?_⟩
      · rw [isSpace, decide_eq_true_iff] at hsp
        exact (Option.some_ne_none d ((hsp ▸ hvalue).symm.trans (by decide))).elim
      · rintro rfl
        exact (Option.some_ne_none d (hvalue.symm.trans (by decide))).elim
      · rintro rfl
        exact (Option.some_ne_none d (hvalue.symm.trans (by decide))).elim
  have hspaces : ∀ c ∈ sign ++ (pre ++ spell uppercase digits), isSpace c = false := by
    intro c hc
    rw [List.mem_append] at hc
    obtain hc | hc := hc
    · exact hsign.not_space c hc
    · exact (hplain c hc).1
  rw [readNumber, trim_padded hspaces]
  obtain ⟨rfl, rfl⟩ | ⟨rfl, rfl⟩ | ⟨rfl, rfl⟩ := hsign
  · rw [List.nil_append]
    generalize hcore : pre ++ spell uppercase digits = core at hread hplain
    cases core with
    | nil =>
      have hzero : Nat.ofDigits base digits = 0 := by
        rw [behindPrefix] at hread
        simpa [readDigits] using hread.symm
      rw [hzero]
      rfl
    | cons c rest =>
      obtain ⟨-, hminus, hplus⟩ := hplain c List.mem_cons_self
      dsimp only
      rw [if_neg hminus, if_neg hplus, hread]
      rfl
  · rw [bytes_minus_append]
    dsimp only
    rw [if_pos rfl, hread]
    rfl
  · rw [bytes_plus_append]
    dsimp only
    rw [if_neg (by decide), if_pos rfl, hread]
    rfl

/-- A text with such a character in front says nothing. -/
theorem readNumber_eq_none {c : UInt8} (hc : NoStart base c) (hsign : IsSign sign negative)
    (hbase : base ≤ 16) (h : ∀ d ∈ digits, d < base) (before behind : ℕ) :
    readNumber base (List.replicate before (' ' : UInt8) ++
      (sign ++ (c :: spell uppercase digits) ++ List.replicate behind (' ' : UInt8))) = none := by
  obtain ⟨hspace, hminus, hplus, hzero, hc⟩ := hc
  have hspaces : ∀ c' ∈ sign ++ (c :: spell uppercase digits), isSpace c' = false := by
    intro c' hc'
    obtain hmem | hmem := List.mem_append.mp hc'
    · exact hsign.not_space c' hmem
    · obtain rfl | hmem := List.mem_cons.mp hmem
      · exact hspace
      · obtain ⟨d, -, hvalue⟩ := digitValue_of_mem_spell hbase h hmem
        refine Bool.eq_false_iff.mpr fun hsp => ?_
        rw [isSpace, decide_eq_true_iff] at hsp
        exact (Option.some_ne_none d ((hsp ▸ hvalue).symm.trans (by decide))).elim
  have hbehind : behindPrefix base (c :: spell uppercase digits) = c :: spell uppercase digits := by
    rw [behindPrefix, if_neg, if_neg]
    · rintro ⟨-, htwo⟩
      exact hzero (List.cons.inj htwo).1
    · rintro ⟨-, htwo | htwo⟩ <;> exact hzero (List.cons.inj htwo).1
  have hread : readDigits base 0 (behindPrefix base (c :: spell uppercase digits)) = none := by
    rw [hbehind, readDigits, List.foldlM_cons, hc]
    rfl
  rw [readNumber, trim_padded hspaces]
  obtain ⟨rfl, -⟩ | ⟨rfl, -⟩ | ⟨rfl, -⟩ := hsign
  · rw [List.nil_append]
    dsimp only
    rw [if_neg hminus, if_neg hplus, hread]
    rfl
  · rw [bytes_minus_append]
    dsimp only
    rw [if_pos rfl, hread]
    rfl
  · rw [bytes_plus_append]
    dsimp only
    rw [if_neg (by decide), if_pos rfl, hread]
    rfl

end Reading

/-! ## What is printed -/

section Printing

variable {base prec width : ℕ} {uppercase : Bool} {flags : Flags} {digits : List ℕ}

/-- The zeros in front of the digits. -/
theorem padNumber_spell (hlen : digits.length ≤ ntoaBufferSize) :
    padNumber prec width flags (spell uppercase digits) =
      spell uppercase
        (digits ++ List.replicate (paddedLength digits.length prec width flags - digits.length) 0) := by
  rw [padNumber, paddedLength]
  cases hleft : flags.left with
  | true => simp
  | false =>
    cases hzero : flags.zeropad with
    | false =>
      simp only [Bool.false_eq_true, if_false, padZeros, replicate_append_spell, length_spell,
        Nat.max_zero]
      congr 3
      omega
    | true =>
      simp only [Bool.false_eq_true, if_false, if_true, padZeros, replicate_append_spell, length_spell,
        List.length_append, List.length_replicate, List.append_assoc, List.replicate_append_replicate]
      congr 3
      omega

/-- A prefix in front of digits. -/
theorem push_spell (c : UInt8) (hlen : digits.length < ntoaBufferSize) :
    push c (spell uppercase digits) = c :: spell uppercase digits := by
  rw [push, length_spell, if_pos hlen]

/-- The digits that are left in the buffer for a prefix. -/
def keptDigits (base width : ℕ) (flags : Flags) (digits : List ℕ) : List ℕ :=
  digits.take (digits.length - strippedCount base digits.length width flags)

/-- Room for the prefix is made by taking digits out. -/
theorem strip_spell (hprec : flags.precision = false → prec = 0) (hne : digits ≠ []) :
    (if !flags.precision && (spell uppercase digits).length ≠ 0 &&
        ((spell uppercase digits).length = prec || (spell uppercase digits).length = width) then
      if (spell uppercase digits).tail.length ≠ 0 && base = 16 then (spell uppercase digits).tail.tail
      else (spell uppercase digits).tail
    else spell uppercase digits) = spell uppercase (keptDigits base width flags digits) := by
  have hpos : digits.length ≠ 0 := fun h => hne (List.length_eq_zero_iff.mp h)
  rw [keptDigits, ← drop_spell, strippedCount, length_spell]
  cases hflag : flags.precision with
  | true => simp
  | false =>
    by_cases hwidth : digits.length = width
    · by_cases hsixteen : base = 16
      · by_cases hone : digits.length - 1 = 0
        · have hnil (n : ℕ) : (spell uppercase digits).drop (n + 1) = [] := by
            rw [List.drop_eq_nil_iff, length_spell]
            omega
          have htail : (spell uppercase digits).tail = [] := by rw [← List.drop_one, hnil]
          simp [← hwidth, hsixteen, hpos, hnil, htail]
        · have htail : (spell uppercase digits).tail.tail = (spell uppercase digits).drop 2 := by
            rw [← List.drop_one, ← List.drop_one, List.drop_drop]
          simp [← hwidth, hsixteen, hpos, hone, htail]
      · simp [← hwidth, hsixteen, hpos]
    · have hzero : digits.length ≠ prec := by rw [hprec hflag]; exact hpos
      simp [hwidth, hzero]

/-- A prefix of two characters is whole, or left out, unless there is room for one character. -/
theorem push_push_spell (c : UInt8) (hlen : digits.length ≤ ntoaBufferSize) :
    (digits.length ≠ 31 ∧ ∃ pre, (pre = [] ∨ pre = [('0' : UInt8), c]) ∧
      push '0' (push c (spell uppercase digits)) = pre ++ spell uppercase digits) ∨
    (digits.length = 31 ∧ push '0' (push c (spell uppercase digits)) = c :: spell uppercase digits) := by
  have hlt_iff : digits.length < ntoaBufferSize ↔ digits.length ≠ 32 := by
    rw [ntoaBufferSize] at hlen ⊢
    omega
  have hlt_iff' : digits.length + 1 < ntoaBufferSize ↔ digits.length ≠ 31 ∧ digits.length ≠ 32 := by
    rw [ntoaBufferSize] at hlen ⊢
    omega
  by_cases hfull : digits.length = 32
  · refine Or.inl ⟨by omega, [], Or.inl rfl, ?_⟩
    have hpush (c : UInt8) : push c (spell uppercase digits) = spell uppercase digits := by
      rw [push, length_spell, if_neg (by rw [hlt_iff]; exact not_not_intro hfull)]
    rw [hpush, hpush, List.nil_append]
  · have hpush : push c (spell uppercase digits) = c :: spell uppercase digits :=
      push_spell c (hlt_iff.mpr hfull)
    rw [hpush, push, List.length_cons, length_spell]
    by_cases hroom : digits.length = 31
    · exact Or.inr ⟨hroom, if_neg fun h => (hlt_iff'.mp h).1 hroom⟩
    · exact Or.inl ⟨hroom, _, Or.inr rfl, if_pos (hlt_iff'.mpr ⟨hroom, hfull⟩)⟩

/-- A text for digits behind a prefix: of digits of the same value, or, if the prefix ends in the middle,
with a character in front that no number starts with. -/
def IsPrefixed (base : ℕ) (uppercase : Bool) (kept : List ℕ) (text : List UInt8) : Prop :=
  ((base = 2 ∨ base = 16 → kept.length ≠ 31) ∧
    ∃ pre digits, IsPrefix base pre ∧ (∀ d ∈ digits, d < base) ∧
      Nat.ofDigits base digits = Nat.ofDigits base kept ∧ text = pre ++ spell uppercase digits) ∨
  ((base = 2 ∨ base = 16) ∧ kept.length = 31 ∧ ∃ c, NoStart base c ∧ text = c :: spell uppercase kept)

/-- A prefix of two characters. -/
theorem push_push_isPrefixed (c : UInt8) (hpre : IsPrefix base [('0' : UInt8), c])
    (hbase : base = 2 ∨ base = 16) (hc : NoStart base c) (hlen : digits.length ≤ ntoaBufferSize)
    (hdigits : ∀ d ∈ digits, d < base) :
    IsPrefixed base uppercase digits (push '0' (push c (spell uppercase digits))) := by
  obtain ⟨hne, pre, hcases, heq⟩ | ⟨hmiddle, heq⟩ := @push_push_spell uppercase digits c hlen
  · refine Or.inl ⟨fun _ => hne, pre, digits, ?_, hdigits, rfl, heq⟩
    obtain rfl | rfl := hcases
    · exact Or.inl rfl
    · exact hpre
  · exact Or.inr ⟨hbase, hmiddle, c, hc, heq⟩

/-- What the branch for `#` leaves. -/
theorem handleHash_isPrefixed (hbase : base = 2 ∨ base = 8 ∨ base = 10 ∨ base = 16)
    (hhash : flags.hash = true) (hprec : flags.precision = false → prec = 0) (hne : digits ≠ [])
    (hlen : digits.length ≤ ntoaBufferSize) (hdigits : ∀ d ∈ digits, d < base) :
    IsPrefixed base uppercase (keptDigits base width flags digits)
      (handleHash base prec width flags (spell uppercase digits)) := by
  have hkept : (keptDigits base width flags digits).length ≤ ntoaBufferSize :=
    Nat.le_trans (by rw [keptDigits, List.length_take]; exact Nat.min_le_right _ _) hlen
  have hsub : ∀ d ∈ keptDigits base width flags digits, d < base := fun d hd =>
    hdigits d (List.mem_of_mem_take hd)
  rw [handleHash, if_pos hhash]
  simp only [strip_spell hprec hne]
  generalize keptDigits base width flags digits = kept at hkept hsub
  have hzero (hother : ¬ (base = 2 ∨ base = 16)) (hpos : 0 < base) :
      IsPrefixed base uppercase kept (push '0' (spell uppercase kept)) := by
    refine Or.inl ⟨fun h => absurd h hother, [], ?_⟩
    rw [push]
    split
    next =>
      refine ⟨kept ++ [0], Or.inl rfl, ?_, Nat.ofDigits_append_zero kept,
        replicate_append_spell uppercase 1 kept⟩
      intro d hd
      obtain hd | hd := List.mem_append.mp hd
      · exact hsub d hd
      · rwa [List.mem_singleton.mp hd]
    next => exact ⟨kept, Or.inl rfl, hsub, rfl, rfl⟩
  obtain rfl | rfl | rfl | rfl := hbase
  · exact push_push_isPrefixed 'b' (Or.inr (Or.inr ⟨rfl, rfl⟩)) (Or.inl rfl) (by decide) hkept hsub
  · exact hzero (by decide) (by decide)
  · exact hzero (by decide) (by decide)
  · simp only [if_true]
    cases flags.uppercase with
    | false => exact push_push_isPrefixed 'x' (Or.inr (Or.inl ⟨rfl, Or.inl rfl⟩)) (Or.inr rfl) (by decide) hkept hsub
    | true => exact push_push_isPrefixed 'X' (Or.inr (Or.inl ⟨rfl, Or.inr rfl⟩)) (Or.inr rfl) (by decide) hkept hsub

/-- Padding puts spaces around a text. -/
theorem padText_eq (width : ℕ) (left zeropad : Bool) (len : ℕ) (text : List UInt8) :
    ∃ before behind, padText width left zeropad len text =
      List.replicate before (' ' : UInt8) ++ (text ++ List.replicate behind (' ' : UInt8)) := by
  cases left with
  | true => exact ⟨0, width - len, rfl⟩
  | false =>
    cases zeropad with
    | true => exact ⟨0, 0, (List.append_nil text).symm⟩
    | false => exact ⟨width - len, 0, by rw [List.replicate_zero, List.append_nil]; rfl⟩

/-- A sign is put in front if there is room; a space for one is a space. -/
theorem pushSign_eq (negative : Bool) (flags : Flags) (text : List UInt8) :
    ∃ n sign, IsSign sign (negative && text.length < ntoaBufferSize) ∧
      pushSign negative flags text = List.replicate n (' ' : UInt8) ++ (sign ++ text) := by
  rw [pushSign]
  by_cases hroom : text.length < ntoaBufferSize
  · have hpush (c : UInt8) : push c text = c :: text := if_pos hroom
    simp only [hpush, hroom, decide_true, Bool.and_true]
    cases negative with
    | true => exact ⟨0, bytes ['-'], Or.inr (Or.inl ⟨rfl, rfl⟩), rfl⟩
    | false =>
      cases flags.plus with
      | true => exact ⟨0, bytes ['+'], Or.inr (Or.inr ⟨rfl, rfl⟩), rfl⟩
      | false =>
        cases flags.space with
        | true => exact ⟨1, [], Or.inl ⟨rfl, rfl⟩, rfl⟩
        | false => exact ⟨0, [], Or.inl ⟨rfl, rfl⟩, rfl⟩
  · have hpush (c : UInt8) : push c text = text := if_neg hroom
    refine ⟨0, [], Or.inl ⟨rfl, by simp [hroom]⟩, ?_⟩
    simp [hpush]

/-- A text with its sign and the spaces around it. -/
theorem padText_pushSign (width : ℕ) (left zeropad negative : Bool) (flags : Flags) (len : ℕ)
    (text : List UInt8) :
    ∃ before behind sign, IsSign sign (negative && text.length < ntoaBufferSize) ∧
      padText width left zeropad len (pushSign negative flags text) =
        List.replicate before (' ' : UInt8) ++ (sign ++ text ++ List.replicate behind (' ' : UInt8)) := by
  obtain ⟨n, sign, hsign, heq⟩ := pushSign_eq negative flags text
  obtain ⟨before, behind, hpad⟩ := padText_eq width left zeropad len (pushSign negative flags text)
  refine ⟨before + n, behind, sign, hsign, ?_⟩
  rw [hpad, heq, ← List.replicate_append_replicate]
  simp only [List.append_assoc]

end Printing

/-! ## Reading what is printed -/

section Fits

variable {value base prec width : ℕ} {negative : Bool} {flags : Flags}

/-- The digits fill the buffer at most. -/
theorem length_convertedDigits_le : (convertedDigits value base flags).length ≤ ntoaBufferSize := by
  rw [convertedDigits]
  split
  · split <;> decide
  · rw [List.length_take]
    exact Nat.min_le_left _ _

/-- The converted digits are the last ones of the value. -/
theorem ofDigits_take_convertedDigits (hbase : 1 < base) (hvalue : value ≠ 0) (m : ℕ) :
    Nat.ofDigits base ((convertedDigits value base flags).take m) =
      value % base ^ min m ntoaBufferSize := by
  rw [convertedDigits, if_neg hvalue, List.take_take, Nat.self_mod_pow_eq_ofDigits_take _ _ hbase]

/-- They spell the value, as far as the buffer goes. -/
theorem ofDigits_convertedDigits (hbase : 1 < base) :
    Nat.ofDigits base (convertedDigits value base flags) = value % base ^ ntoaBufferSize := by
  by_cases hvalue : value = 0
  · rw [convertedDigits, if_pos hvalue, hvalue, Nat.zero_mod]
    split <;> rfl
  · rw [convertedDigits, if_neg hvalue, Nat.self_mod_pow_eq_ofDigits_take _ _ hbase]

/-- They are digits of the base. -/
theorem convertedDigits_lt (hbase : 1 < base) : ∀ d ∈ convertedDigits value base flags, d < base := by
  intro d hd
  rw [convertedDigits] at hd
  split at hd
  · split at hd
    · cases hd
    · rw [List.mem_singleton.mp hd]
      omega
  · exact Nat.digits_lt_base hbase (List.mem_of_mem_take hd)

/-- All digits are converted if the value has at most 32. -/
theorem length_convertedDigits (hbase : 1 < base) (hfits : value < base ^ ntoaBufferSize) :
    (convertedDigits value base flags).length = digitCount value base flags := by
  rw [convertedDigits, digitCount]
  split
  · split <;> rfl
  · rw [List.length_take]
    exact Nat.min_eq_right ((Nat.digits_length_le_iff hbase value).mpr hfits)

/-- A number that is not zero has a digit. -/
theorem convertedDigits_ne_nil (hvalue : value ≠ 0) : convertedDigits value base flags ≠ [] := by
  have hne : Nat.digits base value ≠ [] := Nat.digits_ne_nil_iff_ne_zero.mpr hvalue
  rw [convertedDigits, if_neg hvalue]
  exact fun hnil => hne ((List.take_eq_nil_iff.mp hnil).resolve_left (by decide))

/-- The digits of a number with the zeros in front of them. -/
def paddedDigits (value base prec width : ℕ) (flags : Flags) : List ℕ :=
  let digits := convertedDigits value base flags
  digits ++ List.replicate (paddedLength digits.length prec width flags - digits.length) 0

/-- The number of digits behind padding with zeros. -/
theorem length_paddedDigits :
    (paddedDigits value base prec width flags).length =
      paddedLength (convertedDigits value base flags).length prec width flags := by
  have hle : (convertedDigits value base flags).length ≤
      paddedLength (convertedDigits value base flags).length prec width flags := by
    rw [paddedLength]
    split
    · exact le_rfl
    · exact Nat.le_trans (Nat.le_max_left _ _) (Nat.le_max_left _ _)
  rw [paddedDigits, List.length_append, List.length_replicate, Nat.add_sub_cancel' hle]

/-- The padding fills the buffer at most. -/
theorem length_paddedDigits_le : (paddedDigits value base prec width flags).length ≤ ntoaBufferSize := by
  have hle : (convertedDigits value base flags).length ≤ ntoaBufferSize := length_convertedDigits_le
  rw [length_paddedDigits, paddedLength]
  split
  · exact hle
  · refine Nat.max_le.mpr ⟨Nat.max_le.mpr ⟨hle, Nat.min_le_right _ _⟩, ?_⟩
    split
    · exact Nat.min_le_right _ _
    · exact Nat.zero_le _

/-- Zeros are digits of the base. -/
theorem paddedDigits_lt (hbase : 1 < base) : ∀ d ∈ paddedDigits value base prec width flags, d < base := by
  intro d hd
  obtain hd | hd := List.mem_append.mp hd
  · exact convertedDigits_lt hbase d hd
  · rw [(List.mem_replicate.mp hd).2]
    omega

/-- The first digits of a padded number are those of the value. -/
theorem ofDigits_take_paddedDigits (hbase : 1 < base) (hvalue : value ≠ 0) (m : ℕ) :
    Nat.ofDigits base ((paddedDigits value base prec width flags).take m) =
      value % base ^ min m ntoaBufferSize := by
  rw [paddedDigits, List.take_append, List.take_replicate, Nat.ofDigits_append_replicate_zero,
    ofDigits_take_convertedDigits hbase hvalue]

/-- Leading zeros do not change the value. -/
theorem ofDigits_paddedDigits (hbase : 1 < base) :
    Nat.ofDigits base (paddedDigits value base prec width flags) = value % base ^ ntoaBufferSize := by
  rw [paddedDigits, Nat.ofDigits_append_replicate_zero, ofDigits_convertedDigits hbase]

/-- The buffer of `_ntoa_long` holds the digits with zeros, behind a prefix unless the value is zero, and a
sign. -/
theorem ntoaBuf_eq (hbase : 1 < base) :
    ntoaBuf value negative base prec width flags =
      pushSign negative flags (if value = 0 then
          spell flags.uppercase (paddedDigits value base prec width flags)
        else handleHash base prec width flags
          (spell flags.uppercase (paddedDigits value base prec width flags))) := by
  have hbuf (flags : Flags) :
      (if !flags.precision || value ≠ 0 then digitsLoop base flags.uppercase ntoaBufferSize value []
        else []) = spell flags.uppercase (convertedDigits value base flags) := by
    by_cases hvalue : value = 0
    · cases hflag : flags.precision with
      | true => simp [convertedDigits, hvalue, hflag, spell]
      | false =>
        rw [ntoaBufferSize, digitsLoop_eq hbase]
        simp [convertedDigits, hvalue, hflag]
    · rw [ntoaBufferSize, digitsLoop_eq hbase]
      simp [convertedDigits, hvalue, ntoaBufferSize]
  rw [ntoaBuf]
  simp only [hbuf, padNumber_spell length_convertedDigits_le]
  split
  · rfl
  · rfl

/-- The number that is printed with `#` is read back if no digit makes room for the prefix. -/
theorem take_paddedDigits_iff (hbase : 1 < base) (hvalue : value ≠ 0) (stripped : ℕ) :
    Nat.ofDigits base ((paddedDigits value base prec width flags).take
        ((paddedDigits value base prec width flags).length - stripped)) = value ↔
      value < base ^ ntoaBufferSize ∧
        digitCount value base flags + stripped ≤ paddedLength (digitCount value base flags) prec width flags := by
  have hcount : digitCount value base flags = (Nat.digits base value).length := if_neg hvalue
  have hpos : 0 < (Nat.digits base value).length :=
    List.length_pos_iff.mpr (Nat.digits_ne_nil_iff_ne_zero.mpr hvalue)
  rw [ofDigits_take_paddedDigits hbase hvalue,
    Nat.mod_eq_iff_lt (Nat.pow_pos (Nat.zero_lt_of_lt hbase)).ne', ← Nat.digits_length_le_iff hbase,
    ← Nat.digits_length_le_iff hbase, Nat.le_min, and_comm]
  refine and_congr_right fun hfits => ?_
  rw [length_paddedDigits, length_convertedDigits hbase ((Nat.digits_length_le_iff hbase value).mp hfits)]
  omega

/-- A number is the same behind a sign that may be missing if the sign is there. -/
theorem withSign_and_eq_iff {n m : ℕ} {room : Bool} (hne : negative = true → m ≠ 0) :
    withSign (negative && room) n = withSign negative m ↔ n = m ∧ (negative = true → room = true) := by
  cases negative with
  | false => simp [withSign]
  | true =>
    have hpos := hne rfl
    cases room with
    | true => simp [withSign]
    | false =>
      simp only [withSign, Bool.and_false, Bool.false_eq_true, if_false, if_true, forall_const, and_false,
        iff_false]
      omega

/-- Digits with a sign are read back, the sign if there was room for it. -/
theorem readNumber_plain (hbase : base ≤ 16) {uppercase : Bool} {digits : List ℕ}
    (h : ∀ d ∈ digits, d < base) (left zeropad : Bool) (len : ℕ) :
    readNumber base (padText width left zeropad len (pushSign negative flags (spell uppercase digits))) =
      some (withSign (negative && digits.length < ntoaBufferSize) (Nat.ofDigits base digits)) := by
  obtain ⟨before, behind, sign, hsign, heq⟩ :=
    padText_pushSign width left zeropad negative flags len (spell uppercase digits)
  rw [length_spell] at hsign
  rw [heq]
  exact readNumber_eq hsign (Or.inl rfl) hbase h before behind

/-- Digits behind a prefix are read back unless the prefix ends in the middle. -/
theorem readNumber_prefixed (hbase : base ≤ 16) {uppercase : Bool} {kept : List ℕ} {text : List UInt8}
    (h : ∀ d ∈ kept, d < base) (htext : IsPrefixed base uppercase kept text) (left zeropad : Bool) (len : ℕ) :
    readNumber base (padText width left zeropad len (pushSign false flags text)) =
      if (base = 2 ∨ base = 16) ∧ kept.length = 31 then none
      else some (withSign false (Nat.ofDigits base kept)) := by
  obtain ⟨before, behind, sign, hsign, heq⟩ := padText_pushSign width left zeropad false flags len text
  rw [Bool.false_and] at hsign
  rw [heq]
  obtain ⟨hne, pre, digits, hpre, hdigits, hvalue, rfl⟩ | ⟨hbases, hmiddle, c, hc, rfl⟩ := htext
  · rw [if_neg fun hbad => hne hbad.1 hbad.2, readNumber_eq hsign hpre hbase hdigits, hvalue]
  · rw [if_pos ⟨hbases, hmiddle⟩]
    exact readNumber_eq_none hc hsign hbase h before behind

/-- A printed number is read back as it is if and only if the buffer is large enough for it. -/
theorem ntoaText_fits_iff (hwf : (Conversion.number value negative base prec width flags).WellFormed) :
    readNumber base (ntoaText value negative base prec width flags) =
        some (withSign negative value) ↔
      NumberFits value negative base prec width flags := by
  obtain ⟨-, hbase, hsigned, -, hprec⟩ := hwf
  have hone : 1 < base := by omega
  have hsixteen : base ≤ 16 := by omega
  rw [ntoaText, ntoaBuf_eq hone, NumberFits]
  generalize digitsWidth negative width flags = width
  have hlt : ∀ d ∈ paddedDigits value base prec width flags, d < base := paddedDigits_lt hone
  have hlen (hfits : value < base ^ ntoaBufferSize) :
      (paddedDigits value base prec width flags).length =
        paddedLength (digitCount value base flags) prec width flags := by
    rw [length_paddedDigits, length_convertedDigits hone hfits]
  by_cases hhash : flags.hash = true ∧ value ≠ 0
  · obtain ⟨hhash, hvalue⟩ := hhash
    have hneg : negative = false := by
      by_contra hne
      exact absurd (hsigned (Bool.eq_true_of_not_eq_false hne)).1 (by simp [hhash])
    have hne : paddedDigits value base prec width flags ≠ [] := fun hnil =>
      convertedDigits_ne_nil hvalue (List.append_eq_nil_iff.mp hnil).1
    rw [if_neg hvalue, hneg, readNumber_prefixed hsixteen (fun d hd => hlt d (List.mem_of_mem_take hd))
      (handleHash_isPrefixed hbase hhash hprec hne length_paddedDigits_le hlt),
      List.length_take, Nat.min_eq_left (Nat.sub_le _ _)]
    have htake := @take_paddedDigits_iff value base prec width flags hone hvalue
      (strippedCount base (paddedDigits value base prec width flags).length width flags)
    constructor
    · intro hread
      split at hread
      next => cases hread
      next hwhole =>
        obtain ⟨hfits, hle⟩ := htake.mp (Int.ofNat.inj (Option.some.inj hread))
        rw [hlen hfits] at hle hwhole
        refine ⟨hfits, fun h => absurd h (by decide), fun _ _ => ⟨hle, fun hbases heq => ?_⟩⟩
        exact hwhole ⟨hbases, by omega⟩
    · rintro ⟨hfits, -, hroom⟩
      obtain ⟨hle, hwhole⟩ := hroom hhash hvalue
      rw [hlen hfits] at htake ⊢
      rw [if_neg]
      · rw [htake.mpr ⟨hfits, hle⟩]
      · rintro ⟨hbases, hmiddle⟩
        exact hwhole hbases (by omega)
  · have hplain : (if value = 0 then spell flags.uppercase (paddedDigits value base prec width flags)
        else handleHash base prec width flags
          (spell flags.uppercase (paddedDigits value base prec width flags))) =
        spell flags.uppercase (paddedDigits value base prec width flags) := by
      split
      next => rfl
      next hvalue => rw [handleHash, if_neg fun h => hhash ⟨h, hvalue⟩]
    rw [hplain, readNumber_plain hsixteen hlt, ofDigits_paddedDigits hone, Option.some.injEq,
      withSign_and_eq_iff fun hneg => (hsigned hneg).2,
      Nat.mod_eq_iff_lt (Nat.pow_pos (Nat.zero_lt_of_lt hone)).ne']
    refine and_congr_right fun hfits => ?_
    rw [hlen hfits, and_iff_left fun h hvalue => absurd ⟨h, hvalue⟩ hhash, decide_eq_true_iff]

end Fits

end Flos.Kprintf
