import FaiVerif.Syntax.Literal

/-!
# The texts of literals

A grammar of literals, apart from the scanners, with what each text of it denotes. The decoders
read each text as that.
-/

namespace Fai.Syntax

/-- Digits in a radix, with separators among them. -/
inductive DigitsText (radix : Nat) : List Char → List Nat → Prop where
  | nil : DigitsText radix [] []
  | separator {text : List Char} {digits : List Nat} (more : DigitsText radix text digits) :
      DigitsText radix ('_' :: text) digits
  | digit {c : Char} {d : Nat} {text : List Char} {digits : List Nat}
      (first : toDigit radix c = some d) (more : DigitsText radix text digits) :
      DigitsText radix (c :: text) (d :: digits)

/-- The radix that a letter after a zero stands for. -/
inductive RadixLetter : Char → Nat → Prop where
  | hexadecimal (c : Char) (letter : c = 'x' ∨ c = 'X') : RadixLetter c 16
  | octal (c : Char) (letter : c = 'o' ∨ c = 'O') : RadixLetter c 8
  | binary (c : Char) (letter : c = 'b' ∨ c = 'B') : RadixLetter c 2

/-- The texts of integers, with their radix and their digits. -/
inductive IntText : List Char → Nat → List Nat → Prop where
  | decimal {c : Char} {text : List Char} {digits : List Nat} (first : c.isDigit)
      (all : DigitsText 10 (c :: text) digits) : IntText (c :: text) 10 digits
  | based {c : Char} {radix : Nat} {text : List Char} {digits : List Nat}
      (letter : RadixLetter c radix) (all : DigitsText radix text digits)
      (present : digits ≠ []) : IntText ('0' :: c :: text) radix digits

/-- The texts of integers of a magnitude of sixty-four bits, which is read as a signed integer. -/
inductive IntDenotes : List Char → Int64 → Prop where
  | int {text : List Char} {radix : Nat} {digits : List Nat} (shape : IntText text radix digits)
      (small : Radix.value radix digits < 2 ^ 64) :
      IntDenotes text (Int64.ofNat (Radix.value radix digits))

/-- The texts of fractions, with their digits. -/
inductive FractionText : List Char → List Nat → Prop where
  | absent : FractionText [] []
  | present {c : Char} {text : List Char} {digits : List Nat} (first : c.isDigit)
      (all : DigitsText 10 (c :: text) digits) : FractionText ('.' :: c :: text) digits

/-- The texts of exponents, with their values. -/
inductive ExponentText : List Char → ℤ → Prop where
  | absent : ExponentText [] 0
  | unsigned {e c : Char} {text : List Char} {digits : List Nat} (letter : e = 'e' ∨ e = 'E')
      (first : c.isDigit) (all : DigitsText 10 (c :: text) digits) :
      ExponentText (e :: c :: text) (Radix.value 10 digits)
  | positive {e c : Char} {text : List Char} {digits : List Nat} (letter : e = 'e' ∨ e = 'E')
      (first : c.isDigit) (all : DigitsText 10 (c :: text) digits) :
      ExponentText (e :: '+' :: c :: text) (Radix.value 10 digits)
  | negative {e c : Char} {text : List Char} {digits : List Nat} (letter : e = 'e' ∨ e = 'E')
      (first : c.isDigit) (all : DigitsText 10 (c :: text) digits) :
      ExponentText (e :: '-' :: c :: text) (-Radix.value 10 digits)

/-- The texts of floating-point numbers, with the numbers that they say. -/
inductive FloatDenotes : List Char → ℚ → Prop where
  | float {c : Char} {whole fraction power : List Char} {wholes fractions : List Nat} {e : ℤ}
      (first : c.isDigit) (before : DigitsText 10 (c :: whole) wholes)
      (after : FractionText fraction fractions) (exponent : ExponentText power e)
      (marked : fraction ≠ [] ∨ power ≠ []) :
      FloatDenotes (c :: whole ++ fraction ++ power)
        (Radix.value 10 (wholes ++ fractions) * (10 : ℚ) ^ (e - fractions.length))

/-- The escapes of one character after the backslash. -/
def simpleEscapes : List (Char × Char) :=
  [('n', '\n'), ('t', '\t'), ('r', '\r'), ('0', Char.ofNat 0), ('\\', '\\'), ('"', '"'),
    ('\'', '\'')]

/-- The texts of escapes after the backslash. A Unicode escape has any number of digits. -/
inductive EscapeDenotes : List Char → Char → Prop where
  | simple {c value : Char} (listed : (c, value) ∈ simpleEscapes) : EscapeDenotes [c] value
  | unicode {text : List Char} {digits : List Nat} (present : text ≠ [])
      (all : text.map (toDigit 16) = digits.map some)
      (valid : (Radix.value 16 digits).isValidChar) :
      EscapeDenotes ('u' :: '{' :: text ++ ['}']) (Char.ofNatAux (Radix.value 16 digits) valid)

/-- The texts of characters. -/
inductive CharDenotes : List Char → Char → Prop where
  | plain {c : Char} (quote : c ≠ '\'') (backslash : c ≠ '\\') (newline : c ≠ '\n') :
      CharDenotes ['\'', c, '\''] c
  | escape {text : List Char} {value : Char} (escape : EscapeDenotes text value) :
      CharDenotes ('\'' :: '\\' :: text ++ ['\'']) value

/-- The texts between the quotes of strings. -/
inductive CharsDenote : List Char → List Char → Prop where
  | nil : CharsDenote [] []
  | plain {c : Char} {text value : List Char} (quote : c ≠ '"') (backslash : c ≠ '\\')
      (newline : c ≠ '\n') (more : CharsDenote text value) : CharsDenote (c :: text) (c :: value)
  | escape {c : Char} {front text value : List Char} (escape : EscapeDenotes front c)
      (more : CharsDenote text value) : CharsDenote ('\\' :: front ++ text) (c :: value)

/-- The texts of strings, with their bytes. -/
inductive StringDenotes : List Char → List UInt8 → Prop where
  | string {text value : List Char} (chars : CharsDenote text value) :
      StringDenotes ('"' :: text ++ ['"']) (Utf8.encode value)

/-! ### Integers -/

/-- The order of characters is that of their numbers. -/
theorem char_le_iff (a b : Char) : a ≤ b ↔ a.toNat ≤ b.toNat := UInt32.le_iff_toNat_le

/-- A digit in a base of up to sixteen is a hexadecimal one below the base. -/
theorem hexDigit_of_toDigit {radix d : Nat} {c : Char} (low : radix ≤ 16)
    (digit : toDigit radix c = some d) : hexDigit c = some d ∧ d < radix := by
  have nine : '9'.toNat = 57 := rfl
  have zero : '0'.toNat = 48 := rfl
  have a : 'a'.toNat = 97 := rfl
  have f : 'f'.toNat = 102 := rfl
  have z : 'z'.toNat = 122 := rfl
  have A : 'A'.toNat = 65 := rfl
  have F : 'F'.toNat = 70 := rfl
  have Z : 'Z'.toNat = 90 := rfl
  simp only [toDigit, char_le_iff, nine, zero, a, z, A, Z] at digit
  simp only [hexDigit, char_le_iff, nine, zero, a, f, A, F]
  generalize c.toNat = n at digit ⊢
  by_cases number : 48 ≤ n ∧ n ≤ 57
  · rw [if_pos number] at digit ⊢
    split_ifs at digit with below
    cases digit
    exact ⟨rfl, below⟩
  rw [if_neg number] at digit ⊢
  by_cases lower : 97 ≤ n ∧ n ≤ 122
  · rw [if_pos lower] at digit
    split_ifs at digit with below
    cases digit
    exact ⟨if_pos ⟨lower.1, by omega⟩, below⟩
  rw [if_neg lower] at digit
  by_cases upper : 65 ≤ n ∧ n ≤ 90
  · rw [if_pos upper] at digit
    split_ifs at digit with below
    cases digit
    exact ⟨by rw [if_neg (by omega), if_pos ⟨upper.1, by omega⟩], below⟩
  · rw [if_neg upper, if_neg (by omega)] at digit
    cases digit

/-- A separator is no digit. -/
theorem toDigit_separator {radix : Nat} (low : radix ≤ 16) : toDigit radix '_' = none := by
  cases digit : toDigit radix '_' with
  | none => rfl
  | some d =>
    have other := (hexDigit_of_toDigit low digit).1
    cases other

/-- The digits of an integer are read as the number that they write, if it fits. -/
theorem intDigits_eq {radix : Nat} {text : List Char} {digits : List Nat}
    (all : DigitsText radix text digits) (low : radix ≤ 16) {value : Nat}
    (small : value < 2 ^ 64) (present : Bool) :
    intDigits radix text value present =
      if value * radix ^ digits.length + Radix.value radix digits < 2 ^ 64 then
        some (value * radix ^ digits.length + Radix.value radix digits,
          present || !digits.isEmpty)
      else none := by
  induction all generalizing value present with
  | nil =>
    rw [intDigits, List.length_nil, Radix.value_nil, Nat.pow_zero, Nat.mul_one, Nat.add_zero,
      if_pos small]
    simp
  | separator more ih => rw [intDigits, if_pos rfl, ih small present]
  | @digit c d text digits first more ih =>
    obtain ⟨hex, below⟩ := hexDigit_of_toDigit low first
    have other : c ≠ '_' := by
      rintro rfl
      rw [toDigit_separator low] at first
      cases first
    have regroup : value * radix ^ (d :: digits).length + Radix.value radix (d :: digits) =
        (value * radix + d) * radix ^ digits.length + Radix.value radix digits := by
      rw [Radix.value_cons, List.length_cons, Nat.pow_succ]
      ring
    have positive : 0 < radix ^ digits.length := Nat.pow_pos (by omega)
    have grown : value * radix + d ≤ (value * radix + d) * radix ^ digits.length :=
      Nat.le_mul_of_pos_right _ positive
    rw [regroup, intDigits, if_neg other, hex, Option.bind_some, if_neg (by omega), checkedMul]
    by_cases fits : value * radix + d < 2 ^ 64
    · rw [if_pos (by omega), Option.bind_some, checkedAdd, if_pos fits, Option.bind_some,
        ih fits true]
      simp
    · rw [if_neg (show ¬ (value * radix + d) * radix ^ digits.length +
        Radix.value radix digits < 2 ^ 64 by omega)]
      by_cases product : value * radix < 2 ^ 64
      · rw [if_pos product, Option.bind_some, checkedAdd, if_neg fits, Option.bind_none]
      · rw [if_neg product, Option.bind_none]

/-- A character of the digits of a number is one of them or a separator. -/
theorem DigitsText.mem {radix : Nat} {text : List Char} {digits : List Nat}
    (all : DigitsText radix text digits) :
    ∀ c ∈ text, c = '_' ∨ ∃ d, toDigit radix c = some d := by
  induction all with
  | nil => exact fun c member => nomatch member
  | separator more ih =>
    intro c member
    rcases List.mem_cons.mp member with rfl | later
    · exact .inl rfl
    · exact ih c later
  | digit first more ih =>
    intro c member
    rcases List.mem_cons.mp member with rfl | later
    · exact .inr ⟨_, first⟩
    · exact ih c later

/-- Decimal digits have no prefix of a radix. -/
theorem radixOf_decimal {text : List Char} {digits : List Nat}
    (all : DigitsText 10 text digits) : radixOf text = (10, text) := by
  have plain : ∀ c ∈ text, ¬ (c = 'x' ∨ c = 'X') ∧ ¬ (c = 'o' ∨ c = 'O') ∧
      ¬ (c = 'b' ∨ c = 'B') := by
    intro c member
    rcases all.mem c member with rfl | ⟨d, digit⟩
    · decide
    · refine ⟨?_, ?_, ?_⟩ <;> rintro (rfl | rfl) <;> cases digit
  match text, plain with
  | [], _ => rfl
  | [c], _ => simp [radixOf]
  | first :: c :: rest, plain =>
    obtain ⟨x, o, b⟩ := plain c (by simp)
    by_cases zero : first = '0'
    · subst zero
      rw [radixOf, if_neg x, if_neg o, if_neg b]
    · rw [radixOf]
      intro d digits same
      cases same
      exact zero rfl

/-- A letter of a radix says it. -/
theorem RadixLetter.radixOf {c : Char} {radix : Nat} (letter : RadixLetter c radix)
    (digits : List Char) : radixOf ('0' :: c :: digits) = (radix, digits) ∧ radix ≤ 16 := by
  cases letter with
  | hexadecimal letter => rcases letter with rfl | rfl <;> exact ⟨rfl, by decide⟩
  | octal letter => rcases letter with rfl | rfl <;> exact ⟨rfl, by decide⟩
  | binary letter => rcases letter with rfl | rfl <;> exact ⟨rfl, by decide⟩

/-- A digit is no sign. -/
theorem isDigit_ne {c d : Char} (digit : c.isDigit = true) (other : d.isDigit = false) :
    c ≠ d := by
  rintro rfl
  rw [digit] at other
  cases other

/-- The texts of integers are decoded as the numbers that they write, if these fit. -/
theorem IntText.decode {raw : List Char} {radix : Nat} {digits : List Nat}
    (shape : IntText raw radix digits) : decodeIntLiteral raw =
      if Radix.value radix digits < 2 ^ 64 then some (Int64.ofNat (Radix.value radix digits))
      else none := by
  have zero : 0 < 2 ^ 64 := by decide
  cases shape with
  | @decimal c text digits first all =>
    have unsigned : c ≠ '-' := isDigit_ne first rfl
    have some_digit : digits ≠ [] := by
      rintro rfl
      cases all with
      | separator more => cases first
    have read := intDigits_eq all (by decide) zero false
    rw [Nat.zero_mul, Nat.zero_add] at read
    have sign : ¬ (c :: text).head? = some '-' := by simpa using unsigned
    simp only [decodeIntLiteral, stripPrefix, if_neg unsigned, Option.getD_none,
      radixOf_decimal all, read, if_neg sign]
    by_cases small : Radix.value 10 digits < 2 ^ 64
    · rw [if_pos small, if_pos small]
      simp [some_digit]
    · rw [if_neg small, if_neg small, Option.bind_none]
  | @based c radix text digits letter all present =>
    obtain ⟨same, low⟩ := letter.radixOf text
    have read := intDigits_eq all low zero false
    rw [Nat.zero_mul, Nat.zero_add] at read
    have sign : ¬ ('0' :: c :: text).head? = some '-' := by simp
    simp only [decodeIntLiteral, stripPrefix, if_neg (show '0' ≠ '-' by decide),
      Option.getD_none, same, read, if_neg sign]
    by_cases small : Radix.value radix digits < 2 ^ 64
    · rw [if_pos small, if_pos small]
      simp [present]
    · rw [if_neg small, if_neg small, Option.bind_none]

/-- The texts of integers are decoded as what they denote. -/
theorem IntDenotes.decode {raw : List Char} {value : Int64} (denotes : IntDenotes raw value) :
    decodeIntLiteral raw = some value := by
  cases denotes with
  | int shape small => rw [shape.decode, if_pos small]

/-- The text of an integer that is decoded denotes one. -/
theorem IntText.denotes {raw : List Char} {radix : Nat} {digits : List Nat}
    (shape : IntText raw radix digits) (decoded : (decodeIntLiteral raw).isSome) :
    ∃ value, IntDenotes raw value := by
  rw [shape.decode] at decoded
  split_ifs at decoded with small
  · exact ⟨_, .int shape small⟩
  · cases decoded

/-! ### Escapes, characters and strings -/

/-- The digits of a Unicode escape end at its brace. -/
theorem digitsToBrace_append {text : List Char} (rest : List Char) (none_closes : '}' ∉ text) :
    digitsToBrace (text ++ '}' :: rest) = some (text, rest) := by
  induction text with
  | nil => rw [List.nil_append, digitsToBrace, if_pos rfl]
  | cons c text ih =>
    rw [List.mem_cons, not_or] at none_closes
    rw [List.cons_append, digitsToBrace, if_neg (Ne.symm none_closes.1), ih none_closes.2]
    rfl

/-- Digits of a base after a number, within thirty-two bits. -/
theorem foldl_digits {base : Nat} (positive : 0 < base) {text : List Char} {digits : List Nat}
    (all : text.map (toDigit base) = digits.map some) (n : Nat)
    (small : n * base ^ digits.length + Radix.value base digits < 2 ^ 32) :
    text.foldl (fun value c => value.bind fun n => (toDigit base c).bind fun digit =>
      (checkedMul 32 n base).bind fun product => checkedAdd 32 product digit) (some n) =
        some (n * base ^ digits.length + Radix.value base digits) := by
  induction text generalizing n digits with
  | nil =>
    cases digits with
    | nil => simp
    | cons d digits => cases all
  | cons c text ih =>
    cases digits with
    | nil => cases all
    | cons d digits =>
      rw [List.map_cons, List.map_cons, List.cons.injEq] at all
      obtain ⟨first, more⟩ := all
      have regroup : n * base ^ (d :: digits).length + Radix.value base (d :: digits) =
          (n * base + d) * base ^ digits.length + Radix.value base digits := by
        rw [Radix.value_cons, List.length_cons, Nat.pow_succ]
        ring
      rw [regroup] at small ⊢
      have grown : n * base + d ≤ (n * base + d) * base ^ digits.length :=
        Nat.le_mul_of_pos_right _ (Nat.pow_pos positive)
      rw [List.foldl_cons, Option.bind_some, first, Option.bind_some, checkedMul,
        if_pos (by omega), Option.bind_some, checkedAdd, if_pos (by omega), ih more _ small]

/-- A number of digits within thirty-two bits is read as it. -/
theorem fromStrRadix_eq {base : Nat} (positive : 0 < base) (low : base ≤ 16) {text : List Char}
    {digits : List Nat} (present : text ≠ [])
    (all : text.map (toDigit base) = digits.map some) (small : Radix.value base digits < 2 ^ 32) :
    fromStrRadix base text = some (Radix.value base digits) := by
  have unsigned : ∀ rest, text ≠ '+' :: rest := by
    rintro rest rfl
    cases digits with
    | nil => cases all
    | cons d digits =>
      rw [List.map_cons, List.map_cons, List.cons.injEq] at all
      have other := (hexDigit_of_toDigit low all.1).1
      cases other
  have read := foldl_digits positive all 0 (by rwa [Nat.zero_mul, Nat.zero_add])
  rw [Nat.zero_mul, Nat.zero_add] at read
  rw [fromStrRadix, if_neg present, read]
  exact unsigned

/-- A simple escape is decoded as it is listed. -/
theorem decodeSimple_listed {c value : Char} (listed : (c, value) ∈ simpleEscapes) :
    decodeSimple c = some value := by
  simp only [simpleEscapes, List.mem_cons, Prod.mk.injEq, List.not_mem_nil, or_false] at listed
  rcases listed with ⟨rfl, rfl⟩ | ⟨rfl, rfl⟩ | ⟨rfl, rfl⟩ | ⟨rfl, rfl⟩ | ⟨rfl, rfl⟩ |
    ⟨rfl, rfl⟩ | ⟨rfl, rfl⟩
  all_goals rfl

/-- The texts of escapes are decoded as what they denote. -/
theorem EscapeDenotes.decode {text : List Char} {value : Char}
    (denotes : EscapeDenotes text value) (rest : List Char) :
    decodeEscape (text ++ rest) = some (value, rest) := by
  cases denotes with
  | simple listed => rw [List.singleton_append, decodeEscape, decodeSimple_listed listed]
  | @unicode text digits present all valid =>
    have scalar : charFromU32 (Radix.value 16 digits) = some (Char.ofNatAux _ valid) :=
      dif_pos valid
    generalize Char.ofNatAux (Radix.value 16 digits) valid = value at scalar ⊢
    have small : Radix.value 16 digits < 2 ^ 32 := by
      simp only [Nat.isValidChar] at valid
      omega
    have none_closes : '}' ∉ text := by
      intro member
      have image : none ∈ text.map (toDigit 16) := List.mem_map.mpr ⟨'}', member, rfl⟩
      rw [all] at image
      simp at image
    have shape : 'u' :: '{' :: text ++ ['}'] ++ rest = 'u' :: '{' :: (text ++ '}' :: rest) := by
      simp
    have simple : decodeSimple 'u' = none := rfl
    rw [shape, decodeEscape, simple]
    simp only [if_pos]
    rw [decodeUnicode, if_neg (by decide), digitsToBrace_append rest none_closes,
      Option.bind_some]
    simp only
    rw [fromStrRadix_eq (by decide) (by decide) present all small, Option.bind_some, scalar,
      Option.map_some]

/-- A last character is taken off. -/
theorem stripSuffix_append (text : List Char) (c : Char) :
    stripSuffix c (text ++ [c]) = some text := by
  rw [stripSuffix, List.reverse_append, List.reverse_singleton, List.singleton_append, stripPrefix,
    if_pos rfl, Option.map_some, List.reverse_reverse]

/-- The texts of characters are decoded as what they denote. -/
theorem CharDenotes.decode {raw : List Char} {value : Char} (denotes : CharDenotes raw value) :
    decodeCharLiteral raw = some value := by
  cases denotes with
  | plain quote backslash newline =>
    have inner : stripSuffix '\'' [value, '\''] = some [value] := stripSuffix_append [value] '\''
    rw [decodeCharLiteral, stripPrefix, if_pos rfl, Option.bind_some, inner]
    simp [backslash]
  | @escape text _ escape =>
    have inner : stripSuffix '\'' ('\\' :: text ++ ['\'']) = some ('\\' :: text) :=
      stripSuffix_append ('\\' :: text) '\''
    have read := escape.decode []
    rw [List.append_nil] at read
    rw [List.cons_append, decodeCharLiteral, stripPrefix, if_pos rfl, Option.bind_some, inner]
    simp [read]

/-- The texts between quotes are decoded as what they denote. -/
theorem CharsDenote.decode {text value : List Char} (denotes : CharsDenote text value) :
    decodeChars text = some value := by
  induction denotes with
  | nil => rw [decodeChars]
  | plain quote backslash newline more ih => rw [decodeChars, if_neg backslash, ih, Option.map_some]
  | @escape c front text value escape more ih =>
    have read := escape.decode text
    rw [List.cons_append, decodeChars, if_pos rfl]
    split
    · next failed =>
      rw [read] at failed
      cases failed
    · next scalar rest here =>
      rw [read] at here
      cases here
      rw [ih, Option.map_some]

/-- The texts of strings are decoded as what they denote. -/
theorem StringDenotes.decode {raw : List Char} {bytes : List UInt8}
    (denotes : StringDenotes raw bytes) : decodeStringLiteral raw = some bytes := by
  cases denotes with
  | @string text value chars =>
    rw [List.cons_append, decodeStringLiteral, stripPrefix, if_pos rfl, Option.bind_some,
      stripSuffix_append, Option.bind_some, chars.decode, Option.map_some]

/-! ### Floating-point numbers -/

/-- Without its separators a text of digits is those digits. -/
theorem DigitsText.plain {text : List Char} {digits : List Nat}
    (all : DigitsText 10 text digits) :
    (text.filter (· ≠ '_')).all Char.isDigit = true ∧
      (text.filter (· ≠ '_')).map (fun c => c.toNat - 48) = digits := by
  induction all with
  | nil => exact ⟨rfl, rfl⟩
  | separator more ih => exact ih
  | @digit c d text digits first more ih =>
    obtain ⟨hex, below⟩ := hexDigit_of_toDigit (by decide) first
    have decimal : c.isDigit = true ∧ c.toNat - 48 = d := by
      rw [hexDigit] at hex
      split_ifs at hex with number lower upper
      · cases hex
        exact ⟨by simp only [Char.isDigit, Bool.and_eq_true, decide_eq_true_eq]; exact number, rfl⟩
      · cases hex
        omega
      · cases hex
        omega
    have other : c ≠ '_' := isDigit_ne decimal.1 rfl
    rw [List.filter_cons_of_pos (by simpa using other)]
    rw [List.all_cons, decimal.1, ih.1, List.map_cons, decimal.2, ih.2]
    exact ⟨rfl, rfl⟩

/-- Digits are taken up to what is no digit. -/
theorem takeWhile_digits {digits rest : List Char} (all : digits.all Char.isDigit = true)
    (stop : ∀ c, rest.head? = some c → c.isDigit = false) :
    (digits ++ rest).takeWhile Char.isDigit = digits ∧
      (digits ++ rest).dropWhile Char.isDigit = rest := by
  have each : ∀ c ∈ digits, c.isDigit = true := List.all_eq_true.mp all
  rw [List.takeWhile_append_of_pos each, List.dropWhile_append_of_pos each]
  cases rest with
  | nil => simp
  | cons c rest =>
    have other : ¬ c.isDigit = true := by simp [stop c rfl]
    rw [List.takeWhile_cons_of_neg other, List.dropWhile_cons_of_neg other, List.append_nil]
    exact ⟨rfl, rfl⟩

/-- A digit is no sign before what follows. -/
theorem signOf_digit {c : Char} (first : c.isDigit = true) (text : List Char) :
    signOf (c :: text) = (false, c :: text) := by
  rw [signOf]
  · rintro rest same
    cases same
    cases first
  · rintro rest same
    cases same
    cases first

/-- Without its separators a text of digits that starts with one is those digits. -/
theorem DigitsText.plain_cons {c : Char} {text : List Char} {digits : List Nat}
    (all : DigitsText 10 (c :: text) digits) (first : c.isDigit) :
    ∃ more, (c :: text).filter (· ≠ '_') = c :: more ∧ (c :: more).all Char.isDigit = true ∧
      (c :: more).map (fun c => c.toNat - 48) = digits := by
  have plain : (c :: text).filter (· ≠ '_') = c :: text.filter (· ≠ '_') :=
    List.filter_cons_of_pos (by simpa using isDigit_ne first rfl)
  have number := all.plain
  rw [plain] at number
  exact ⟨_, plain, number.1, number.2⟩

/-- The texts of exponents are read as their values, separators left out. -/
theorem ExponentText.read {power : List Char} {e : ℤ} (exponent : ExponentText power e) :
    parseExponent (power.filter (· ≠ '_')) = some e ∧
      ∀ c, (power.filter (· ≠ '_')).head? = some c → c = 'e' ∨ c = 'E' := by
  have letters {e : Char} (letter : e = 'e' ∨ e = 'E') (text : List Char) :
      (e :: text).filter (· ≠ '_') = e :: text.filter (· ≠ '_') := by
    rcases letter with rfl | rfl <;> rfl
  cases exponent with
  | absent => exact ⟨rfl, fun c here => nomatch here⟩
  | @unsigned e c text digits letter first all =>
    obtain ⟨more, same, each, number⟩ := all.plain_cons first
    rw [letters letter, same]
    refine ⟨?_, fun d here => by cases here; exact letter⟩
    rw [parseExponent, if_pos letter, signOf_digit first]
    simp only
    rw [if_pos ⟨List.cons_ne_nil _ _, each⟩, decimal, number, if_neg Bool.false_ne_true]
  | @positive e c text digits letter first all =>
    obtain ⟨more, same, each, number⟩ := all.plain_cons first
    rw [letters letter, List.filter_cons_of_pos (by decide), same]
    refine ⟨?_, fun d here => by cases here; exact letter⟩
    rw [parseExponent, if_pos letter, signOf]
    simp only
    rw [if_pos ⟨List.cons_ne_nil _ _, each⟩, decimal, number, if_neg Bool.false_ne_true]
  | @negative e c text digits letter first all =>
    obtain ⟨more, same, each, number⟩ := all.plain_cons first
    rw [letters letter, List.filter_cons_of_pos (by decide), same]
    refine ⟨?_, fun d here => by cases here; exact letter⟩
    rw [parseExponent, if_pos letter, signOf]
    simp only
    rw [if_pos ⟨List.cons_ne_nil _ _, each⟩, decimal, number, if_pos trivial]

/-- The fraction of a number is read up to its exponent, separators left out. -/
theorem FractionText.read {fraction : List Char} {fractions : List Nat}
    (after : FractionText fraction fractions) {rest : List Char}
    (letter : ∀ c, rest.head? = some c → c = 'e' ∨ c = 'E') :
    ∃ digits, fractionOf (fraction.filter (· ≠ '_') ++ rest) = (digits, rest) ∧
      digits.map (fun c => c.toNat - 48) = fractions ∧
        ∀ c, (fraction.filter (· ≠ '_') ++ rest).head? = some c → c.isDigit = false := by
  have other : ∀ c, rest.head? = some c → c.isDigit = false ∧ c ≠ '.' := by
    intro c here
    rcases letter c here with rfl | rfl <;> decide
  cases after with
  | absent =>
    refine ⟨[], ?_, rfl, fun c here => (other c here).1⟩
    rw [List.filter_nil, List.nil_append, fractionOf]
    rintro tail rfl
    exact (other '.' rfl).2 rfl
  | @present c text digits first all =>
    obtain ⟨more, same, each, number⟩ := all.plain_cons first
    rw [List.filter_cons_of_pos (by decide), same]
    refine ⟨c :: more, ?_, number, fun d here => by cases here; rfl⟩
    obtain ⟨taken, left⟩ := takeWhile_digits each fun c here => (other c here).1
    rw [List.cons_append, fractionOf, taken, left]

/-- The texts of floating-point numbers are decoded as what they denote. -/
theorem FloatDenotes.decode {raw : List Char} {q : ℚ} (denotes : FloatDenotes raw q) :
    decodeFloatLiteral raw = some (Binary64.bits q) := by
  cases denotes with
  | @float c whole fraction power wholes fractions e first before after exponent marked =>
    obtain ⟨more, same, each, number⟩ := before.plain_cons first
    obtain ⟨powerRead, letter⟩ := exponent.read
    obtain ⟨digits, fractionRead, fractionNumber, stop⟩ := after.read letter
    obtain ⟨taken, left⟩ := takeWhile_digits each stop
    have read : parseNumber (c :: more ++ (fraction.filter (· ≠ '_') ++
        power.filter (· ≠ '_'))) =
          some (Radix.value 10 (wholes ++ fractions) * (10 : ℚ) ^ (e - fractions.length)) := by
      rw [parseNumber, taken, left, fractionRead]
      simp only
      rw [if_neg (by simp), powerRead, Option.map_some, decimal, List.map_append, number,
        fractionNumber, ← fractionNumber, List.length_map]
    have plain : (c :: whole ++ fraction ++ power).filter (· ≠ '_') =
        c :: (more ++ (fraction.filter (· ≠ '_') ++ power.filter (· ≠ '_'))) := by
      rw [List.filter_append, List.filter_append, same]
      simp
    have letterless : c.toLower ≠ 'i' ∧ c.toLower ≠ 'n' := by
      have number : c ≤ '9' := by
        have both := first
        simp only [Char.isDigit, Bool.and_eq_true, decide_eq_true_eq] at both
        exact both.2
      have lower : c.toLower = c := by
        apply dif_neg
        intro upper
        have impossible := UInt32.le_trans upper.1 number
        exact absurd impossible (by decide)
      rw [lower]
      exact ⟨isDigit_ne first rfl, isDigit_ne first rfl⟩
    rw [decodeFloatLiteral, plain, parseFloat, signOf_digit first]
    simp only [List.map_cons, List.cons.injEq, letterless, false_and, or_self, if_false]
    rw [← List.cons_append, read]
    simp

example : decodeFloatLiteral ['0', '.', '0'] = some 0 := by decide +kernel

/-- The texts of floating-point numbers say no negative number. -/
theorem FloatDenotes.nonneg {raw : List Char} {q : ℚ} (denotes : FloatDenotes raw q) : 0 ≤ q := by
  cases denotes with
  | float => exact mul_nonneg (Nat.cast_nonneg _) (zpow_nonneg (by norm_num) _)

end Fai.Syntax
