import FaiVerif.Lib.Binary64
import FaiVerif.Lib.Radix
import FaiVerif.Lib.Utf8Bytes
import FaiVerif.Syntax.Token

/-!
# Decoding of literals

The texts of literals are decoded apart from the lexer (`fai-syntax/src/literal.rs`).
-/

namespace Fai.Syntax

/-- A sum of words of a width, unless it overflows. -/
def checkedAdd (width a b : Nat) : Option Nat := if a + b < 2 ^ width then some (a + b) else none

/-- A product of words of a width, unless it overflows. -/
def checkedMul (width a b : Nat) : Option Nat := if a * b < 2 ^ width then some (a * b) else none

/-- The digit that a character is in a base of up to thirty-six. -/
def toDigit (base : Nat) (c : Char) : Option Nat :=
  let digit :=
    if '0' ≤ c ∧ c ≤ '9' then c.toNat - 48
    else if 'a' ≤ c ∧ c ≤ 'z' then c.toNat - 97 + 10
    else if 'A' ≤ c ∧ c ≤ 'Z' then c.toNat - 65 + 10
    else 36
  if digit < base then some digit else none

/-- The character of a number, if it is a Unicode scalar value. -/
def charFromU32 (n : Nat) : Option Char :=
  if valid : n.isValidChar then some (Char.ofNatAux n valid) else none

/-- The number of digits in a base, within thirty-two bits. A sign before them is read too. -/
def fromStrRadix (base : Nat) (text : List Char) : Option Nat :=
  let digits :=
    match text with
    | '+' :: rest => rest
    | _ => text
  if digits = [] then none
  else
    digits.foldl (fun value c => value.bind fun n => (toDigit base c).bind fun digit =>
      (checkedMul 32 n base).bind fun product => checkedAdd 32 product digit) (some 0)

/-- The characters of a Unicode escape up to its closing brace, and those after it. -/
def digitsToBrace : List Char → Option (List Char × List Char)
  | [] => none
  | c :: rest =>
    if c = '}' then some ([], rest)
    else (digitsToBrace rest).map fun (digits, rest) => (c :: digits, rest)

/-- The character that an escape of one character stands for. -/
def decodeSimple (c : Char) : Option Char :=
  if c = 'n' then some '\n'
  else if c = 't' then some '\t'
  else if c = 'r' then some '\r'
  else if c = '0' then some (Char.ofNat 0)
  else if c = '\\' then some '\\'
  else if c = '"' then some '"'
  else if c = '\'' then some '\''
  else none

/-- Decodes the number in braces of a Unicode escape, and hands out what follows it. -/
def decodeUnicode : List Char → Option (Char × List Char)
  | [] => none
  | brace :: rest =>
    if brace ≠ '{' then none
    else
      (digitsToBrace rest).bind fun (digits, rest) =>
        ((fromStrRadix 16 digits).bind charFromU32).map fun value => (value, rest)

/-- Decodes what follows a backslash, and hands out what follows that. -/
def decodeEscape : List Char → Option (Char × List Char)
  | [] => none
  | c :: rest =>
    match decodeSimple c with
    | some value => some (value, rest)
    | none => if c = 'u' then decodeUnicode rest else none

/-- The text after a first character. -/
def stripPrefix (c : Char) : List Char → Option (List Char)
  | [] => none
  | first :: rest => if first = c then some rest else none

/-- The text before a last character. -/
def stripSuffix (c : Char) (text : List Char) : Option (List Char) :=
  (stripPrefix c text.reverse).map List.reverse

/-- What follows the brace is shorter. -/
theorem length_digitsToBrace {text digits rest : List Char}
    (read : digitsToBrace text = some (digits, rest)) : rest.length < text.length := by
  induction text generalizing digits with
  | nil => cases read
  | cons c text ih =>
    rw [digitsToBrace] at read
    split_ifs at read with brace
    · cases read
      exact Nat.lt_succ_self _
    · obtain ⟨⟨more, left⟩, here, same⟩ := Option.map_eq_some_iff.mp read
      cases same
      have shorter := ih here
      rw [List.length_cons]
      omega

/-- What follows an escape is shorter. -/
theorem length_decodeEscape {text rest : List Char} {value : Char}
    (read : decodeEscape text = some (value, rest)) : rest.length < text.length := by
  cases text with
  | nil => cases read
  | cons c text =>
    rw [decodeEscape] at read
    cases simple : decodeSimple c with
    | some scalar =>
      rw [simple] at read
      cases read
      exact Nat.lt_succ_self _
    | none =>
      simp only [simple] at read
      split_ifs at read
      cases text with
      | nil => cases read
      | cons brace text =>
        rw [decodeUnicode] at read
        split_ifs at read
        obtain ⟨⟨digits, left⟩, here, more⟩ := Option.bind_eq_some_iff.mp read
        obtain ⟨scalar, -, same⟩ := Option.map_eq_some_iff.mp more
        cases same
        have shorter := length_digitsToBrace here
        simp only [List.length_cons]
        omega

/-- Decodes a character in quotes. -/
def decodeCharLiteral (raw : List Char) : Option Char :=
  ((stripPrefix '\'' raw).bind (stripSuffix '\'')).bind fun inner =>
    match inner with
    | [] => none
    | first :: rest =>
      let read := if first = '\\' then decodeEscape rest else some (first, rest)
      read.bind fun (value, rest) => if rest = [] then some value else none

/-- The characters of what is between the quotes of a string. -/
def decodeChars (text : List Char) : Option (List Char) :=
  match text with
  | [] => some []
  | c :: rest =>
    if c = '\\' then
      match _read : decodeEscape rest with
      | none => none
      | some (value, rest) => (decodeChars rest).map (value :: ·)
    else (decodeChars rest).map (c :: ·)
termination_by text.length
decreasing_by
  · have shorter := length_decodeEscape _read
    simp only [List.length_cons]
    omega
  · simp

/-- Decodes a string in quotes, to the bytes of it. -/
def decodeStringLiteral (raw : List Char) : Option (List UInt8) :=
  ((stripPrefix '"' raw).bind (stripSuffix '"')).bind fun inner =>
    (decodeChars inner).map Utf8.encode

/-- The digit that a character is, in a base of up to sixteen. -/
def hexDigit (c : Char) : Option Nat :=
  if '0' ≤ c ∧ c ≤ '9' then some (c.toNat - 48)
  else if 'a' ≤ c ∧ c ≤ 'f' then some (c.toNat - 97 + 10)
  else if 'A' ≤ c ∧ c ≤ 'F' then some (c.toNat - 65 + 10)
  else none

/-- Reads the digits of an integer. Separators are passed over. -/
def intDigits (radix : Nat) : List Char → Nat → Bool → Option (Nat × Bool)
  | [], value, some_digit => some (value, some_digit)
  | c :: rest, value, some_digit =>
    if c = '_' then intDigits radix rest value some_digit
    else
      (hexDigit c).bind fun digit =>
        if radix ≤ digit then none
        else
          (checkedMul 64 value radix).bind fun product =>
            (checkedAdd 64 product digit).bind fun value => intDigits radix rest value true

/-- The radix that the prefix of an integer says, and its digits. -/
def radixOf : List Char → Nat × List Char
  | '0' :: c :: digits =>
    if c = 'x' ∨ c = 'X' then (16, digits)
    else if c = 'o' ∨ c = 'O' then (8, digits)
    else if c = 'b' ∨ c = 'B' then (2, digits)
    else (10, '0' :: c :: digits)
  | magnitude => (10, magnitude)

/-- Decodes an integer. Its magnitude is one of sixty-four bits, read as a signed one. -/
def decodeIntLiteral (raw : List Char) : Option Int64 :=
  let negative := raw.head? = some '-'
  let magnitude := (stripPrefix '-' raw).getD raw
  (intDigits (radixOf magnitude).1 (radixOf magnitude).2 0 false).bind fun (value, some_digit) =>
    let value := Int64.ofNat value
    if some_digit then some (if negative then -value else value) else none

/-- The number of decimal digits. -/
def decimal (digits : List Char) : Nat := Radix.value 10 (digits.map fun c => c.toNat - 48)

/-- Whether a minus sign is first, and what is after a sign. -/
def signOf : List Char → Bool × List Char
  | '-' :: rest => (true, rest)
  | '+' :: rest => (false, rest)
  | rest => (false, rest)

/-- The exponent of a number, if what is left is one. -/
def parseExponent : List Char → Option ℤ
  | [] => some 0
  | e :: rest =>
    if e = 'e' ∨ e = 'E' then
      let (negative, digits) := signOf rest
      if digits ≠ [] ∧ digits.all Char.isDigit then
        some (if negative then -(decimal digits : ℤ) else decimal digits)
      else none
    else none

/-- The digits of a fraction, and what is after them. -/
def fractionOf : List Char → List Char × List Char
  | '.' :: rest => (rest.takeWhile Char.isDigit, rest.dropWhile Char.isDigit)
  | rest => ([], rest)

/-- The number that a text is: digits with a point among them or not, and an exponent. -/
def parseNumber (text : List Char) : Option ℚ :=
  let whole := text.takeWhile Char.isDigit
  let rest := text.dropWhile Char.isDigit
  let (fraction, rest) := fractionOf rest
  if whole = [] ∧ fraction = [] then none
  else
    (parseExponent rest).map fun (exponent : ℤ) =>
      decimal (whole ++ fraction) * (10 : ℚ) ^ (exponent - fraction.length)

/-- The bits of the floating-point number of a text, rounded to the nearest. -/
def parseFloat (text : List Char) : Option Nat :=
  let (negative, magnitude) := signOf text
  let sign := if negative then Binary64.signBit else 0
  let word := magnitude.map Char.toLower
  if word = ['i', 'n', 'f'] ∨ word = ['i', 'n', 'f', 'i', 'n', 'i', 't', 'y'] then
    some (sign + Binary64.infinity)
  else if word = ['n', 'a', 'n'] then some (sign + Binary64.nan)
  else (parseNumber magnitude).map fun number => sign + Binary64.bits number

/-- Decodes a floating-point number to its bits. -/
def decodeFloatLiteral (raw : List Char) : Option Nat := parseFloat (raw.filter (· ≠ '_'))

end Fai.Syntax
