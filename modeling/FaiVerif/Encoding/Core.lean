import Mathlib.Data.Int.Notation
import Mathlib.Data.List.Basic
import Mathlib.Tactic.Common

/-!
# Alphabets and groups

The arithmetic that the hexadecimal, base-32 and base-64 codecs share (`EncodingCore.fai`): the six
formats, digits and their letters, and groups of bytes held in one word. A word holds at most forty
bits, so the shifts of the language's 64-bit integers lose none.
-/

namespace Fai.Encoding

/-- An alphabet. -/
inductive Kind where
  | hex
  | base64
  | base64Url
  | base32
  | base32Hex
  deriving DecidableEq

/-- How bytes are grouped into digits, and the letters of the digits. -/
structure Format where
  alphabet : List Char
  /-- The bits of a digit. -/
  bits : Nat
  /-- The bytes of a group. -/
  bytes : Nat
  /-- The digits of a group. -/
  digits : Nat
  kind : Kind
  lower : Bool
  deriving DecidableEq

/-- Hexadecimal in small letters. -/
def hexLower : Format where
  alphabet := "0123456789abcdef".toList
  bits := 4
  bytes := 1
  digits := 2
  kind := .hex
  lower := true

/-- Hexadecimal in capital letters. -/
def hexUpper : Format :=
  { hexLower with alphabet := "0123456789ABCDEF".toList, lower := false }

/-- Base 64. -/
def base64 : Format where
  alphabet := "ABCDEFGHIJKLMNOPQRSTUVWXYZabcdefghijklmnopqrstuvwxyz0123456789+/".toList
  bits := 6
  bytes := 3
  digits := 4
  kind := .base64
  lower := false

/-- Base 64 for addresses and file names. -/
def base64Url : Format :=
  { base64 with
    alphabet := "ABCDEFGHIJKLMNOPQRSTUVWXYZabcdefghijklmnopqrstuvwxyz0123456789-_".toList
    kind := .base64Url }

/-- Base 32. -/
def base32 : Format where
  alphabet := "ABCDEFGHIJKLMNOPQRSTUVWXYZ234567".toList
  bits := 5
  bytes := 5
  digits := 8
  kind := .base32
  lower := false

/-- Base 32 with the digits of hexadecimal first. -/
def base32Hex : Format :=
  { base32 with alphabet := "0123456789ABCDEFGHIJKLMNOPQRSTUV".toList, kind := .base32Hex }

/-- The capital letter of a small one where case is folded. -/
def upper (foldCase : Bool) (byte : Int) : Int :=
  if foldCase ∧ byte ≥ 97 ∧ byte ≤ 122 then byte - 32 else byte

/-- The digit of a letter of base 64, by its last two. -/
def digit64 (plus slash byte : Int) : Int :=
  if byte ≥ 65 ∧ byte ≤ 90 then byte - 65
  else if byte ≥ 97 ∧ byte ≤ 122 then byte - 71
  else if byte ≥ 48 ∧ byte ≤ 57 then byte + 4
  else if byte = plus then 62
  else if byte = slash then 63
  else -1

/-- The digit of a byte of text, or minus one. -/
def digit (format : Format) (foldCase : Bool) (byte : Int) : Int :=
  match format.kind with
  | .hex =>
    if byte ≥ 48 ∧ byte ≤ 57 then byte - 48
    else if byte ≥ 65 ∧ byte ≤ 70 ∧ (foldCase ∨ ¬ format.lower) then byte - 55
    else if byte ≥ 97 ∧ byte ≤ 102 ∧ (foldCase ∨ format.lower) then byte - 87
    else -1
  | .base64 => digit64 43 47 byte
  | .base64Url => digit64 45 95 byte
  | .base32 =>
    let byte := upper foldCase byte
    if byte ≥ 65 ∧ byte ≤ 90 then byte - 65
    else if byte ≥ 50 ∧ byte ≤ 55 then byte - 24
    else -1
  | .base32Hex =>
    let byte := upper foldCase byte
    if byte ≥ 48 ∧ byte ≤ 57 then byte - 48
    else if byte ≥ 65 ∧ byte ≤ 86 then byte - 55
    else -1

/-- Writes the last digits of a word, so many of them. -/
def renderFrom (format : Format) (word : Nat) : Nat → List Char → List Char
  | 0, output => output
  | remaining + 1, output =>
    let digit := (word >>> (remaining * format.bits)) &&& ((1 <<< format.bits) - 1)
    renderFrom format word remaining (output ++ (format.alphabet.drop digit).take 1)

/-- Writes padding. -/
def pad : Nat → List Char → List Char
  | 0, output => output
  | count + 1, output => pad count (output ++ ['='])

/-- The text of a group of so many bytes. -/
def render (format : Format) (padded : Bool) (count word : Nat) : List Char :=
  if count = 0 then []
  else
    let digits := (count * 8 + format.bits - 1) / format.bits
    let word := word <<< (digits * format.bits - count * 8)
    let output := renderFrom format word digits []
    if padded then pad (format.digits - digits) output else output

/-- Whether so many digits can be all of a final group. -/
def validTail (format : Format) (count : Nat) : Bool :=
  decide (count > 0) && decide (count < format.digits) &&
    decide ((count * format.bits) % 8 < format.bits)

/-- Whether the bits of a final group beyond its bytes are zero. -/
def canonical (format : Format) (count word : Nat) : Bool :=
  decide (word &&& ((1 <<< ((count * format.bits) % 8)) - 1) = 0)

/-- Puts the bytes of a word before others that are in reverse order. -/
def pushFrom (word bits : Nat) (output : List Nat) : List Nat :=
  if bits < 8 then output
  else
    let byte := 255 &&& (word >>> (bits - 8))
    pushFrom word (bits - 8) (byte :: output)
termination_by bits

/-- Puts the bytes of a group of so many digits before others, in reverse order. -/
def push (format : Format) (count word : Nat) (output : List Nat) : List Nat :=
  pushFrom word (count * format.bits) output

/-- The largest value of the language's `Int`. -/
def maxInt : Int := 9223372036854775807

/-- The length of the encoding of so many bytes, unless it is beyond every `Int`. -/
def encodedLength (format : Format) (padded : Bool) (count : Int) : Option Int :=
  if count < 0 then none
  else
    let groups := count / format.bytes
    let tail := count % format.bytes
    let extra : Int :=
      if tail = 0 then 0
      else if padded then format.digits
      else (tail * 8 + format.bits - 1) / format.bits
    if groups > (maxInt - extra) / format.digits then none
    else some (groups * format.digits + extra)

end Fai.Encoding
