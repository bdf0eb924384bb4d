import Mathlib.Data.List.Basic
import Mathlib.Tactic.Common
import FaiVerif.Lib.Utf8

/-!
# The bytes of encoded text

The sequences of bytes that stand for characters, what a text encodes to and that it is read back.
-/

namespace Fai.Utf8

/-- A byte that continues a sequence. -/
def Continues (byte : UInt8) : Prop := 128 ≤ byte.toNat ∧ byte.toNat ≤ 191

/-- The sequences of bytes that stand for one character. -/
def Sequence : List UInt8 → Prop
  | [a] => a.toNat ≤ 127
  | [a, b] => (194 ≤ a.toNat ∧ a.toNat ≤ 223) ∧ Continues b
  | [a, b, c] =>
    ((a.toNat = 224 ∧ 160 ≤ b.toNat ∧ b.toNat ≤ 191) ∨
      ((225 ≤ a.toNat ∧ a.toNat ≤ 236) ∧ Continues b) ∨
      (a.toNat = 237 ∧ 128 ≤ b.toNat ∧ b.toNat ≤ 159) ∨
      ((238 ≤ a.toNat ∧ a.toNat ≤ 239) ∧ Continues b)) ∧ Continues c
  | [a, b, c, d] =>
    ((a.toNat = 240 ∧ 144 ≤ b.toNat ∧ b.toNat ≤ 191) ∨
      ((241 ≤ a.toNat ∧ a.toNat ≤ 243) ∧ Continues b) ∨
      (a.toNat = 244 ∧ 128 ≤ b.toNat ∧ b.toNat ≤ 143)) ∧ Continues c ∧ Continues d
  | _ => False

/-- A number below a byte's bound is that byte. -/
theorem toNat_ofNat_byte {n : Nat} (small : n < 256) : (UInt8.ofNat n).toNat = n := by
  rw [UInt8.toNat_ofNat']
  exact Nat.mod_eq_of_lt small

/-- The encoding of a character is a sequence. -/
theorem sequence_char (char : Char) : Sequence (String.utf8EncodeChar char) := by
  have valid := char.valid
  simp only [UInt32.isValidChar, Nat.isValidChar] at valid
  simp only [String.utf8EncodeChar]
  generalize char.val.toNat = code at valid
  split_ifs with one two three
  · simp only [Sequence, toNat_ofNat_byte (show code < 256 by omega)]
    exact one
  · simp only [Sequence, Continues, toNat_ofNat_byte (show code / 64 % 32 + 192 < 256 by omega),
      toNat_ofNat_byte (show code % 64 + 128 < 256 by omega)]
    omega
  · simp only [Sequence, Continues, toNat_ofNat_byte (show code / 4096 % 16 + 224 < 256 by omega),
      toNat_ofNat_byte (show code / 64 % 64 + 128 < 256 by omega),
      toNat_ofNat_byte (show code % 64 + 128 < 256 by omega)]
    omega
  · simp only [Sequence, Continues, toNat_ofNat_byte (show code / 262144 % 8 + 240 < 256 by omega),
      toNat_ofNat_byte (show code / 4096 % 64 + 128 < 256 by omega),
      toNat_ofNat_byte (show code / 64 % 64 + 128 < 256 by omega),
      toNat_ofNat_byte (show code % 64 + 128 < 256 by omega)]
    omega

/-- The text that bytes encode, if they encode one. -/
def decode (bytes : List UInt8) : Option (List Char) :=
  bytes.toByteArray.utf8Decode?.map Array.toList

/-- The empty text has no bytes. -/
@[simp] theorem encode_nil : encode [] = [] := rfl

/-- The encoding of a first character and of those after it. -/
theorem encode_cons (char : Char) (text : List Char) :
    encode (char :: text) = String.utf8EncodeChar char ++ encode text := List.flatMap_cons

/-- The encoding of two parts. -/
@[simp] theorem encode_append (front back : List Char) :
    encode (front ++ back) = encode front ++ encode back := List.flatMap_append

/-- What a text encodes to decodes to it. -/
@[simp] theorem decode_encode (text : List Char) : decode (encode text) = some text := by
  have same : (encode text).toByteArray = text.utf8Encode := rfl
  rw [decode, same, List.utf8Decode?_utf8Encode]
  simp

/-- Two texts with the same encoding are the same. -/
theorem encode_injective {first second : List Char} (same : encode first = encode second) :
    first = second := by
  have decoded := congrArg decode same
  simpa using decoded

/-- A character within ASCII is one byte. -/
theorem utf8EncodeChar_ascii {char : Char} (ascii : char.toNat ≤ 127) :
    String.utf8EncodeChar char = [UInt8.ofNat char.toNat] := by
  have small : char.val.toNat ≤ 127 := ascii
  simp only [String.utf8EncodeChar, if_pos small]
  rfl

/-- The bytes of a character beyond ASCII are beyond ASCII. -/
theorem utf8EncodeChar_beyond {char : Char} (beyond : 127 < char.toNat) :
    ∀ byte ∈ String.utf8EncodeChar char, 128 ≤ byte.toNat := by
  have sequence := sequence_char char
  have large : ¬ char.val.toNat ≤ 127 := Nat.not_le.mpr beyond
  revert sequence
  simp only [String.utf8EncodeChar, if_neg large]
  split_ifs
  · simp only [Sequence, Continues, List.mem_cons, List.not_mem_nil, or_false, forall_eq_or_imp,
      forall_eq]
    omega
  · simp only [Sequence, Continues, List.mem_cons, List.not_mem_nil, or_false, forall_eq_or_imp,
      forall_eq]
    omega
  · simp only [Sequence, Continues, List.mem_cons, List.not_mem_nil, or_false, forall_eq_or_imp,
      forall_eq]
    omega

/-- The encoding of a text that is not empty is not empty. -/
theorem length_encode_cons_pos (char : Char) (text : List Char) :
    0 < (encode (char :: text)).length := by
  rw [encode_cons, List.length_append]
  have some_byte := List.length_pos_of_ne_nil (String.utf8EncodeChar_ne_nil (c := char))
  omega

end Fai.Utf8
