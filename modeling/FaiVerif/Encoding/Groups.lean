import Mathlib.Data.Nat.Bitwise
import FaiVerif.Encoding.Streams
import FaiVerif.Lib.Radix

/-!
# Groups of bytes and of digits

What the six formats have in common, and what follows for one group: its text is the numeral of its
word in the format's base, and the word gives the bytes back.
-/

namespace Fai.Encoding

open Radix

/-- The six formats. -/
def formats : List Format := [hexLower, hexUpper, base64, base64Url, base32, base32Hex]

/-- Whether a decoder of a format folds case: the two formats of base 64 tell letters apart. -/
def Format.folds (format : Format) (foldCase : Bool) : Bool :=
  foldCase && format.kind != .base64 && format.kind != .base64Url

/-- The letter of a digit. -/
def Format.letter (format : Format) (digit : Nat) : Char := format.alphabet.getD digit ' '

/-- The digits that hold so many bytes. -/
def Format.digitsFor (format : Format) (count : Nat) : Nat :=
  (count * 8 + format.bits - 1) / format.bits

/-- The small letter of a capital one within ASCII. -/
def smallLetter (byte : Nat) : Nat := if 65 ≤ byte ∧ byte ≤ 90 then byte + 32 else byte

/-- The capital letter of a small one within ASCII. -/
def capitalLetter (byte : Nat) : Nat := if 97 ≤ byte ∧ byte ≤ 122 then byte - 32 else byte

/-- Whether two bytes are the same letter, up to case where it is folded. -/
def SameLetter (folds : Bool) (byte other : Nat) : Prop :=
  byte = other ∨ (folds = true ∧ smallLetter byte = smallLetter other)

instance (folds : Bool) (byte other : Nat) : Decidable (SameLetter folds byte other) :=
  inferInstanceAs (Decidable (_ ∨ _))

/-- What the formats have in common. -/
structure Lawful (format : Format) : Prop where
  bits_pos : 0 < format.bits
  bytes_pos : 0 < format.bytes
  /-- A full group is as many bits in bytes as in digits. -/
  full : format.digits * format.bits = format.bytes * 8
  size : format.alphabet.length = 2 ^ format.bits
  /-- The digits of a final group of bytes. -/
  tail : ∀ count < format.bytes, 0 < count → 0 < format.digitsFor count ∧
    format.digitsFor count < format.digits ∧
      (format.digitsFor count * format.bits) % 8 < format.bits ∧
        format.digitsFor count * format.bits / 8 = count
  /-- The bytes of a final group of digits. -/
  count : ∀ digits < format.digits, 0 < digits → (digits * format.bits) % 8 < format.bits →
    0 < digits * format.bits / 8 ∧ digits * format.bits / 8 < format.bytes ∧
      format.digitsFor (digits * format.bits / 8) = digits
  /-- Letters are within ASCII, and none is the padding. -/
  letters : ∀ digit < 2 ^ format.bits, (format.letter digit).toNat < 128 ∧
    (format.letter digit).toNat ≠ 61
  /-- A letter is read as its digit, in either case where it is folded. -/
  reads : ∀ foldCase, ∀ value < 2 ^ format.bits,
    digit format foldCase (format.letter value).toNat = value ∧
      (format.folds foldCase = true →
        digit format foldCase (smallLetter (format.letter value).toNat) = value ∧
          digit format foldCase (capitalLetter (format.letter value).toNat) = value)
  /-- A byte that is read as a digit is its letter, up to case where it is folded. -/
  range : ∀ foldCase, ∀ byte : Nat, byte < 256 → 0 ≤ digit format foldCase byte →
    (digit format foldCase byte).toNat < 2 ^ format.bits ∧ byte ≠ 61 ∧
      SameLetter (format.folds foldCase) byte
        (format.letter (digit format foldCase byte).toNat).toNat

/-- The word of a group of bytes. -/
def wordOf (input : List UInt8) : Nat := value 256 (input.map UInt8.toNat)

/-- The digits of a group of bytes. -/
def Format.group (format : Format) (input : List UInt8) : List Nat :=
  numeral (2 ^ format.bits) (format.digitsFor input.length)
    (wordOf input * 2 ^ (format.digitsFor input.length * format.bits - input.length * 8))

/-- The bytes of a group of digits. -/
def Format.unpack (format : Format) (digits : List Nat) : List UInt8 :=
  (numeral 256 (digits.length * format.bits / 8)
    (value (2 ^ format.bits) digits / 2 ^ (digits.length * format.bits % 8))).map UInt8.ofNat

/-- The text of digits. -/
def Format.text (format : Format) (digits : List Nat) : List Char := digits.map format.letter

/-- A byte of a word. -/
theorem mask_eq (word shift bits : Nat) :
    (word >>> shift) &&& ((1 <<< bits) - 1) = word / 2 ^ shift % 2 ^ bits := by
  rw [Nat.shiftRight_eq_div_pow, Nat.one_shiftLeft, Nat.and_two_pow_sub_one_eq_mod]

/-- The word of a group is below the power of its size. -/
theorem wordOf_lt (input : List UInt8) : wordOf input < 256 ^ input.length := by
  have small : ∀ digit ∈ input.map UInt8.toNat, digit < 256 := by
    intro digit member
    obtain ⟨byte, -, rfl⟩ := List.mem_map.mp member
    exact byte.toNat_lt
  have below := value_lt small
  rwa [List.length_map] at below

/-- The bytes of a numeral of the word of a group are the group. -/
theorem bytes_wordOf (input : List UInt8) :
    (numeral 256 input.length (wordOf input)).map UInt8.ofNat = input := by
  have digits : numeral 256 (input.map UInt8.toNat).length (wordOf input) =
      input.map UInt8.toNat := by
    apply numeral_value
    intro digit member
    obtain ⟨byte, -, rfl⟩ := List.mem_map.mp member
    exact byte.toNat_lt
  rw [List.length_map] at digits
  rw [digits, List.map_map]
  have same : UInt8.ofNat ∘ UInt8.toNat = id := by
    funext byte
    exact UInt8.ofNat_toNat
  rw [same, List.map_id]

/-- The word of the bytes of a numeral. -/
theorem wordOf_numeral (count number : Nat) :
    wordOf ((numeral 256 count number).map UInt8.ofNat) = number % 256 ^ count := by
  rw [wordOf, List.map_map, ← value_numeral]
  congr 1
  conv_rhs => rw [← List.map_id (numeral 256 count number)]
  apply List.map_congr_left
  intro digit member
  have small := numeral_lt (by decide) count number digit member
  show (UInt8.ofNat digit).toNat = digit
  rw [UInt8.toNat_ofNat']
  exact Nat.mod_eq_of_lt small

/-- Padding is written after the text. -/
theorem pad_eq (count : Nat) (output : List Char) :
    pad count output = output ++ List.replicate count '=' := by
  induction count generalizing output with
  | zero => simp [pad]
  | succ count hypothesis => rw [pad, hypothesis, List.append_assoc, List.replicate_succ]; rfl

/-- The bytes of a word are put before the others in reverse order. -/
theorem pushFrom_eq (word bits : Nat) (output : List Nat) :
    pushFrom word bits output = (numeral 256 (bits / 8) (word / 2 ^ (bits % 8))).reverse ++
      output := by
  induction bits, output using pushFrom.induct word with
  | case1 bits output small =>
    rw [pushFrom, if_pos small, Nat.div_eq_of_lt small]
    rfl
  | case2 bits output large byte hypothesis =>
    have count : bits / 8 = (bits - 8) / 8 + 1 := by omega
    have rest : bits % 8 = (bits - 8) % 8 := by omega
    have first : byte = word / 2 ^ (bits % 8) / 256 ^ ((bits - 8) / 8) % 256 := by
      have power : 2 ^ (bits % 8) * 256 ^ ((bits - 8) / 8) = 2 ^ (bits - 8) := by
        have base : 256 = 2 ^ 8 := by decide
        rw [base, ← Nat.pow_mul, ← Nat.pow_add]
        congr 1
        omega
      have mask := mask_eq word (bits - 8) 8
      rw [Nat.and_comm] at mask
      rw [Nat.div_div_eq_div_mul, power]
      exact mask
    rw [pushFrom, if_neg large, hypothesis, count, numeral, ← first, ← rest, List.reverse_cons,
      List.append_assoc]
    rfl

/-- The bytes of a group of digits come after those before. -/
theorem bytes_push (format : Format) (digits : List Nat) (output : List Nat) :
    bytes (push format digits.length (value (2 ^ format.bits) digits) output) =
      bytes output ++ format.unpack digits := by
  rw [bytes, push, pushFrom_eq, List.reverse_append, List.reverse_reverse, List.map_append]
  rfl

section Lawful

variable {format : Format}

/-- The text of the last digits of a word. -/
theorem Lawful.renderFrom (lawful : Lawful format) (word remaining : Nat) (output : List Char) :
    renderFrom format word remaining output =
      output ++ format.text (numeral (2 ^ format.bits) remaining word) := by
  induction remaining generalizing output with
  | zero => simp [Encoding.renderFrom, numeral, Format.text]
  | succ remaining hypothesis =>
    have small : word / (2 ^ format.bits) ^ remaining % 2 ^ format.bits <
        format.alphabet.length := by
      rw [lawful.size]
      exact Nat.mod_lt _ (Nat.two_pow_pos _)
    rw [Encoding.renderFrom, hypothesis, mask_eq, Nat.mul_comm remaining, Nat.pow_mul, numeral,
      List.append_assoc]
    congr 1
    rw [List.drop_eq_getElem_cons small, List.take_succ_cons, List.take_zero, Format.text,
      Format.text, List.map_cons, Format.letter, List.getD_eq_getElem?_getD,
      List.getElem?_eq_getElem small]
    rfl

/-- The text of a group. -/
theorem Lawful.render (lawful : Lawful format) (padded : Bool) {input : List UInt8}
    (present : input ≠ []) :
    render format padded input.length (wordOf input) = format.text (format.group input) ++
      List.replicate (if padded then format.digits - format.digitsFor input.length else 0) '=' := by
  have some_byte : input.length ≠ 0 := by simpa using present
  simp only [Encoding.render, if_neg some_byte, lawful.renderFrom, Nat.shiftLeft_eq,
    List.nil_append, pad_eq]
  cases padded <;> simp [Format.group, Format.digitsFor]

/-- A group of bytes has no more bits than its digits. -/
theorem Lawful.digitsFor_bits (lawful : Lawful format) (count : Nat) :
    count * 8 ≤ format.digitsFor count * format.bits := by
  have positive := lawful.bits_pos
  have floor := Nat.lt_div_mul_add positive (a := count * 8 + format.bits - 1)
  rw [Format.digitsFor]
  omega

/-- A full group has all its digits. -/
theorem Lawful.digitsFor_full (lawful : Lawful format) :
    format.digitsFor format.bytes = format.digits := by
  have positive := lawful.bits_pos
  have full := lawful.full
  rw [Format.digitsFor, ← full, Nat.add_sub_assoc positive, Nat.add_comm,
    Nat.add_mul_div_right _ _ positive, Nat.div_eq_of_lt (by omega), Nat.zero_add]

/-- The digits of a group are so many. -/
@[simp] theorem length_group (format : Format) (input : List UInt8) :
    (format.group input).length = format.digitsFor input.length := length_numeral _ _ _

/-- Digits are below the base. -/
theorem group_lt (format : Format) (input : List UInt8) :
    ∀ digit ∈ format.group input, digit < 2 ^ format.bits :=
  numeral_lt (Nat.two_pow_pos _) _ _

/-- The number that the digits of a group write. -/
theorem Lawful.value_group (lawful : Lawful format) (input : List UInt8) :
    value (2 ^ format.bits) (format.group input) = wordOf input *
      2 ^ (format.digitsFor input.length * format.bits - input.length * 8) := by
  have room := lawful.digitsFor_bits input.length
  have below := wordOf_lt input
  have power : (2 ^ format.bits) ^ format.digitsFor input.length = 256 ^ input.length *
      2 ^ (format.digitsFor input.length * format.bits - input.length * 8) := by
    have base : 256 = 2 ^ 8 := by decide
    rw [base, ← Nat.pow_mul, ← Nat.pow_mul, ← Nat.pow_add]
    congr 1
    rw [Nat.mul_comm format.bits]
    omega
  rw [Format.group, value_numeral, power]
  exact Nat.mod_eq_of_lt ((Nat.mul_lt_mul_right (Nat.two_pow_pos _)).mpr below)

/-- The bits of a group's digits beyond its bytes are fewer than eight, and fewer than a digit's. -/
theorem Lawful.spare (lawful : Lawful format) {input : List UInt8}
    (small : input.length ≤ format.bytes) :
    format.digitsFor input.length * format.bits / 8 = input.length ∧
      format.digitsFor input.length * format.bits % 8 =
        format.digitsFor input.length * format.bits - input.length * 8 := by
  have quotient : format.digitsFor input.length * format.bits / 8 = input.length := by
    by_cases full : input.length = format.bytes
    · rw [full, lawful.digitsFor_full, lawful.full]
      omega
    · by_cases empty : input.length = 0
      · rw [empty, Format.digitsFor, Nat.zero_mul, Nat.zero_add,
          Nat.div_eq_of_lt (Nat.sub_lt lawful.bits_pos Nat.one_pos)]
        simp
      · exact (lawful.tail _ (by omega) (by omega)).2.2.2
  exact ⟨quotient, by omega⟩

/-- Two bytes with the same small letter are the same up to case. -/
theorem smallLetter_cases {byte other : Nat} (same : smallLetter byte = smallLetter other) :
    byte = smallLetter other ∨ byte = capitalLetter other ∨ byte = other := by
  simp only [smallLetter, capitalLetter] at same ⊢
  split_ifs at same ⊢ <;> omega

/-- A letter is read as its digit, up to case where it is folded. -/
theorem Lawful.digit_of_same (lawful : Lawful format) {foldCase : Bool} {byte value : Nat}
    (small : value < 2 ^ format.bits)
    (same : SameLetter (format.folds foldCase) byte (format.letter value).toNat) :
    digit format foldCase byte = value := by
  obtain ⟨exactly, folded⟩ := lawful.reads foldCase value small
  rcases same with rfl | ⟨folds, same⟩
  · exact exactly
  · rcases smallLetter_cases same with rfl | rfl | rfl
    · exact (folded folds).1
    · exact (folded folds).2
    · exact exactly

/-- A letter is not the padding, in either case. -/
theorem Lawful.ne_padding (lawful : Lawful format) {folds : Bool} {byte value : Nat}
    (small : value < 2 ^ format.bits) (same : SameLetter folds byte (format.letter value).toNat) :
    byte ≠ 61 := by
  rintro rfl
  have other := (lawful.letters value small).2
  rcases same with same | ⟨-, same⟩
  · exact other same.symm
  · simp only [smallLetter] at same
    split_ifs at same <;> omega

/-- The digits of a group give its bytes back. -/
theorem Lawful.unpack_group (lawful : Lawful format) {input : List UInt8}
    (small : input.length ≤ format.bytes) : format.unpack (format.group input) = input := by
  obtain ⟨quotient, rest⟩ := lawful.spare small
  rw [Format.unpack, length_group, lawful.value_group, quotient, rest,
    Nat.mul_div_cancel _ (Nat.two_pow_pos _), bytes_wordOf]

/-- The bytes of a group of digits that has no bits beyond them give the digits back. -/
theorem group_unpack {digits : List Nat}
    (small : ∀ digit ∈ digits, digit < 2 ^ format.bits)
    (count : format.digitsFor (digits.length * format.bits / 8) = digits.length)
    (zero : value (2 ^ format.bits) digits % 2 ^ (digits.length * format.bits % 8) = 0) :
    format.group (format.unpack digits) = digits := by
  have length : (format.unpack digits).length = digits.length * format.bits / 8 := by
    rw [Format.unpack, List.length_map, length_numeral]
  have below : value (2 ^ format.bits) digits / 2 ^ (digits.length * format.bits % 8) <
      256 ^ (digits.length * format.bits / 8) := by
    have bound := value_lt small
    have power : 2 ^ (digits.length * format.bits % 8) * 256 ^ (digits.length * format.bits / 8) =
        (2 ^ format.bits) ^ digits.length := by
      have base : 256 = 2 ^ 8 := by decide
      rw [base, ← Nat.pow_mul, ← Nat.pow_mul, ← Nat.pow_add]
      congr 1
      rw [Nat.mul_comm format.bits]
      omega
    rw [← power] at bound
    exact Nat.div_lt_of_lt_mul bound
  have spare : digits.length * format.bits - digits.length * format.bits / 8 * 8 =
      digits.length * format.bits % 8 := by omega
  rw [Format.group, length, count, spare, Format.unpack, wordOf_numeral, Nat.mod_eq_of_lt below,
    Nat.div_mul_cancel (Nat.dvd_of_mod_eq_zero zero), numeral_value small]

end Lawful

/-- A format whose letters are written out. -/
def Format.spelled (format : Format) (letters : List Char) : Format :=
  { format with alphabet := letters }

/-- A format is the format with its letters written out. -/
theorem eq_spelled {format : Format} {letters : List Char} (same : format.alphabet = letters) :
    format = format.spelled letters := by
  rw [Format.spelled, ← same]

/-- The letters of `hexLower`, one by one. -/
theorem hexLower_letters : hexLower.alphabet =
    ['0', '1', '2', '3', '4', '5', '6', '7', '8', '9', 'a', 'b', 'c', 'd', 'e', 'f'] :=
  String.toList_ofList

/-- The letters of `hexUpper`, one by one. -/
theorem hexUpper_letters : hexUpper.alphabet =
    ['0', '1', '2', '3', '4', '5', '6', '7', '8', '9', 'A', 'B', 'C', 'D', 'E', 'F'] :=
  String.toList_ofList

/-- The letters of `base64`, one by one. -/
theorem base64_letters : base64.alphabet =
    ['A', 'B', 'C', 'D', 'E', 'F', 'G', 'H', 'I', 'J', 'K', 'L', 'M', 'N', 'O', 'P', 'Q', 'R', 'S',
      'T', 'U', 'V', 'W', 'X', 'Y', 'Z', 'a', 'b', 'c', 'd', 'e', 'f', 'g', 'h', 'i', 'j', 'k', 'l',
      'm', 'n', 'o', 'p', 'q', 'r', 's', 't', 'u', 'v', 'w', 'x', 'y', 'z', '0', '1', '2', '3', '4',
      '5', '6', '7', '8', '9', '+', '/'] :=
  String.toList_ofList

/-- The letters of `base64Url`, one by one. -/
theorem base64Url_letters : base64Url.alphabet =
    ['A', 'B', 'C', 'D', 'E', 'F', 'G', 'H', 'I', 'J', 'K', 'L', 'M', 'N', 'O', 'P', 'Q', 'R', 'S',
      'T', 'U', 'V', 'W', 'X', 'Y', 'Z', 'a', 'b', 'c', 'd', 'e', 'f', 'g', 'h', 'i', 'j', 'k', 'l',
      'm', 'n', 'o', 'p', 'q', 'r', 's', 't', 'u', 'v', 'w', 'x', 'y', 'z', '0', '1', '2', '3', '4',
      '5', '6', '7', '8', '9', '-', '_'] :=
  String.toList_ofList

/-- The letters of `base32`, one by one. -/
theorem base32_letters : base32.alphabet =
    ['A', 'B', 'C', 'D', 'E', 'F', 'G', 'H', 'I', 'J', 'K', 'L', 'M', 'N', 'O', 'P', 'Q', 'R', 'S',
      'T', 'U', 'V', 'W', 'X', 'Y', 'Z', '2', '3', '4', '5', '6', '7'] :=
  String.toList_ofList

/-- The letters of `base32Hex`, one by one. -/
theorem base32Hex_letters : base32Hex.alphabet =
    ['0', '1', '2', '3', '4', '5', '6', '7', '8', '9', 'A', 'B', 'C', 'D', 'E', 'F', 'G', 'H', 'I',
      'J', 'K', 'L', 'M', 'N', 'O', 'P', 'Q', 'R', 'S', 'T', 'U', 'V'] :=
  String.toList_ofList

/-- The six formats have this in common. -/
theorem lawful {format : Format} (member : format ∈ formats) : Lawful format := by
  simp only [formats, List.mem_cons, List.not_mem_nil, or_false] at member
  rcases member with rfl | rfl | rfl | rfl | rfl | rfl
  · rw [eq_spelled hexLower_letters]
    constructor <;> decide +kernel
  · rw [eq_spelled hexUpper_letters]
    constructor <;> decide +kernel
  · rw [eq_spelled base64_letters]
    constructor <;> decide +kernel
  · rw [eq_spelled base64Url_letters]
    constructor <;> decide +kernel
  · rw [eq_spelled base32_letters]
    constructor <;> decide +kernel
  · rw [eq_spelled base32Hex_letters]
    constructor <;> decide +kernel

end Fai.Encoding
