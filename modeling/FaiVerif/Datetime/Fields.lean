import FaiVerif.Primitives.Integers
import FaiVerif.Primitives.Text

/-!
# Numeric fields

A field of a date or of a time is a number in base ten with zeros in front. It is read as its
number.
-/

namespace Fai.Datetime

open Machine64 Integers

/-- A number that is not negative, in base ten with zeros in front. -/
def field (width n : Nat) : List Char := Text.padStart width '0' (Nat.toDigits 10 n)

/-- A field is zeros and a number. -/
theorem field_eq (width n : Nat) : field width n =
    List.replicate (width - (Nat.toDigits 10 n).length) '0' ++ Nat.toDigits 10 n :=
  Text.padStart_eq width '0' _

/-- A field is digits. -/
theorem isDigit_of_mem_field {width n : Nat} {c : Char} (member : c ∈ field width n) :
    c.isDigit = true := by
  rw [field_eq, List.mem_append] at member
  rcases member with zero | digit
  · rw [(List.mem_replicate.mp zero).2]
    rfl
  · exact Nat.isDigit_of_mem_toDigits (by decide) (by decide) digit

/-- A field is digits. -/
theorem digits_field (width n : Nat) : digits (field width n) = true :=
  List.all_eq_true.mpr fun _ member => isDigit_of_mem_field member

/-- A field has a digit. -/
theorem field_ne_nil (width n : Nat) : field width n ≠ [] := by
  rw [field_eq]
  exact List.append_ne_nil_of_right_ne_nil _ Nat.toDigits_ne_nil

/-- A field has no sign. -/
theorem head_field (width n : Nat) : (field width n).head? ≠ some '-' := by
  intro sign
  have digit := isDigit_of_mem_field (List.mem_of_mem_head? (Option.mem_def.mpr sign))
  exact absurd digit (by decide)

/-- The number of a field. -/
theorem value_field (width n : Nat) : Nat.ofDigitChars 10 (field width n) 0 = n := by
  rw [field_eq, Nat.ofDigitChars_append, Nat.ofDigitChars_replicate_zero, Nat.mul_zero]
  exact Nat.ofDigitChars_ten_toDigits

/-- A field is as long as it has to be. -/
theorem le_length_field (width n : Nat) : width ≤ (field width n).length := by
  rw [field_eq, List.length_append, List.length_replicate]
  omega

/-- A field of a small number is no longer than it has to be. -/
theorem length_field {width n : Nat} (positive : 0 < width) (small : n < 10 ^ width) :
    (field width n).length = width := by
  have short := (Nat.length_toDigits_le_iff (by decide) positive).mpr small
  rw [field_eq, List.length_append, List.length_replicate]
  omega

/-- The field of a number of the machine. -/
theorem padStart_toString {x : Int64} (width : Nat) (nonneg : 0 ≤ x.toInt) :
    Text.padStart width '0' (Integers.toString x) = field width x.toInt.toNat := by
  have positive : ¬ x < 0 := by
    rw [Int64.lt_iff_toInt_lt]
    exact Int.not_lt.mpr nonneg
  have size : x.toInt.natAbs = x.toInt.toNat := by omega
  simp only [Integers.toString, if_neg positive, size, field]

/-- A field of four digits or more. -/
theorem padStart_four {x : Int64} (nonneg : 0 ≤ x.toInt) :
    Text.padStart 4 '0' (Integers.toString x) = field 4 x.toInt.toNat := padStart_toString 4 nonneg

/-- A field of two digits or more. -/
theorem padStart_two {x : Int64} (nonneg : 0 ≤ x.toInt) :
    Text.padStart 2 '0' (Integers.toString x) = field 2 x.toInt.toNat := padStart_toString 2 nonneg

/-- A field of nine digits or more. -/
theorem padStart_nine {x : Int64} (nonneg : 0 ≤ x.toInt) :
    Text.padStart 9 '0' (Integers.toString x) = field 9 x.toInt.toNat :=
  padStart_toString 9 nonneg

/-- A field is read as its number. -/
theorem fromString_field (width n : Nat) :
    fromString (field width n) = some (Int64.ofInt n) := by
  rw [fromString_unsigned (head_field width n),
    if_pos ⟨field_ne_nil width n, digits_field width n⟩, value_field]

/-- A field of a number of the machine is read as the number. -/
theorem fromString_toNat {x : Int64} (width : Nat) (nonneg : 0 ≤ x.toInt) :
    fromString (field width x.toInt.toNat) = some x := by
  rw [fromString_field, Int.toNat_of_nonneg nonneg, Int64.ofInt_toInt]

/-- A field with a sign before it is read as the number below zero. -/
theorem fromString_negative {x : Int64} (width : Nat) (n : Nat) (negative : x.toInt = -n) :
    fromString ('-' :: field width n) = some x := by
  rw [fromString_signed, if_pos ⟨field_ne_nil width n, digits_field width n⟩, value_field,
    ← negative, Int64.ofInt_toInt]

/-- The number that digits write. -/
def number (cs : List Char) : Nat := Nat.ofDigitChars 10 cs 0

/-- So many digits of ASCII. -/
def Numeral (width : Nat) (cs : List Char) : Prop := cs.length = width ∧ digits cs = true

/-- A minus sign before digits that write zero. -/
def SignedZero (cs : List Char) : Prop :=
  ∃ ds, cs = '-' :: ds ∧ ds ≠ [] ∧ digits ds = true ∧ number ds = 0

/-- The number of a field. -/
theorem number_field (width n : Nat) : number (field width n) = n := value_field width n

/-- A field of a small number has so many digits. -/
theorem numeral_field {width n : Nat} (positive : 0 < width) (small : n < 10 ^ width) :
    Numeral width (field width n) := ⟨length_field positive small, digits_field width n⟩

/-- So many digits write a number below the power of ten. -/
theorem number_lt {cs : List Char} (all : digits cs = true) : number cs < 10 ^ cs.length := by
  induction cs with
  | nil => decide
  | cons c cs hypothesis =>
    have split : c.isDigit = true ∧ digits cs = true := by simpa [digits] using all
    obtain ⟨low, high⟩ := (isDigit_iff c).mp split.1
    have rest := hypothesis split.2
    have zero : '0'.toNat = 48 := rfl
    have value : number (c :: cs) = 10 ^ cs.length * (c.toNat - 48) + number cs := by
      rw [number, Nat.ofDigitChars_cons, Nat.ofDigitChars_eq_ofDigitChars_zero, zero, Nat.mul_zero,
        Nat.zero_add, number]
    rw [value, List.length_cons, Nat.pow_succ]
    have most : 10 ^ cs.length * (c.toNat - 48) ≤ 10 ^ cs.length * 9 :=
      Nat.mul_le_mul_left _ (by omega)
    omega

/-- Digits are read as their number. -/
theorem fromString_numeral {width : Nat} {cs : List Char} (numeral : Numeral width cs)
    (positive : 0 < width) : fromString cs = some (Int64.ofInt (number cs)) := by
  have present : cs ≠ [] := by
    rintro rfl
    have empty := numeral.1
    simp only [List.length_nil] at empty
    omega
  have unsigned : cs.head? ≠ some '-' := by
    intro sign
    have member := List.mem_of_mem_head? (Option.mem_def.mpr sign)
    exact absurd (List.all_eq_true.mp numeral.2 _ member) (by decide)
  rw [fromString_unsigned unsigned, if_pos ⟨present, numeral.2⟩, number]

/-- What is read is digits, or a minus sign before digits. -/
theorem fromString_cases {cs : List Char} {v : Int64} (read : fromString cs = some v) :
    (cs ≠ [] ∧ digits cs = true ∧ v = Int64.ofInt (number cs)) ∨
      ∃ ds, cs = '-' :: ds ∧ ds ≠ [] ∧ digits ds = true ∧ v = Int64.ofInt (-number ds) := by
  by_cases sign : cs.head? = some '-'
  · obtain ⟨ds, rfl⟩ := List.head?_eq_some_iff.mp sign
    rw [fromString_signed] at read
    split_ifs at read with good
    · exact Or.inr ⟨ds, rfl, good.1, good.2, (Option.some.inj read).symm⟩
  · rw [fromString_unsigned sign] at read
    split_ifs at read with good
    · exact Or.inl ⟨good.1, good.2, (Option.some.inj read).symm⟩

/-- A short text that is read as a number from zero on is digits, unless it is a zero with a
sign. -/
theorem fromString_nonneg {cs : List Char} {v : Int64} (read : fromString cs = some v)
    (short : cs.length ≤ 18) (nonneg : 0 ≤ v.toInt) (unsigned : ¬ SignedZero cs) :
    cs ≠ [] ∧ digits cs = true ∧ v.toInt = number cs := by
  have limit {ds : List Char} (all : digits ds = true) (few : ds.length ≤ 18) :
      number ds < 2 ^ 63 := by
    have below := number_lt all
    have power := Nat.pow_le_pow_right (show 0 < 10 by decide) few
    omega
  rcases fromString_cases read with ⟨present, all, rfl⟩ | ⟨ds, rfl, present, all, rfl⟩
  · have small := limit all short
    exact ⟨present, all, toInt_ofInt ⟨by omega, by omega⟩⟩
  · have small := limit all (by rw [List.length_cons] at short; omega)
    rw [toInt_ofInt ⟨by omega, by omega⟩] at nonneg
    exact absurd ⟨ds, rfl, present, all, by omega⟩ unsigned

end Fai.Datetime
