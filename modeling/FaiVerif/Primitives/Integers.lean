import Mathlib.Data.List.Basic
import Mathlib.Tactic.Ring
import FaiVerif.Lib.Machine64
import FaiVerif.Lib.Utf8Bytes

/-!
# Integers

The operations of `std/primitives/Int.fai` that rest on the language's truncated division and
wrapping arithmetic: floored division, and the decimal text of a number.
-/

namespace Fai.Integers

open Machine64

section Floored

variable {α : Type} [Arithmetic α]

/-- The quotient rounded down. -/
def floorDiv (a b : α) : α :=
  let q := a / b
  let r := a % b
  if !same r 0 && (below r 0 != below b 0) then q - 1 else q

/-- The remainder of the quotient rounded down. -/
def floorMod (a b : α) : α :=
  let r := a % b
  if !same r 0 && (below r 0 != below b 0) then r + b else r

end Floored

/-- The size of a number; that of the smallest wraps to itself. -/
def abs (n : Int64) : Int64 := if n < 0 then 0 - n else n

/-- The number in base ten. -/
def toString (n : Int64) : List Char :=
  let digits := Nat.toDigits 10 n.toInt.natAbs
  if n < 0 then '-' :: digits else digits

/-- Reads digits up to the end, each with the sign; the sum wraps. -/
def parseDigitsFrom (acc sign : Int64) : List UInt8 → Option Int64
  | [] => some acc
  | byte :: bytes =>
    let digit := Int64.ofNat byte.toNat - 48
    if digit < 0 ∨ digit > 9 then none else parseDigitsFrom (acc * 10 + digit * sign) sign bytes

/-- Reads a number in base ten, with a sign before it if it is negative. -/
def fromString (s : List Char) : Option Int64 :=
  match Utf8.encode s with
  | [] => none
  | first :: bytes =>
    if first = 45 then if bytes = [] then none else parseDigitsFrom 0 (0 - 1) bytes
    else parseDigitsFrom 0 1 (first :: bytes)

/-- A quotient and a remainder rounded towards zero, made up for a negative remainder. -/
theorem floored (v : ℤ) {w : ℤ} (positive : 0 < w) :
    (v / w = if v.tmod w < 0 then v.tdiv w - 1 else v.tdiv w) ∧
      v % w = if v.tmod w < 0 then v.tmod w + w else v.tmod w := by
  have sum := Int.tmod_add_mul_tdiv v w
  have high := Int.tmod_lt_of_pos v positive
  have low : -w < v.tmod w := by
    have size := Int.natAbs_tmod v w
    have bound : v.natAbs % w.natAbs < w.natAbs := Nat.mod_lt _ (by omega)
    omega
  split_ifs with negative
  · rw [Int.ediv_emod_unique positive]
    refine ⟨?_, by omega, by omega⟩
    rw [Int.mul_sub, Int.mul_one]
    omega
  · rw [Int.ediv_emod_unique positive]
    exact ⟨sum, by omega, high⟩

section Computed

variable {x y : Int64} {c d : Checked} {v w : ℤ}

/-- Whether a quotient was rounded up, in either arithmetic. -/
theorem adjusts (left : Computes x c v) (right : Computes y d w) (positive : 0 < w) :
    (!same (x % y) 0 && (below (x % y) 0 != below y 0)) = decide (v.tmod w < 0) ∧
      (!same (c % d) 0 && (below (c % d) 0 != below d 0)) = decide (v.tmod w < 0) := by
  have remainder := left.mod right positive
  have zero : Computes 0 0 0 := Computes.literal 0 (by decide)
  have equal := remainder.same zero
  have negative := remainder.below zero
  have divisor := right.below zero
  have test : (!decide (v.tmod w = 0) && (decide (v.tmod w < 0) != decide (w < 0))) =
      decide (v.tmod w < 0) := by
    have above : decide (w < 0) = false := decide_eq_false (by omega)
    rw [above, Bool.bne_false, ← decide_not, ← Bool.decide_and, decide_eq_decide]
    omega
  exact ⟨by rw [equal.1, negative.1, divisor.1, test], by rw [equal.2, negative.2, divisor.2, test]⟩

/-- The floored quotient by a positive number. -/
theorem computes_floorDiv (left : Computes x c v) (right : Computes y d w) (positive : 0 < w) :
    Computes (floorDiv x y) (floorDiv c d) (v / w) := by
  have quotient := left.div right positive
  have one : Computes 1 1 1 := Computes.literal 1 (by decide)
  refine (Computes.branch (adjusts left right positive) (fun negative => quotient.sub one ?_)
    fun _ => quotient).cast (floored v positive).1.symm
  have inside := left.fits
  have value := (floored v positive).1
  rw [if_pos negative] at value
  have smaller := Int.natAbs_ediv_le_natAbs v w
  have sign : v < 0 → v / w < 0 := fun below => Int.ediv_neg_of_neg_of_pos below positive
  rw [← value]
  exact ⟨by have := inside.1; have := inside.2; omega,
    by have := inside.1; have := inside.2; omega⟩

/-- The floored remainder by a positive number. -/
theorem computes_floorMod (left : Computes x c v) (right : Computes y d w) (positive : 0 < w) :
    Computes (floorMod x y) (floorMod c d) (v % w) := by
  have remainder := left.mod right positive
  refine (Computes.branch (adjusts left right positive) (fun negative => remainder.add right ?_)
    fun _ => remainder).cast (floored v positive).2.symm
  have low := remainder.fits
  have high := right.fits
  exact ⟨by have := low.1; omega, by have := high.2; omega⟩

end Computed

/-- A byte that is not a digit of ASCII is refused. -/
theorem refused_byte {byte : UInt8} (other : byte.toNat < 48 ∨ 57 < byte.toNat) :
    Int64.ofNat byte.toNat - 48 < 0 ∨ Int64.ofNat byte.toNat - 48 > 9 := by
  have small := byte.toNat_lt
  have number : (Int64.ofNat byte.toNat).toInt = byte.toNat := Int64.toInt_ofNat_of_lt (by omega)
  have digit : (Int64.ofNat byte.toNat - 48).toInt = byte.toNat - 48 := by
    rw [Int64.toInt_sub, number]
    exact bmod_of_fits ⟨by show _ ≤ (byte.toNat : ℤ) - 48; omega,
      by show (byte.toNat : ℤ) - 48 < _; omega⟩
  rw [gt_iff_lt, Int64.lt_iff_toInt_lt, Int64.lt_iff_toInt_lt, digit]
  show (byte.toNat : ℤ) - 48 < 0 ∨ 9 < (byte.toNat : ℤ) - 48
  omega

/-- The value of a digit of ASCII. -/
theorem accepted_byte (byte : UInt8) (low : 48 ≤ byte.toNat) (high : byte.toNat ≤ 57) :
    ¬ (Int64.ofNat byte.toNat - 48 < 0 ∨ Int64.ofNat byte.toNat - 48 > 9) ∧
      Int64.ofNat byte.toNat - 48 = Int64.ofInt ((byte.toNat - 48 : Nat) : ℤ) := by
  have number : (Int64.ofNat byte.toNat).toInt = byte.toNat := Int64.toInt_ofNat_of_lt (by omega)
  have digit : (Int64.ofNat byte.toNat - 48).toInt = byte.toNat - 48 := by
    rw [Int64.toInt_sub, number]
    exact bmod_of_fits ⟨by show _ ≤ (byte.toNat : ℤ) - 48; omega,
      by show (byte.toNat : ℤ) - 48 < _; omega⟩
  refine ⟨?_, ?_⟩
  · rw [gt_iff_lt, Int64.lt_iff_toInt_lt, Int64.lt_iff_toInt_lt, digit]
    show ¬ ((byte.toNat : ℤ) - 48 < 0 ∨ 9 < (byte.toNat : ℤ) - 48)
    omega
  · rw [← Int64.toInt_inj, digit, toInt_ofInt ⟨by omega, by omega⟩]
    omega

/-- The characters of a number in base ten. -/
def digits (s : List Char) : Bool := s.all Char.isDigit

/-- The codes of the digits. -/
theorem isDigit_iff (c : Char) : c.isDigit = true ↔ 48 ≤ c.toNat ∧ c.toNat ≤ 57 := by
  have code : c.toNat = c.val.toNat := rfl
  rw [code]
  simp only [Char.isDigit, Bool.and_eq_true, decide_eq_true_eq, ge_iff_le, UInt32.le_iff_toNat_le]
  rfl

/-- The first byte of a character is its code within ASCII, and beyond ASCII otherwise. -/
theorem first_byte (c : Char) : ∃ byte bytes, String.utf8EncodeChar c = byte :: bytes ∧
    (c.toNat ≤ 127 ∧ byte.toNat = c.toNat ∨ 127 < c.toNat ∧ 127 < byte.toNat) := by
  by_cases ascii : c.toNat ≤ 127
  · refine ⟨_, _, Utf8.utf8EncodeChar_ascii ascii, Or.inl ⟨ascii, ?_⟩⟩
    exact Utf8.toNat_ofNat_byte (by omega)
  · have above : 127 < c.toNat := by omega
    cases bytes : String.utf8EncodeChar c with
    | nil => exact absurd bytes String.utf8EncodeChar_ne_nil
    | cons byte rest =>
      have beyond := Utf8.utf8EncodeChar_beyond above byte (by rw [bytes]; simp)
      exact ⟨byte, rest, rfl, Or.inr ⟨above, beyond⟩⟩

/-- Digits are read as their number, and nothing else is read. -/
theorem parseDigitsFrom_encode (sign : ℤ) (s : List Char) (value : Nat) :
    parseDigitsFrom (Int64.ofInt (sign * value)) (Int64.ofInt sign) (Utf8.encode s) =
      if digits s then some (Int64.ofInt (sign * Nat.ofDigitChars 10 s value)) else none := by
  induction s generalizing value with
  | nil => rfl
  | cons c s hypothesis =>
    rw [Utf8.encode_cons]
    by_cases digit : c.isDigit = true
    · obtain ⟨low, high⟩ := (isDigit_iff c).mp digit
      have code : (UInt8.ofNat c.toNat).toNat = c.toNat := Utf8.toNat_ofNat_byte (by omega)
      obtain ⟨accepted, number⟩ := accepted_byte (UInt8.ofNat c.toNat) (by omega)
        (by omega)
      have both : digits (c :: s) = digits s := by simp [digits, digit]
      have sum : Int64.ofInt (sign * value) * 10 + Int64.ofInt ((c.toNat - 48 : Nat) : ℤ) *
          Int64.ofInt sign = Int64.ofInt (sign * ((10 * value + (c.toNat - 48) : Nat) : ℤ)) := by
        have ten : (10 : Int64) = Int64.ofInt 10 := rfl
        rw [ten, ← Int64.ofInt_mul, ← Int64.ofInt_mul, ← Int64.ofInt_add]
        congr 1
        push_cast
        ring
      rw [Utf8.utf8EncodeChar_ascii (by omega), List.singleton_append, parseDigitsFrom,
        if_neg accepted, number, code, sum, hypothesis, both, Nat.ofDigitChars_cons]
      rfl
    · have both : digits (c :: s) = false := by simp [digits, digit]
      obtain ⟨byte, bytes, encoded, code⟩ := first_byte c
      rw [isDigit_iff] at digit
      have other : byte.toNat < 48 ∨ 57 < byte.toNat := by omega
      rw [encoded, List.cons_append, parseDigitsFrom, if_pos (refused_byte other), both]
      rfl

/-- A text without a sign is read when it is digits. -/
theorem fromString_unsigned {s : List Char} (unsigned : s.head? ≠ some '-') :
    fromString s =
      if s ≠ [] ∧ digits s = true then some (Int64.ofInt (Nat.ofDigitChars 10 s 0)) else none := by
  cases s with
  | nil => rfl
  | cons c s =>
    have read := parseDigitsFrom_encode 1 (c :: s) 0
    have start : Int64.ofInt (1 * ((0 : Nat) : ℤ)) = 0 := rfl
    have sign : Int64.ofInt 1 = 1 := rfl
    rw [start, sign, Int.one_mul] at read
    obtain ⟨byte, bytes, encoded, code⟩ := first_byte c
    have first : byte ≠ 45 := by
      intro same
      rw [same] at code
      have dash : c.toNat = '-'.toNat := by
        have value : (45 : UInt8).toNat = 45 := rfl
        show c.toNat = 45
        omega
      exact unsigned (by rw [Char.toNat_inj.mp dash]; rfl)
    rw [Utf8.encode_cons, encoded, List.cons_append] at read
    unfold fromString
    rw [Utf8.encode_cons, encoded, List.cons_append]
    simp only [if_neg first, read]
    simp

/-- A text with a sign is read when digits follow it. -/
theorem fromString_signed (s : List Char) :
    fromString ('-' :: s) =
      if s ≠ [] ∧ digits s = true then some (Int64.ofInt (-Nat.ofDigitChars 10 s 0)) else none := by
  have read := parseDigitsFrom_encode (-1) s 0
  have start : Int64.ofInt (-1 * ((0 : Nat) : ℤ)) = 0 := rfl
  have sign : Int64.ofInt (-1) = 0 - 1 := rfl
  rw [start, sign, Int.neg_one_mul] at read
  have encoded : Utf8.encode ('-' :: s) = 45 :: Utf8.encode s := Utf8.encode_cons '-' s
  have empty : Utf8.encode s = [] ↔ s = [] := by
    constructor
    · exact fun none => Utf8.encode_injective none
    · rintro rfl
      rfl
  unfold fromString
  rw [encoded]
  simp only [if_true, empty]
  by_cases present : s = []
  · simp [present]
  · rw [if_neg present, read]
    simp [present]

end Fai.Integers
