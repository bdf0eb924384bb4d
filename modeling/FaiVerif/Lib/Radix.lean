import Mathlib.Data.List.Induction
import Mathlib.Tactic.Ring

/-!
# Numerals of a fixed length

A number below a power of a base and its digits, most significant first, determine each other. Two
bases that are powers of two regroup the same bits.
-/

namespace Fai.Radix

/-- The number that digits write, most significant first. -/
def value (base : Nat) (digits : List Nat) : Nat :=
  digits.foldl (fun number digit => number * base + digit) 0

/-- The last digits of a number, so many of them, most significant first. -/
def numeral (base : Nat) : Nat → Nat → List Nat
  | 0, _ => []
  | count + 1, number => number / base ^ count % base :: numeral base count number

variable {base : Nat}

/-- No digits write zero. -/
@[simp] theorem value_nil (base : Nat) : value base [] = 0 := rfl

/-- A last digit. -/
@[simp] theorem value_snoc (base : Nat) (digits : List Nat) (digit : Nat) :
    value base (digits ++ [digit]) = value base digits * base + digit := by
  simp [value]

/-- A first digit. -/
theorem value_cons (base digit : Nat) (digits : List Nat) :
    value base (digit :: digits) = digit * base ^ digits.length + value base digits := by
  induction digits using List.reverseRecOn with
  | nil => simp [value]
  | append_singleton digits last hypothesis =>
    rw [← List.cons_append, value_snoc, hypothesis, value_snoc, List.length_append]
    simp only [List.length_singleton, Nat.pow_succ]
    ring

/-- Digits after digits. -/
theorem value_append (base : Nat) (front back : List Nat) :
    value base (front ++ back) = value base front * base ^ back.length + value base back := by
  induction front with
  | nil => simp
  | cons digit front hypothesis =>
    rw [List.cons_append, value_cons, value_cons, hypothesis, List.length_append, Nat.pow_add]
    ring

/-- So many digits write a number below the power of the base. -/
theorem value_lt {digits : List Nat} (small : ∀ digit ∈ digits, digit < base) :
    value base digits < base ^ digits.length := by
  induction digits using List.reverseRecOn with
  | nil => simp
  | append_singleton digits last hypothesis =>
    have rest := hypothesis fun digit member => small digit (List.mem_append_left _ member)
    have final : last < base := small last (by simp)
    rw [value_snoc, List.length_append, List.length_singleton, Nat.pow_succ]
    have step : (value base digits + 1) * base ≤ base ^ digits.length * base :=
      Nat.mul_le_mul_right base rest
    rw [Nat.add_mul, Nat.one_mul] at step
    omega

/-- A numeral has the length asked for. -/
@[simp] theorem length_numeral (base count number : Nat) :
    (numeral base count number).length = count := by
  induction count with
  | zero => rfl
  | succ count hypothesis => simp [numeral, hypothesis]

/-- Digits are below the base. -/
theorem numeral_lt (positive : 0 < base) (count number : Nat) :
    ∀ digit ∈ numeral base count number, digit < base := by
  induction count with
  | zero => simp [numeral]
  | succ count hypothesis =>
    intro digit member
    rcases List.mem_cons.mp member with rfl | later
    · exact Nat.mod_lt _ positive
    · exact hypothesis digit later

/-- A numeral writes the number, up to its length. -/
theorem value_numeral (base count number : Nat) :
    value base (numeral base count number) = number % base ^ count := by
  induction count with
  | zero => simp [numeral, Nat.mod_one]
  | succ count hypothesis =>
    rw [numeral, value_cons, hypothesis, length_numeral, Nat.pow_succ, Nat.mod_mul]
    ring

/-- A numeral of a last digit and those before. -/
theorem numeral_snoc (base count number : Nat) :
    numeral base (count + 1) number = numeral base count (number / base) ++ [number % base] := by
  induction count with
  | zero => simp [numeral]
  | succ count hypothesis =>
    rw [numeral, hypothesis, numeral, List.cons_append, Nat.div_div_eq_div_mul, Nat.pow_succ,
      Nat.mul_comm base]

/-- Digits are the numeral of the number they write. -/
theorem numeral_value {digits : List Nat} (small : ∀ digit ∈ digits, digit < base) :
    numeral base digits.length (value base digits) = digits := by
  induction digits using List.reverseRecOn with
  | nil => rfl
  | append_singleton digits last hypothesis =>
    have final : last < base := small last (by simp)
    have positive : 0 < base := Nat.lt_of_le_of_lt (Nat.zero_le _) final
    rw [List.length_append, List.length_singleton, numeral_snoc, value_snoc,
      Nat.add_comm (value base digits * base), Nat.add_mul_div_right _ _ positive,
      Nat.div_eq_of_lt final, Nat.zero_add, Nat.add_mul_mod_self_right, Nat.mod_eq_of_lt final,
      hypothesis fun digit member => small digit (List.mem_append_left _ member)]

end Fai.Radix
