import Mathlib.Data.List.GetD
import Mathlib.Data.Nat.Digits.Lemmas
import Mathlib.Tactic.Ring
import Mathlib.Tactic.Linarith

/-!
# Little-endian numerals in an array

What reading, overwriting, cutting and extending an array of digits does to the number that it
writes. An array whose last digit is not zero is the numeral of its number.
-/

namespace Limbs

variable {b : Nat} {xs ys : List Nat} {i x : Nat}

/-- Every digit is below the base. -/
def Small (b : Nat) (xs : List Nat) : Prop := ∀ x ∈ xs, x < b

/-- No digits. -/
theorem small_nil : Small b [] := fun _ member => absurd member List.not_mem_nil

/-- Digits after digits. -/
theorem small_append (front : Small b xs) (back : Small b ys) : Small b (xs ++ ys) :=
  fun x member => (List.mem_append.mp member).elim (front x) (back x)

/-- A last digit. -/
theorem small_snoc (front : Small b xs) (last : x < b) : Small b (xs ++ [x]) :=
  small_append front fun _ member => List.mem_singleton.mp member ▸ last

/-- Zeros. -/
theorem small_replicate (positive : 0 < b) (n : Nat) : Small b (List.replicate n 0) :=
  fun _ member => (List.eq_of_mem_replicate member) ▸ positive

/-- Some of the digits. -/
theorem Small.take (small : Small b xs) (n : Nat) : Small b (xs.take n) :=
  fun x member => small x (List.mem_of_mem_take member)

/-- Overwriting a digit. -/
theorem Small.set (small : Small b xs) (below : x < b) (i : Nat) : Small b (xs.set i x) :=
  fun y member => (List.mem_or_eq_of_mem_set member).elim (small y) fun same => same ▸ below

/-- A digit, or zero beyond the last one. -/
theorem Small.getD_lt (small : Small b xs) (positive : 0 < b) (i : Nat) : xs.getD i 0 < b := by
  by_cases inside : i < xs.length
  · rw [List.getD_eq_getElem _ _ inside]
    exact small _ (List.getElem_mem inside)
  · rw [List.getD_eq_default _ _ (by omega)]
    exact positive

/-- The digits from a place on. -/
theorem ofDigits_drop (b : Nat) (xs : List Nat) (i : Nat) :
    Nat.ofDigits b (xs.drop i) = xs.getD i 0 + b * Nat.ofDigits b (xs.drop (i + 1)) := by
  by_cases inside : i < xs.length
  · rw [List.drop_eq_getElem_cons inside, Nat.ofDigits_cons, List.getD_eq_getElem _ _ inside]
  · rw [List.drop_of_length_le (by omega), List.drop_of_length_le (by omega),
      List.getD_eq_default _ _ (by omega)]
    simp

/-- The digits below a place, and the one there. -/
theorem ofDigits_take_succ (b : Nat) (inside : i < xs.length) :
    Nat.ofDigits b (xs.take (i + 1)) = Nat.ofDigits b (xs.take i) + b ^ i * xs[i] := by
  rw [List.take_succ_eq_append_getElem inside, Nat.ofDigits_append, List.length_take,
    Nat.min_eq_left (by omega), Nat.ofDigits_singleton]

/-- Overwriting a digit changes the number by the difference. -/
theorem ofDigits_set (b : Nat) (inside : i < xs.length) (x : Nat) :
    Nat.ofDigits b (xs.set i x) + b ^ i * xs[i] = Nat.ofDigits b xs + b ^ i * x := by
  have split : xs = xs.take i ++ xs[i] :: xs.drop (i + 1) := by
    rw [← List.drop_eq_getElem_cons inside, List.take_append_drop]
  have whole : Nat.ofDigits b xs = Nat.ofDigits b (xs.take i) +
      b ^ i * (xs[i] + b * Nat.ofDigits b (xs.drop (i + 1))) := by
    conv_lhs => rw [split]
    rw [Nat.ofDigits_append, List.length_take, Nat.min_eq_left (by omega), Nat.ofDigits_cons]
  rw [List.set_eq_take_append_cons_drop, if_pos inside, Nat.ofDigits_append, List.length_take,
    Nat.min_eq_left (by omega), Nat.ofDigits_cons, whole]
  ring

/-- Overwriting a zero adds the digit. -/
theorem ofDigits_set_zero (b : Nat) (zero : xs[i]? = some 0) (x : Nat) :
    Nat.ofDigits b (xs.set i x) = Nat.ofDigits b xs + b ^ i * x := by
  obtain ⟨inside, is⟩ := List.getElem?_eq_some_iff.mp zero
  have changed := ofDigits_set b inside x
  rw [is, Nat.mul_zero, Nat.add_zero] at changed
  exact changed

/-- Digits without a leading zero are the numeral of their number. -/
theorem eq_digits_of_last (many : 1 < b) (small : Small b xs)
    (last : ∀ some : xs ≠ [], xs.getLast some ≠ 0) : xs = Nat.digits b (Nat.ofDigits b xs) :=
  (Nat.digits_ofDigits b many xs small last).symm

/-- Digits whose number needs all of them are its numeral. -/
theorem eq_digits_of_le (many : 1 < b) (small : Small b xs)
    (needed : xs ≠ [] → b ^ (xs.length - 1) ≤ Nat.ofDigits b xs) :
    xs = Nat.digits b (Nat.ofDigits b xs) := by
  refine eq_digits_of_last many small fun some zero => ?_
  have split := (List.dropLast_append_getLast some).symm
  have number : Nat.ofDigits b xs = Nat.ofDigits b xs.dropLast := by
    conv_lhs => rw [split]
    rw [zero, Nat.ofDigits_append_zero]
  have bound : Nat.ofDigits b xs.dropLast < b ^ xs.dropLast.length :=
    Nat.ofDigits_lt_base_pow_length many fun x member =>
      small x (List.dropLast_subset xs member)
  have enough := needed some
  rw [List.length_dropLast] at bound
  omega

/-- A numeral has digits below the base. -/
theorem small_digits (many : 1 < b) (n : Nat) : Small b (Nat.digits b n) :=
  fun _ member => Nat.digits_lt_base many member

/-- A numeral of a number that is not zero needs all its digits. -/
theorem le_of_digits (many : 1 < b) {n : Nat} (positive : n ≠ 0) :
    b ^ ((Nat.digits b n).length - 1) ≤ n := by
  rw [← Nat.lt_digits_length_iff many]
  have some : Nat.digits b n ≠ [] := Nat.digits_ne_nil_iff_ne_zero.mpr positive
  have := List.length_pos_of_ne_nil some
  omega

/-- Digits below a place are less than the place is worth. -/
theorem ofDigits_take_lt (many : 1 < b) (small : Small b xs) (n : Nat) :
    Nat.ofDigits b (xs.take n) < b ^ n := by
  have bound := Nat.ofDigits_lt_base_pow_length many (small.take n)
  refine Nat.lt_of_lt_of_le bound (Nat.pow_le_pow_right (by omega) ?_)
  rw [List.length_take]
  omega

end Limbs
