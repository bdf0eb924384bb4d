import FaiVerif.Decimal.Natural
import FaiVerif.Lib.Limbs

/-!
# Arithmetic on limbs is exact

Every operation takes the limbs of numbers to the limbs of the result. No machine integer on the way
leaves 64 bits, and no index leaves its list.
-/

namespace Fai.Decimal.Natural

open Limbs

/-- The limbs of a number, without a leading zero. -/
def limbs (n : Nat) : List Nat := Nat.digits base n

/-- The number that limbs write. -/
def value (xs : List Nat) : Nat := Nat.ofDigits base xs

/-- A base has at least two digits. -/
theorem one_lt_base : 1 < base := by decide

/-- The base is positive. -/
theorem base_pos : 0 < base := by decide

/-- Limbs are below the base. -/
theorem small_limbs (n : Nat) : Small base (limbs n) := small_digits one_lt_base n

/-- Limbs write their number. -/
theorem value_limbs (n : Nat) : value (limbs n) = n := Nat.ofDigits_digits base n

/-- Zero has no limbs. -/
theorem limbs_zero : limbs 0 = [] := Nat.digits_zero base

/-- A number that is not zero has limbs. -/
theorem limbs_eq_nil_iff {n : Nat} : limbs n = [] ↔ n = 0 := Nat.digits_eq_nil_iff_eq_zero

/-- A number that is not zero has a limb. -/
theorem length_limbs_pos {n : Nat} (positive : n ≠ 0) : 0 < (limbs n).length := by
  apply List.length_pos_of_ne_nil
  exact fun none => positive (limbs_eq_nil_iff.mp none)

/-- Limbs of zero. -/
theorem isZero_limbs (n : Nat) : isZero (limbs n) = decide (n = 0) := by
  rw [isZero, Bool.eq_iff_iff, List.isEmpty_iff, limbs_eq_nil_iff, decide_eq_true_eq]

/-- A number below the base is one limb. -/
theorem limbs_of_lt {n : Nat} (positive : n ≠ 0) (below : n < base) : limbs n = [n] :=
  Nat.digits_of_lt base n positive below

/-- A number with a last limb below. -/
theorem limbs_add_mul {x n : Nat} (below : x < base) (some : x ≠ 0 ∨ n ≠ 0) :
    limbs (x + base * n) = x :: limbs n := by
  exact Nat.digits_add base one_lt_base x n below some

/-- A number is below the power of the base for its limbs. -/
theorem lt_pow_length_limbs (n : Nat) : n < base ^ (limbs n).length :=
  Nat.lt_base_pow_length_digits one_lt_base

/-- A number that is not zero needs all its limbs. -/
theorem pow_length_limbs_le {n : Nat} (positive : n ≠ 0) : base ^ ((limbs n).length - 1) ≤ n :=
  le_of_digits one_lt_base positive

/-- A machine integer below the square of the base fits. -/
theorem word_eq {n : Nat} (below : n < base * base) : word n = some n := by
  have bound : base * base < 9223372036854775808 := by decide
  rw [word, if_pos (by omega)]

/-- Reading a limb or zero. -/
theorem limb_eq (xs : List Nat) (index : Nat) : limb xs index = xs.getD index 0 := by
  rw [limb]
  by_cases inside : index < xs.length
  · rw [if_pos inside]
  · rw [if_neg inside, List.getD_eq_default _ _ (by omega)]

/-- Reading inside a list. -/
theorem unsafeGet_eq {xs : List Nat} {index : Nat} (inside : index < xs.length) :
    unsafeGet index xs = some (xs.getD index 0) := by
  rw [unsafeGet, List.getElem?_eq_getElem inside, List.getD_eq_getElem _ _ inside]

/-- Writing inside a list. -/
theorem unsafeSet_eq {xs : List Nat} {index : Nat} (inside : index < xs.length) (x : Nat) :
    unsafeSet index x xs = some (xs.set index x) := if_pos inside

/-- No limbs. -/
theorem value_nil : value [] = 0 := Nat.ofDigits_nil

/-- No limbs are left. -/
theorem value_drop_length {xs : List Nat} {index : Nat} (outside : xs.length ≤ index) :
    value (xs.drop index) = 0 := by
  rw [List.drop_of_length_le outside, value_nil]

/-- Zeros write zero. -/
theorem value_zeros (n : Nat) : value (List.replicate n 0) = 0 := Nat.ofDigits_replicate_zero

/-- One more limb at the end of the first ones. -/
theorem value_take_succ {xs : List Nat} {index : Nat} (inside : index < xs.length) :
    value (xs.take (index + 1)) =
      value (xs.take index) + base ^ index * xs.getD index 0 := by
  rw [List.getD_eq_getElem _ _ inside]
  exact ofDigits_take_succ base inside

/-- The limbs from an index on. -/
theorem value_drop (xs : List Nat) (index : Nat) :
    value (xs.drop index) = xs.getD index 0 + base * value (xs.drop (index + 1)) :=
  ofDigits_drop base xs index

/-- A last limb. -/
theorem value_snoc (xs : List Nat) (x : Nat) :
    value (xs ++ [x]) = value xs + base ^ xs.length * x := by
  rw [value, Nat.ofDigits_append, Nat.ofDigits_singleton]
  rfl

section Trim

/-- The limbs up to the last one that is not zero. -/
theorem lastNonzero_eq {xs : List Nat} (count : Nat) (inside : count ≤ xs.length) :
    ∃ kept, lastNonzero xs count = some kept ∧ kept ≤ count ∧
      value (xs.take kept) = value (xs.take count) ∧ (kept ≠ 0 → xs.getD (kept - 1) 0 ≠ 0) := by
  induction count with
  | zero => exact ⟨0, rfl, Nat.le_refl 0, rfl, fun no => absurd rfl no⟩
  | succ count hypothesis =>
    rw [lastNonzero, unsafeGet_eq inside]
    by_cases zero : xs.getD count 0 = 0
    · obtain ⟨kept, found, less, same, last⟩ := hypothesis (by omega)
      refine ⟨kept, ?_, by omega, ?_, last⟩
      · show (if xs.getD count 0 ≠ 0 then some (count + 1) else lastNonzero xs count) = _
        rw [if_neg (not_not.mpr zero), found]
      · rw [same, value_take_succ inside, zero, Nat.mul_zero, Nat.add_zero]
    · refine ⟨count + 1, ?_, Nat.le_refl _, rfl, fun _ => zero⟩
      show (if xs.getD count 0 ≠ 0 then some (count + 1) else lastNonzero xs count) = _
      rw [if_pos zero]

/-- Trimming leaves the limbs of the number. -/
theorem trim_eq {xs : List Nat} (small : Small base xs) : trim xs = some (limbs (value xs)) := by
  obtain ⟨kept, found, less, same, last⟩ := @lastNonzero_eq xs xs.length (Nat.le_refl _)
  rw [List.take_length] at same
  rw [trim, found]
  show some (xs.take kept) = _
  rw [← same]
  have canonical := eq_digits_of_last one_lt_base (small.take kept) fun some => ?_
  · exact congrArg some canonical
  · have positive : kept ≠ 0 := by
      rintro rfl
      exact some rfl
    have length : (xs.take kept).length = kept := by
      rw [List.length_take]
      omega
    have top := last positive
    rw [List.getD_eq_getElem _ _ (by omega)] at top
    rw [List.getLast_eq_getElem, List.getElem_take]
    simp only [length]
    exact top

end Trim

section Compare

/-- Limbs compared from the last one down. -/
theorem compareFrom_eq {xs ys : List Nat} (small : Small base xs) (small' : Small base ys)
    (count : Nat) (inside : count ≤ xs.length) (inside' : count ≤ ys.length) :
    ∃ order, compareFrom xs ys count = some order ∧
      (order < 0 ↔ value (xs.take count) < value (ys.take count)) ∧
      (order ≤ 0 ↔ value (xs.take count) ≤ value (ys.take count)) := by
  induction count with
  | zero => exact ⟨0, rfl, by simp, by simp⟩
  | succ count hypothesis =>
    have first := @value_take_succ xs count inside
    have second := @value_take_succ ys count inside'
    have below : value (xs.take count) < base ^ count := ofDigits_take_lt one_lt_base small count
    have below' : value (ys.take count) < base ^ count := ofDigits_take_lt one_lt_base small' count
    have apart {x y : Nat} (less : x < y) : base ^ count * x + base ^ count ≤ base ^ count * y := by
      have := Nat.mul_le_mul_left (base ^ count) less
      rwa [Nat.mul_succ] at this
    rw [compareFrom, unsafeGet_eq inside, unsafeGet_eq inside']
    show ∃ order, (if xs.getD count 0 < ys.getD count 0 then some (-1) else
      if xs.getD count 0 > ys.getD count 0 then some 1
      else compareFrom xs ys count) = some order ∧ _
    rw [first, second]
    by_cases less : xs.getD count 0 < ys.getD count 0
    · have := apart less
      exact ⟨-1, if_pos less, by omega, by omega⟩
    · by_cases more : ys.getD count 0 < xs.getD count 0
      · have := apart more
        exact ⟨1, by rw [if_neg less, if_pos more], by omega, by omega⟩
      · obtain ⟨order, found, strict, weak⟩ := hypothesis (by omega) (by omega)
        have same : xs.getD count 0 = ys.getD count 0 := by omega
        refine ⟨order, by rw [if_neg less, if_neg more, found], ?_, ?_⟩
        · rw [strict, same]
          omega
        · rw [weak, same]
          omega

/-- Limbs are compared like their numbers. -/
theorem compareMagnitude_eq (m n : Nat) : ∃ order,
    compareMagnitude (limbs m) (limbs n) = some order ∧
      (order < 0 ↔ m < n) ∧ (order ≤ 0 ↔ m ≤ n) := by
  have shorter {x y : Nat} (less : (limbs x).length < (limbs y).length) : x < y := by
    have positive : y ≠ 0 := by
      rintro rfl
      rw [limbs_zero] at less
      exact absurd less (Nat.not_lt_zero _)
    have upper := lt_pow_length_limbs x
    have lower := pow_length_limbs_le positive
    have ascends : base ^ (limbs x).length ≤ base ^ ((limbs y).length - 1) :=
      Nat.pow_le_pow_right base_pos (by omega)
    omega
  rw [compareMagnitude]
  by_cases less : (limbs m).length < (limbs n).length
  · have := shorter less
    exact ⟨-1, if_pos less, by omega, by omega⟩
  · by_cases more : (limbs n).length < (limbs m).length
    · have := shorter more
      exact ⟨1, by rw [if_neg less, if_pos more], by omega, by omega⟩
    · have same : (limbs m).length = (limbs n).length := by omega
      obtain ⟨order, found, strict, weak⟩ := compareFrom_eq (small_limbs m) (small_limbs n)
        (limbs m).length (Nat.le_refl _) (by omega)
      rw [List.take_length, same, List.take_length, value_limbs, value_limbs] at strict weak
      exact ⟨order, by rw [if_neg less, if_neg more, found], strict, weak⟩

end Compare

section Add

/-- Addition, from an index on. -/
theorem addFrom_eq {xs ys : List Nat} (small : Small base xs) (small' : Small base ys)
    (left index carry : Nat) (output : List Nat) (length : output.length = index)
    (done : Small base output) (bit : carry ≤ 1) (within : xs.length ≤ index + left)
    (within' : ys.length ≤ index + left) :
    ∃ out, addFrom xs ys index left carry output = some out ∧ Small base out ∧
      value out = value output +
        base ^ index * (carry + value (xs.drop index) + value (ys.drop index)) ∧
      (out.length = index + left ∨ ∃ front, out = front ++ [1]) := by
  induction left generalizing index carry output with
  | zero =>
    have none : value (xs.drop index) = 0 := value_drop_length (by omega)
    have none' : value (ys.drop index) = 0 := value_drop_length (by omega)
    rw [addFrom, none, none', Nat.add_zero, Nat.add_zero]
    by_cases zero : carry = 0
    · refine ⟨output, by rw [if_pos zero], done, ?_, .inl (by omega)⟩
      rw [zero, Nat.mul_zero, Nat.add_zero]
    · have one : carry = 1 := by omega
      refine ⟨output ++ [carry], by rw [if_neg zero], ?_, ?_, .inr ⟨output, by rw [one]⟩⟩
      · apply small_snoc done
        rw [one]
        exact one_lt_base
      · rw [value_snoc, length]
  | succ left hypothesis =>
    have low := small.getD_lt base_pos index
    have low' := small'.getD_lt base_pos index
    have fits : word (limb xs index + limb ys index + carry) =
        some (xs.getD index 0 + ys.getD index 0 + carry) := by
      rw [limb_eq, limb_eq]
      apply word_eq
      have : base + base + 1 < base * base := by decide
      omega
    rw [addFrom, fits]
    have digit : (xs.getD index 0 + ys.getD index 0 + carry) % base < base := Nat.mod_lt _ base_pos
    have bit' : (xs.getD index 0 + ys.getD index 0 + carry) / base ≤ 1 := by
      rw [base] at low low' ⊢
      omega
    obtain ⟨out, run, small'', number, last⟩ := hypothesis (index + 1) _ (output ++ [_])
      (by rw [List.length_append, length]; rfl) (small_snoc done digit) bit' (by omega) (by omega)
    refine ⟨out, run, small'', ?_, ?_⟩
    · have split := Nat.mod_add_div (xs.getD index 0 + ys.getD index 0 + carry) base
      rw [number, value_snoc, length, value_drop xs index, value_drop ys index, Nat.pow_succ]
      calc _ = value output + base ^ index *
            ((xs.getD index 0 + ys.getD index 0 + carry) % base +
              base * ((xs.getD index 0 + ys.getD index 0 + carry) / base) +
              base * value (xs.drop (index + 1)) + base * value (ys.drop (index + 1))) := by ring
        _ = _ := by
          rw [split]
          ring
    · rcases last with plain | carried
      · exact .inl (by omega)
      · exact .inr carried

/-- Addition. -/
theorem add_eq (m n : Nat) : add (limbs m) (limbs n) = some (limbs (m + n)) := by
  have longest : (limbs m).length ≤ max (limbs m).length (limbs n).length := by omega
  have count : (if (limbs m).length > (limbs n).length then (limbs m).length
      else (limbs n).length) = max (limbs m).length (limbs n).length := by
    split_ifs <;> omega
  obtain ⟨out, run, small, number, last⟩ := addFrom_eq (small_limbs m) (small_limbs n)
    (max (limbs m).length (limbs n).length) 0 0 [] rfl small_nil (by omega) (by omega) (by omega)
  have total : value out = m + n := by
    rw [number, List.drop_zero, List.drop_zero, value_limbs, value_limbs]
    simp [value]
  rw [add, count, run, ← total]
  apply congrArg some
  rcases last with plain | ⟨front, carried⟩
  · refine eq_digits_of_le one_lt_base small fun filled => ?_
    have positive := List.length_pos_of_ne_nil filled
    show base ^ (out.length - 1) ≤ value out
    rw [total, plain, Nat.zero_add]
    have each {x y : Nat} (longer : (limbs y).length ≤ (limbs x).length)
        (some : 0 < (limbs x).length) : base ^ ((limbs x).length - 1) ≤ x := by
      apply pow_length_limbs_le
      rintro rfl
      rw [limbs_zero] at some
      exact absurd some (Nat.lt_irrefl 0)
    by_cases more : (limbs n).length ≤ (limbs m).length
    · rw [Nat.max_eq_left more]
      have := each more (by omega)
      omega
    · rw [Nat.max_eq_right (by omega)]
      have := @each n m (by omega) (by omega)
      omega
  · refine eq_digits_of_last one_lt_base small fun some zero => ?_
    rw [List.getLast_congr _ (by simp) carried] at zero
    simp at zero

end Add

section Subtract

/-- One limb of a difference, and what is borrowed from the next one. -/
theorem sub_limb {x y borrow : Nat} (low : x < base) (low' : y < base) (bit : borrow ≤ 1) :
    ∃ (difference : Int) (digit next : Nat), signedWord (x - y - borrow) = some difference ∧
      wordLimb (if difference < 0 then difference + base else difference) = some digit ∧
      (if difference < 0 then 1 else 0) = next ∧ digit < base ∧ next ≤ 1 ∧
      digit + y + borrow = x + base * next := by
  have size : base = 1000000000 := rfl
  have fits : signedWord ((x : Int) - y - borrow) = some ((x : Int) - y - borrow) :=
    if_pos (by omega)
  have limb {n : Nat} (small : n < base) : wordLimb n = some n := by
    rw [wordLimb, if_neg (by omega), Int.toNat_natCast, word, if_pos (by omega)]
  by_cases negative : (x : Int) - y - borrow < 0
  · have written : (x : Int) - y - borrow + base = ((x + base - y - borrow : Nat) : Int) := by omega
    refine ⟨_, x + base - y - borrow, 1, fits, ?_, if_pos negative, by omega, Nat.le_refl 1,
      by omega⟩
    rw [if_pos negative, written]
    exact limb (by omega)
  · have written : (x : Int) - y - borrow = ((x - y - borrow : Nat) : Int) := by omega
    refine ⟨_, x - y - borrow, 0, fits, ?_, if_neg negative, by omega, Nat.zero_le 1, by omega⟩
    rw [if_neg negative, written]
    exact limb (by omega)

/-- Subtraction, from an index on. -/
theorem subFrom_eq {xs ys : List Nat} (small : Small base xs) (small' : Small base ys)
    (left index borrow : Nat) (output : List Nat) (length : output.length = index)
    (done : Small base output) (bit : borrow ≤ 1) (within : index + left = xs.length)
    (less : borrow + value (ys.drop index) ≤ value (xs.drop index)) :
    ∃ difference, subFrom xs ys index left borrow output = some (limbs difference) ∧
      difference + base ^ index * (borrow + value (ys.drop index)) =
        value output + base ^ index * value (xs.drop index) := by
  induction left generalizing index borrow output with
  | zero =>
    have none : value (xs.drop index) = 0 := value_drop_length (by omega)
    rw [none] at less
    have zero : borrow + value (ys.drop index) = 0 := by omega
    exact ⟨value output, trim_eq done, by rw [zero, none]⟩
  | succ left hypothesis =>
    have low := small.getD_lt base_pos index
    have low' := small'.getD_lt base_pos index
    rw [value_drop xs index, value_drop ys index] at less ⊢
    rw [subFrom, unsafeGet_eq (by omega)]
    obtain ⟨difference, digit, next, fits, fits', isNext, below, bit', balance⟩ :=
      sub_limb low low' bit
    have less' : next + value (ys.drop (index + 1)) ≤ value (xs.drop (index + 1)) := by
      have : base * (next + value (ys.drop (index + 1))) <
          base * (value (xs.drop (index + 1)) + 1) := by
        rw [Nat.mul_add, Nat.mul_succ]
        omega
      have := Nat.lt_of_mul_lt_mul_left this
      omega
    obtain ⟨whole, run, total⟩ := hypothesis (index + 1) next (output ++ [digit])
      (by rw [List.length_append, length]; rfl) (small_snoc done below) bit' (by omega) less'
    refine ⟨whole, ?_, ?_⟩
    · show (signedWord _).bind _ = _
      rw [limb_eq, fits]
      show (wordLimb _).bind _ = _
      rw [fits', isNext]
      exact run
    · rw [value_snoc, length, Nat.pow_succ] at total
      have scaled := congrArg (base ^ index * ·) balance
      linarith

/-- Subtraction of a number that is not larger. -/
theorem subtract_eq {m n : Nat} (less : n ≤ m) :
    subtract (limbs m) (limbs n) = some (limbs (m - n)) := by
  obtain ⟨difference, run, total⟩ := subFrom_eq (small_limbs m) (small_limbs n) (limbs m).length 0 0
    [] rfl small_nil (by omega) (by omega)
    (by rw [List.drop_zero, List.drop_zero, value_limbs, value_limbs]; omega)
  rw [List.drop_zero, List.drop_zero, value_limbs, value_limbs] at total
  simp only [Nat.pow_zero, Nat.one_mul, Nat.zero_add] at total
  rw [value_nil] at total
  have same : difference = m - n := by omega
  rw [subtract, run, same]

end Subtract

section Multiply

/-- Multiplication by a factor, from an index on. -/
theorem smallFrom_eq {xs : List Nat} (small : Small base xs) {factor : Nat}
    (bounded : factor ≤ base) (left index carry : Nat) (output : List Nat)
    (length : output.length = index) (done : Small base output) (rest : carry < base)
    (rest' : carry ≤ factor) (within : index + left = xs.length) :
    ∃ product, smallFrom xs factor index left carry output = some (limbs product) ∧
      product = value output + base ^ index * (carry + value (xs.drop index) * factor) := by
  induction left generalizing index carry output with
  | zero =>
    have none : value (xs.drop index) = 0 := value_drop_length (by omega)
    rw [smallFrom, none, Nat.zero_mul, Nat.add_zero]
    by_cases zero : carry = 0
    · refine ⟨value output, by rw [if_pos zero, trim_eq done], ?_⟩
      rw [zero, Nat.mul_zero, Nat.add_zero]
    · refine ⟨value (output ++ [carry]), ?_, by rw [value_snoc, length]⟩
      rw [if_neg zero]
      apply congrArg some
      refine eq_digits_of_last one_lt_base (small_snoc done rest) fun some => ?_
      rwa [List.getLast_append_singleton]
  | succ left hypothesis =>
    have low := small.getD_lt base_pos index
    have most : xs.getD index 0 * factor ≤ (base - 1) * factor :=
      Nat.mul_le_mul_right factor (by omega)
    have most' : (base - 1) * factor ≤ (base - 1) * base := Nat.mul_le_mul_left _ bounded
    have square : (base - 1) * base + base = base * base := by decide
    have fits : word (xs.getD index 0 * factor + carry) =
        some (xs.getD index 0 * factor + carry) := word_eq (by omega)
    have carried : (xs.getD index 0 * factor + carry) / base < base :=
      Nat.div_lt_of_lt_mul (by omega)
    have carried' : (xs.getD index 0 * factor + carry) / base ≤ factor := by
      apply Nat.le_of_lt_succ
      apply Nat.div_lt_of_lt_mul
      have parts : base * (factor + 1) = (base - 1) * factor + factor + base := by
        show 1000000000 * (factor + 1) = 999999999 * factor + factor + 1000000000
        omega
      rw [parts]
      omega
    have digit : (xs.getD index 0 * factor + carry) % base < base := Nat.mod_lt _ base_pos
    obtain ⟨product, run, total⟩ := hypothesis (index + 1) _ (output ++ [_])
      (by rw [List.length_append, length]; rfl) (small_snoc done digit) carried carried' (by omega)
    refine ⟨product, ?_, ?_⟩
    · rw [smallFrom, unsafeGet_eq (by omega)]
      show (word (xs.getD index 0 * factor + carry)).bind _ = _
      rw [fits]
      exact run
    · have split := Nat.mod_add_div (xs.getD index 0 * factor + carry) base
      rw [value_snoc, length, Nat.pow_succ] at total
      rw [total, value_drop xs index]
      calc _ = value output + base ^ index *
            ((xs.getD index 0 * factor + carry) % base +
              base * ((xs.getD index 0 * factor + carry) / base) +
              base * value (xs.drop (index + 1)) * factor) := by ring
        _ = _ := by
          rw [split]
          ring

/-- Multiplication by a number that is at most the base. -/
theorem multiplySmall_eq (n : Nat) {factor : Nat} (bounded : factor ≤ base) :
    multiplySmall (limbs n) factor = some (limbs (n * factor)) := by
  obtain ⟨product, run, total⟩ := smallFrom_eq (small_limbs n) bounded (limbs n).length 0 0 [] rfl
    small_nil base_pos (Nat.zero_le _) (by omega)
  rw [List.drop_zero, value_limbs, value_nil, Nat.pow_zero, Nat.one_mul, Nat.zero_add,
    Nat.zero_add] at total
  rw [multiplySmall, run, total]

/-- A row of the product of two numbers, from an index on. -/
theorem productRow_eq {xs ys : List Nat} (small : Small base xs) (small' : Small base ys)
    {i : Nat} (row : i < xs.length) (left j carry : Nat) (output : List Nat)
    (done : Small base output) (rest : carry < base) (within : j + left = ys.length)
    (room : i + ys.length < output.length) (zero : output[i + ys.length]? = some 0) :
    ∃ out, productRow xs ys i j left carry output = some out ∧ Small base out ∧
      out.length = output.length ∧
      (∀ k, i + ys.length < k → out[k]? = output[k]?) ∧
      value out = value output +
        base ^ (i + j) * (carry + xs.getD i 0 * value (ys.drop j)) := by
  induction left generalizing j carry output with
  | zero =>
    have here : j = ys.length := by omega
    have none : value (ys.drop j) = 0 := value_drop_length (by omega)
    subst here
    refine ⟨output.set (i + ys.length) carry, ?_, done.set rest _, List.length_set, ?_, ?_⟩
    · rw [productRow, unsafeSet_eq (by omega)]
    · intro k behind
      rw [List.getElem?_set_ne (by omega)]
    · rw [none, Nat.mul_zero, Nat.add_zero]
      exact ofDigits_set_zero base zero carry
  | succ left hypothesis =>
    have low := small.getD_lt base_pos i
    have low' := small'.getD_lt base_pos j
    have low'' := done.getD_lt base_pos (i + j)
    have most : xs.getD i 0 * ys.getD j 0 ≤ (base - 1) * (base - 1) :=
      Nat.mul_le_mul (by omega) (by omega)
    have square : (base - 1) * (base - 1) + (base - 1) + (base - 1) < base * base := by decide
    obtain ⟨product, isProduct⟩ : ∃ product,
        xs.getD i 0 * ys.getD j 0 + output.getD (i + j) 0 + carry = product := ⟨_, rfl⟩
    have below : product < base * base := by omega
    have digit : product % base < base := Nat.mod_lt _ base_pos
    have carried : product / base < base := Nat.div_lt_of_lt_mul below
    have inside : i + j < output.length := by omega
    obtain ⟨out, run, small'', length, behind, total⟩ := hypothesis (j + 1) (product / base)
      (output.set (i + j) (product % base)) (done.set digit _) carried (by omega)
      (by rwa [List.length_set]) (by rwa [List.getElem?_set_ne (by omega)])
    refine ⟨out, ?_, small'', by rw [length, List.length_set], fun k after => ?_, ?_⟩
    · rw [productRow, unsafeGet_eq row, unsafeGet_eq (by omega), unsafeGet_eq inside]
      show (word (xs.getD i 0 * ys.getD j 0 + output.getD (i + j) 0 + carry)).bind _ = _
      rw [isProduct, word_eq below]
      show (unsafeSet (i + j) (product % base) output).bind _ = _
      rw [unsafeSet_eq inside]
      exact run
    · rw [behind k after, List.getElem?_set_ne (by omega)]
    · have changed := ofDigits_set base inside (product % base)
      rw [List.getD_eq_getElem _ _ inside] at isProduct
      have split := Nat.mod_add_div product base
      have scaled := congrArg (base ^ (i + j) * ·) (isProduct.trans split.symm)
      rw [total, value_drop ys j, ← Nat.add_assoc, Nat.pow_succ]
      simp only [value] at changed ⊢
      linarith

/-- The product of two numbers, from a row on. -/
theorem productRows_eq {xs ys : List Nat} (small : Small base xs) (small' : Small base ys)
    (some : ys ≠ []) (left i : Nat) (output : List Nat) (done : Small base output)
    (within : i + left = xs.length) (length : output.length = xs.length + ys.length)
    (zeros : ∀ k, i + ys.length ≤ k → k < output.length → output[k]? = Option.some 0) :
    productRows xs ys i left output =
      Option.some (limbs (value output + base ^ i * value (xs.drop i) * value ys)) := by
  induction left generalizing i output with
  | zero =>
    have none : value (xs.drop i) = 0 := value_drop_length (by omega)
    rw [productRows, none, Nat.mul_zero, Nat.zero_mul, Nat.add_zero, trim_eq done]
  | succ left hypothesis =>
    have width := List.length_pos_of_ne_nil some
    obtain ⟨out, run, done', length', behind, total⟩ := @productRow_eq xs ys small small' i
      (by omega) ys.length 0 0 output done base_pos (by omega) (by omega)
      (zeros _ (Nat.le_refl _) (by omega))
    have next := hypothesis (i + 1) out done' (by omega) (by omega) fun k after inside => by
      rw [behind k (by omega)]
      exact zeros k (by omega) (by omega)
    rw [productRows, run]
    show productRows xs ys (i + 1) left out = _
    rw [next, total, value_drop xs i, List.drop_zero, Nat.add_zero, Nat.pow_succ]
    have same : value output + base ^ i * (0 + xs.getD i 0 * value ys) +
        base ^ i * base * value (xs.drop (i + 1)) * value ys =
        value output + base ^ i * (xs.getD i 0 + base * value (xs.drop (i + 1))) * value ys := by
      ring
    rw [same]

/-- Multiplication. -/
theorem multiply_eq (m n : Nat) : multiply (limbs m) (limbs n) = some (limbs (m * n)) := by
  rw [multiply, isZero_limbs, isZero_limbs]
  by_cases zero : m = 0 ∨ n = 0
  · have none : m * n = 0 := Nat.mul_eq_zero.mpr zero
    rw [if_pos (by simpa using zero), none, limbs_zero]
  · have filled : limbs n ≠ [] := List.ne_nil_of_length_pos (length_limbs_pos fun none =>
      zero (.inr none))
    rw [if_neg (by simpa using zero)]
    rw [productRows_eq (small_limbs m) (small_limbs n) filled (limbs m).length 0 _
      (small_replicate base_pos _) (by omega) List.length_replicate fun k _ inside => by
        rw [List.length_replicate] at inside
        rw [List.getElem?_replicate, if_pos inside]]
    rw [value_zeros, List.drop_zero, value_limbs, value_limbs, Nat.pow_zero, Nat.zero_add,
      Nat.one_mul]

end Multiply

section Divide

/-- A quotient with a remainder below the divisor. -/
theorem quotient_eq {number divisor quotient last : Nat} (final : last < divisor)
    (total : quotient * divisor + last = number) :
    number / divisor = quotient ∧ number % divisor = last := by
  rw [Nat.div_mod_unique (Nat.zero_lt_of_lt final)]
  refine ⟨?_, final⟩
  rw [Nat.mul_comm, Nat.add_comm]
  exact total

/-- Division by a machine integer takes a limb. -/
theorem divideSmallFrom_succ {xs output output' : List Nat}
    {divisor index remainder x dividend digit next : Nat} (read : unsafeGet index xs = some x)
    (fits : word (base * remainder + x) = some dividend)
    (divided : divMod dividend divisor = some (digit, next))
    (written : unsafeSet index digit output = some output') :
    divideSmallFrom xs divisor (index + 1) remainder output =
      divideSmallFrom xs divisor index next output' := by
  rw [divideSmallFrom, read]
  simp only [Option.bind_eq_bind, Option.bind_some]
  rw [fits]
  simp only [Option.bind_some]
  rw [divided]
  simp only [Option.bind_some]
  rw [written]
  simp only [Option.bind_some]

/-- Division by a machine integer, from the limb below an index down. -/
theorem divideSmallFrom_eq {xs : List Nat} (small : Small base xs) {divisor : Nat}
    (positive : 0 < divisor) (bounded : divisor ≤ base) (count remainder : Nat) (output : List Nat)
    (done : Small base output) (length : output.length = xs.length) (inside : count ≤ xs.length)
    (rest : remainder < divisor) (zeros : ∀ k < count, output[k]? = some 0) :
    ∃ quotient last, divideSmallFrom xs divisor count remainder output =
        some (limbs quotient, last) ∧ last < divisor ∧
      quotient * divisor + last =
        value output * divisor + remainder * base ^ count + value (xs.take count) := by
  induction count generalizing remainder output with
  | zero =>
    refine ⟨value output, remainder, ?_, rest, ?_⟩
    · rw [divideSmallFrom, trim_eq done]
      rfl
    · rw [Nat.pow_zero, Nat.mul_one, List.take_zero, value_nil, Nat.add_zero]
  | succ count hypothesis =>
    have low := small.getD_lt base_pos count
    have room : base * remainder + base ≤ divisor * base := by
      have := Nat.mul_le_mul_left base rest
      rwa [Nat.mul_succ, Nat.mul_comm base divisor] at this
    have square : divisor * base ≤ base * base := Nat.mul_le_mul_right base bounded
    obtain ⟨dividend, isDividend⟩ : ∃ dividend, base * remainder + xs.getD count 0 = dividend :=
      ⟨_, rfl⟩
    have digit : dividend / divisor < base := Nat.div_lt_of_lt_mul (by omega)
    have rest' : dividend % divisor < divisor := Nat.mod_lt _ positive
    have next := hypothesis (dividend % divisor) (output.set count (dividend / divisor))
      (done.set digit _) (by rw [List.length_set, length]) (by omega) rest' fun k less => by
        rw [List.getElem?_set_ne (by omega)]
        exact zeros k (by omega)
    obtain ⟨quotient, last, run, final, total⟩ := next
    refine ⟨quotient, last, ?_, final, ?_⟩
    · have fits : word (base * remainder + xs.getD count 0) = some dividend := by
        rw [isDividend, word_eq (by omega)]
      have divided : divMod dividend divisor = some (dividend / divisor, dividend % divisor) := by
        rw [divMod, if_neg (by omega)]
      rw [divideSmallFrom_succ (unsafeGet_eq (by omega)) fits divided (unsafeSet_eq (by omega) _),
        run]
    · have split := Nat.mod_add_div dividend divisor
      have changed : value (output.set count (dividend / divisor)) =
          value output + base ^ count * (dividend / divisor) :=
        ofDigits_set_zero base (zeros count (Nat.lt_succ_self _)) _
      rw [total, changed, value_take_succ (by omega), Nat.pow_succ]
      calc _ = value output * divisor +
            base ^ count * (dividend % divisor + divisor * (dividend / divisor)) +
            value (xs.take count) := by ring
        _ = _ := by
          rw [split, ← isDividend]
          ring

/-- Division by a machine integer that is at most the base. -/
theorem divideSmall_eq (n : Nat) {divisor : Nat} (positive : 0 < divisor)
    (bounded : divisor ≤ base) :
    divideSmall (limbs n) divisor = some (limbs (n / divisor), n % divisor) := by
  obtain ⟨quotient, last, run, final, total⟩ := divideSmallFrom_eq (small_limbs n) positive bounded
    (limbs n).length 0 (List.replicate (limbs n).length 0) (small_replicate base_pos _)
    List.length_replicate (Nat.le_refl _) positive fun k less => by
      rw [List.getElem?_replicate, if_pos less]
  rw [List.take_length, value_limbs, value_zeros, Nat.zero_mul, Nat.zero_mul, Nat.zero_add] at total
  have unique := quotient_eq final total
  rw [divideSmall, run, unique.1, unique.2]

/-- The search for a digit finds the quotient between its bounds. -/
theorem chooseDigit_eq (divisor remainder low high : Nat) (bounded : high ≤ base)
    (least : divisor * low ≤ remainder) (most : remainder < divisor * (high + 1)) :
    ∃ digit, chooseDigit (limbs divisor) (limbs remainder) low high = some digit ∧
      low ≤ digit ∧ digit ≤ max low high ∧
      divisor * digit ≤ remainder ∧ remainder < divisor * (digit + 1) := by
  induction gap : high - low using Nat.strong_induction_on generalizing low high with
  | _ gap hypothesis =>
    have ordered : low < high + 1 := Nat.lt_of_mul_lt_mul_left (Nat.lt_of_le_of_lt least most)
    unfold chooseDigit
    by_cases met : low ≥ high
    · have same : low = high := by omega
      subst same
      exact ⟨low, if_pos met, Nat.le_refl _, by omega, least, most⟩
    · rw [if_neg met]
      obtain ⟨mid, isMid⟩ : ∃ mid, low + (high - low + 1) / 2 = mid := ⟨_, rfl⟩
      obtain ⟨order, compared, _, weak⟩ := compareMagnitude_eq (divisor * mid) remainder
      have between : low < mid ∧ mid ≤ high := by omega
      simp only [isMid]
      rw [multiplySmall_eq divisor (by omega)]
      show ∃ digit, ((compareMagnitude (limbs (divisor * mid)) (limbs remainder)).bind _) = _ ∧ _
      rw [compared]
      by_cases fits : order ≤ 0
      · obtain ⟨digit, found, above, below, enough⟩ :=
          hypothesis (high - mid) (by omega) mid high bounded (weak.mp fits) most rfl
        refine ⟨digit, ?_, by omega, by omega, enough⟩
        show (if order ≤ 0 then _ else _) = _
        rw [if_pos fits, found]
      · have more : ¬ divisor * mid ≤ remainder := fun less => fits (weak.mpr less)
        have upper : mid - 1 + 1 = mid := by omega
        obtain ⟨digit, found, above, below, enough⟩ :=
          hypothesis (mid - 1 - low) (by omega) low (mid - 1) (by omega) least
            (by rw [upper]; omega) rfl
        refine ⟨digit, ?_, above, by omega, enough⟩
        show (if order ≤ 0 then _ else _) = _
        rw [if_neg fits, found]

/-- A remainder with the next limb below it. -/
theorem shiftWord_eq (n : Nat) {x : Nat} (below : x < base) :
    shiftWord (limbs n) x = limbs (x + base * n) := by
  rw [shiftWord, isZero_limbs]
  by_cases zero : n = 0
  · subst zero
    rw [if_pos (by simp), fromInt, Nat.mul_zero, Nat.add_zero]
    by_cases none : x = 0
    · rw [if_pos none, none, limbs_zero]
    · rw [if_neg none, if_pos below, limbs_of_lt none below]
  · rw [if_neg (by simpa using zero), limbs_add_mul below (.inr zero)]

/-- Long division, from the limb below an index down. -/
theorem divideFrom_eq {xs : List Nat} (small : Small base xs) {divisor : Nat}
    (count remainder : Nat) (output : List Nat) (done : Small base output)
    (length : output.length = xs.length) (inside : count ≤ xs.length)
    (rest : remainder < divisor) (zeros : ∀ k < count, output[k]? = some 0) :
    ∃ quotient last, divideFrom xs (limbs divisor) count (limbs remainder) output =
        some (limbs quotient, limbs last) ∧ last < divisor ∧
      quotient * divisor + last =
        value output * divisor + remainder * base ^ count + value (xs.take count) := by
  induction count generalizing remainder output with
  | zero =>
    refine ⟨value output, remainder, ?_, rest, ?_⟩
    · rw [divideFrom, trim_eq done]
      rfl
    · rw [Nat.pow_zero, Nat.mul_one, List.take_zero, value_nil, Nat.add_zero]
  | succ count hypothesis =>
    have low := small.getD_lt base_pos count
    obtain ⟨dividend, isDividend⟩ : ∃ dividend, xs.getD count 0 + base * remainder = dividend :=
      ⟨_, rfl⟩
    have room : base * remainder + base ≤ divisor * base := by
      have := Nat.mul_le_mul_left base rest
      rw [Nat.mul_succ, Nat.mul_comm base divisor] at this
      exact this
    have whole : base - 1 + 1 = base := by decide
    obtain ⟨digit, chosen, _, below, least, most⟩ := chooseDigit_eq divisor dividend 0 (base - 1)
      (by omega) (by rw [Nat.mul_zero]; omega) (by rw [whole]; omega)
    have small' : digit < base := by omega
    have rest' : dividend - divisor * digit < divisor := by
      rw [Nat.mul_succ] at most
      omega
    have next := hypothesis (dividend - divisor * digit) (output.set count digit)
      (done.set small' _) (by rw [List.length_set, length]) (by omega) rest' fun k less => by
        rw [List.getElem?_set_ne (by omega)]
        exact zeros k (by omega)
    obtain ⟨quotient, last, run, final, total⟩ := next
    refine ⟨quotient, last, ?_, final, ?_⟩
    · rw [divideFrom, unsafeGet_eq (by omega)]
      show (chooseDigit (limbs divisor) (shiftWord (limbs remainder) (xs.getD count 0)) 0
        (base - 1)).bind _ = _
      rw [shiftWord_eq remainder low, isDividend, chosen]
      show (multiplySmall (limbs divisor) digit).bind _ = _
      rw [multiplySmall_eq divisor (by omega)]
      show (subtract (limbs dividend) (limbs (divisor * digit))).bind _ = _
      rw [subtract_eq least]
      show (unsafeSet count digit output).bind _ = _
      rw [unsafeSet_eq (by omega)]
      exact run
    · have changed : value (output.set count digit) = value output + base ^ count * digit :=
        ofDigits_set_zero base (zeros count (Nat.lt_succ_self _)) _
      have split : dividend - divisor * digit + divisor * digit = dividend :=
        Nat.sub_add_cancel least
      rw [total, changed, value_take_succ (by omega), Nat.pow_succ]
      calc _ = value output * divisor +
            base ^ count * (dividend - divisor * digit + divisor * digit) +
            value (xs.take count) := by ring
        _ = _ := by
          rw [split, ← isDividend]
          ring

/-- Long division is exact, by a divisor of any number of limbs: it returns the quotient and the
remainder. -/
theorem divide_exact (m : Nat) {n : Nat} (positive : 0 < n) :
    divide (limbs m) (limbs n) = some (limbs (m / n), limbs (m % n)) := by
  obtain ⟨order, compared, strict, _⟩ := compareMagnitude_eq m n
  rw [divide, compared]
  show (if order < 0 then _ else _) = _
  by_cases less : order < 0
  · have small := strict.mp less
    rw [if_pos less, Nat.div_eq_of_lt small, Nat.mod_eq_of_lt small, limbs_zero]
    rfl
  rw [if_neg less]
  by_cases single : (limbs n).length = 1
  · have below : n < base := by
      have := lt_pow_length_limbs n
      rwa [single, Nat.pow_one] at this
    have one : limbs n = [n] := limbs_of_lt (by omega) below
    have last : m % n < base := Nat.lt_trans (Nat.mod_lt m positive) below
    have turned : fromInt (m % n) = limbs (m % n) := by
      have := shiftWord_eq 0 last
      rwa [shiftWord, limbs_zero, Nat.mul_zero, Nat.add_zero] at this
    rw [if_pos single, one]
    show (divideSmall (limbs m) n).bind _ = _
    rw [divideSmall_eq m positive (Nat.le_of_lt below), ← turned]
    rfl
  · obtain ⟨quotient, last, run, final, total⟩ := divideFrom_eq (small_limbs m)
      (limbs m).length 0 (List.replicate (limbs m).length 0) (small_replicate base_pos _)
      List.length_replicate (Nat.le_refl _) positive fun k less => by
        rw [List.getElem?_replicate, if_pos less]
    rw [List.take_length, value_limbs, value_zeros, Nat.zero_mul, Nat.zero_mul,
      Nat.zero_add] at total
    have unique := quotient_eq final total
    rw [limbs_zero] at run
    rw [if_neg single, run, unique.1, unique.2]

/-- A number of three limbs divided by one of two. -/
theorem divide_exact_two_limbs : 0 < 1000000007 ∧
    divide (limbs 100000000000000000000) (limbs 1000000007) =
      some (limbs (100000000000000000000 / 1000000007),
        limbs (100000000000000000000 % 1000000007)) :=
  ⟨by decide, divide_exact _ (by decide)⟩

end Divide

/-- Addition, multiplication and subtraction are exact, and comparison is that of the numbers. -/
theorem arithmetic_exact (m n : Nat) :
    add (limbs m) (limbs n) = some (limbs (m + n)) ∧
    subtract (limbs (m + n)) (limbs n) = some (limbs m) ∧
    multiply (limbs m) (limbs n) = some (limbs (m * n)) ∧
    ∃ order, compareMagnitude (limbs m) (limbs n) = some order ∧
      (order < 0 ↔ m < n) ∧ (order ≤ 0 ↔ m ≤ n) := by
  have difference : subtract (limbs (m + n)) (limbs n) = some (limbs (m + n - n)) :=
    subtract_eq (Nat.le_add_left n m)
  rw [Nat.add_sub_cancel] at difference
  exact ⟨add_eq m n, difference, multiply_eq m n, compareMagnitude_eq m n⟩

end Fai.Decimal.Natural
