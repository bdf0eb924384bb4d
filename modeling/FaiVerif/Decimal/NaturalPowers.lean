import FaiVerif.Decimal.NaturalText

/-!
# Naturals and powers of ten

Multiplying by a power of ten, splitting at one and taking out the largest one.
-/

namespace Fai.Decimal.Natural

open Limbs

section Shift

/-- Limbs of zero in front. -/
theorem limbs_shift {n : Nat} (positive : n ≠ 0) (count : Nat) :
    limbs (base ^ count * n) = List.replicate count 0 ++ limbs n := by
  induction count with
  | zero => rw [Nat.pow_zero, Nat.one_mul, List.replicate_zero, List.nil_append]
  | succ count hypothesis =>
    have filled : base ^ count * n ≠ 0 := by
      have := Nat.mul_pos (Nat.pow_pos (n := count) base_pos) (Nat.pos_of_ne_zero positive)
      omega
    have moved : base ^ (count + 1) * n = 0 + base * (base ^ count * n) := by
      rw [Nat.pow_succ]
      ring
    rw [moved, limbs_add_mul base_pos (.inr filled), hypothesis, List.replicate_succ,
      List.cons_append]

/-- The limbs from a place on. -/
theorem limbs_drop (n count : Nat) : (limbs n).drop count = limbs (n / base ^ count) := by
  induction count with
  | zero => rw [List.drop_zero, Nat.pow_zero, Nat.div_one]
  | succ count hypothesis =>
    have next (m : Nat) : (limbs m).drop 1 = limbs (m / base) := by
      by_cases zero : m = 0
      · rw [zero, Nat.zero_div, limbs_zero, List.drop_nil]
      · rw [limbs, Nat.digits_def' one_lt_base (Nat.pos_of_ne_zero zero)]
        rfl
    rw [← List.drop_drop, hypothesis, next, Nat.div_div_eq_div_mul, Nat.pow_succ]

/-- The number below a place. -/
theorem value_take (n count : Nat) : value ((limbs n).take count) = n % base ^ count := by
  have below : value ((limbs n).take count) < base ^ count :=
    ofDigits_take_lt one_lt_base (small_limbs n) count
  by_cases inside : count ≤ (limbs n).length
  · have whole : value ((limbs n).take count) + base ^ count * (n / base ^ count) = n := by
      have parts := @Nat.ofDigits_append base ((limbs n).take count) ((limbs n).drop count)
      rw [List.take_append_drop, List.length_take, Nat.min_eq_left inside, limbs_drop] at parts
      have total : Nat.ofDigits base (limbs n) = n := value_limbs n
      have upper : Nat.ofDigits base (limbs (n / base ^ count)) = n / base ^ count := value_limbs _
      rw [total, upper] at parts
      exact parts.symm
    have split := Nat.mod_add_div n (base ^ count)
    omega
  · rw [List.take_of_length_le (by omega), value_limbs] at below ⊢
    exact (Nat.mod_eq_of_lt below).symm

/-- A power of ten that is at most the base. -/
theorem smallPower_eq (n seen : Nat) (few : n + seen ≤ 9) :
    smallPower n (10 ^ seen) = some (10 ^ (n + seen)) := by
  induction n generalizing seen with
  | zero => rw [smallPower, Nat.zero_add]
  | succ n hypothesis =>
    have bound : 10 ^ seen ≤ 10 ^ 9 := Nat.pow_le_pow_right (by decide) (by omega)
    have fits : word (10 ^ seen * 10) = some (10 ^ seen * 10) := by
      apply word_eq
      have : 10 ^ 9 * 10 < base * base := by decide
      omega
    rw [smallPower, fits]
    show smallPower n (10 ^ (seen + 1)) = _
    rw [hypothesis (seen + 1) (by omega), Nat.add_right_comm]
    rfl

/-- A power of ten is limbs and digits. -/
theorem pow_ten (exponent : Nat) : 10 ^ exponent = base ^ (exponent / 9) * 10 ^ (exponent % 9) := by
  have nine : base = 10 ^ 9 := by decide
  rw [nine, ← Nat.pow_mul, ← Nat.pow_add, Nat.div_add_mod]

/-- The digits of a power of ten below a limb. -/
theorem smallPower_mod (exponent : Nat) :
    smallPower (exponent % 9) 1 = some (10 ^ (exponent % 9)) ∧ 10 ^ (exponent % 9) ≤ base := by
  have few : exponent % 9 < 9 := Nat.mod_lt _ (by decide)
  have power := smallPower_eq (exponent % 9) 0 (by omega)
  have bound : 10 ^ (exponent % 9) ≤ 10 ^ 9 := Nat.pow_le_pow_right (by decide) (by omega)
  rw [Nat.pow_zero, Nat.add_zero] at power
  exact ⟨power, bound⟩

/-- Multiplication by a power of ten. -/
theorem timesPowerTen_eq (n exponent : Nat) :
    timesPowerTen (limbs n) exponent = some (limbs (n * 10 ^ exponent)) := by
  rw [timesPowerTen, isZero_limbs]
  by_cases zero : n = 0
  · rw [if_pos (by simpa using zero), zero, Nat.zero_mul]
  · obtain ⟨power, bound⟩ := smallPower_mod exponent
    have filled : n * 10 ^ (exponent % 9) ≠ 0 := by
      have := Nat.mul_pos (Nat.pos_of_ne_zero zero) (Nat.pow_pos (n := exponent % 9)
        (by decide : 0 < 10))
      omega
    have same : n * 10 ^ exponent = base ^ (exponent / 9) * (n * 10 ^ (exponent % 9)) := by
      rw [pow_ten]
      ring
    rw [if_neg (by simpa using zero), power]
    show (multiplySmall (limbs n) (10 ^ (exponent % 9))).bind _ = _
    rw [multiplySmall_eq n bound, same, limbs_shift filled]
    rfl

/-- Splitting at a power of ten. -/
theorem splitPowerTen_eq (n exponent : Nat) :
    splitPowerTen (limbs n) exponent =
      some (limbs (n / 10 ^ exponent), limbs (n % 10 ^ exponent)) := by
  rw [splitPowerTen, digits_eq]
  show (if exponent ≥ (Nat.toDigits 10 n).length then _ else _) = _
  by_cases past : exponent ≥ (Nat.toDigits 10 n).length
  · have positive : 0 < exponent := Nat.lt_of_lt_of_le Nat.length_toDigits_pos past
    have below : n < 10 ^ exponent := (Nat.length_toDigits_le_iff (by decide) positive).mp past
    rw [if_pos past, Nat.div_eq_of_lt below, Nat.mod_eq_of_lt below, limbs_zero]
    rfl
  · obtain ⟨power, bound⟩ := smallPower_mod exponent
    have positive : 0 < 10 ^ (exponent % 9) := Nat.pow_pos (by decide)
    have quotient : n / 10 ^ exponent = n / base ^ (exponent / 9) / 10 ^ (exponent % 9) := by
      rw [pow_ten, Nat.div_div_eq_div_mul]
    have remainder : n % 10 ^ exponent = n % base ^ (exponent / 9) +
        base ^ (exponent / 9) * (n / base ^ (exponent / 9) % 10 ^ (exponent % 9)) := by
      rw [pow_ten, Nat.mod_mul]
    have enough : exponent / 9 ≤ (limbs n).length := by
      apply Nat.le_of_not_lt
      intro less
      have ascends : base ^ (limbs n).length ≤ base ^ (exponent / 9) :=
        Nat.pow_le_pow_right base_pos (by omega)
      have upper := lt_pow_length_limbs n
      have whole : 10 ^ exponent = base ^ (exponent / 9) * 10 ^ (exponent % 9) := pow_ten exponent
      have most : base ^ (exponent / 9) ≤ 10 ^ exponent := by
        rw [whole]
        exact Nat.le_mul_of_pos_right _ positive
      have some : 0 < exponent := by omega
      exact past ((Nat.length_toDigits_le_iff (by decide) some).mpr (by omega))
    rw [if_neg past, power]
    show (divideSmall ((limbs n).drop (exponent / 9)) (10 ^ (exponent % 9))).bind _ = _
    rw [limbs_drop, divideSmall_eq _ positive bound, quotient, remainder]
    show (trim (if n / base ^ (exponent / 9) % 10 ^ (exponent % 9) = 0 then _ else _)).bind _ = _
    have low := (small_limbs n).take (exponent / 9)
    have last : n / base ^ (exponent / 9) % 10 ^ (exponent % 9) < base :=
      Nat.lt_of_lt_of_le (Nat.mod_lt _ positive) bound
    by_cases zero : n / base ^ (exponent / 9) % 10 ^ (exponent % 9) = 0
    · rw [if_pos zero, trim_eq low, value_take, zero, Nat.mul_zero, Nat.add_zero]
      rfl
    · rw [if_neg zero, trim_eq (small_snoc low last), value_snoc, value_take, List.length_take,
        Nat.min_eq_left enough]
      rfl

/-- Multiplying by a power of ten and splitting at one are exact. -/
theorem powersOfTen_exact (n exponent : Nat) :
    timesPowerTen (limbs n) exponent = some (limbs (n * 10 ^ exponent)) ∧
    splitPowerTen (limbs n) exponent =
      some (limbs (n / 10 ^ exponent), limbs (n % 10 ^ exponent)) :=
  ⟨timesPowerTen_eq n exponent, splitPowerTen_eq n exponent⟩

end Shift

section Normalize

/-- The leading limbs that are zero are skipped. -/
theorem stripWords_eq (xs : List Nat) (offset : Nat) (inside : offset ≤ xs.length) :
    stripWords xs offset ≤ xs.length ∧ offset ≤ stripWords xs offset ∧
    value (xs.drop offset) =
      base ^ (stripWords xs offset - offset) * value (xs.drop (stripWords xs offset)) := by
  induction left : xs.length - offset generalizing offset with
  | zero =>
    have stop : ¬ (offset < xs.length ∧ xs.getD offset 0 = 0) := fun both => by omega
    unfold stripWords
    rw [if_neg stop, Nat.sub_self, Nat.pow_zero, Nat.one_mul]
    exact ⟨inside, Nat.le_refl _, rfl⟩
  | succ left' hypothesis =>
    unfold stripWords
    by_cases zero : offset < xs.length ∧ xs.getD offset 0 = 0
    · obtain ⟨bound, after, same⟩ := hypothesis (offset + 1) (by omega) (by omega)
      rw [if_pos zero]
      refine ⟨bound, by omega, ?_⟩
      have more : stripWords xs (offset + 1) - offset =
          stripWords xs (offset + 1) - (offset + 1) + 1 := by omega
      rw [value_drop, zero.2, Nat.zero_add, same, more, Nat.pow_succ]
      ring
    · rw [if_neg zero, Nat.sub_self, Nat.pow_zero, Nat.one_mul]
      exact ⟨inside, Nat.le_refl _, rfl⟩

/-- The first limb has the last digit. -/
theorem first_limb {n : Nat} (positive : n ≠ 0) :
    ∃ first, unsafeGet 0 (limbs n) = some first ∧ first % 10 = n % 10 := by
  have filled := length_limbs_pos positive
  have whole := value_drop (limbs n) 0
  rw [List.drop_zero, value_limbs] at whole
  refine ⟨_, unsafeGet_eq filled, ?_⟩
  rw [base] at whole
  omega

/-- Factors of ten are taken out one by one. -/
theorem stripDigits_eq (fuel n exponent : Nat) (positive : n ≠ 0) (enough : n < 10 ^ fuel) :
    ∃ m more, stripDigits fuel (limbs n) exponent = some (limbs m, exponent + more) ∧
      n = m * 10 ^ more ∧ m % 10 ≠ 0 := by
  induction fuel generalizing n exponent with
  | zero =>
    rw [Nat.pow_zero] at enough
    omega
  | succ fuel hypothesis =>
    obtain ⟨first, read, last⟩ := first_limb positive
    have divided : divideSmall (limbs n) 10 = some (limbs (n / 10), n % 10) :=
      divideSmall_eq n (by decide) (by decide)
    rw [stripDigits, isZero_limbs, if_neg (by simpa using positive), read]
    show ∃ m more, (if first % 10 ≠ 0 then _ else _) = _ ∧ _
    by_cases digit : n % 10 = 0
    · rw [if_neg (by omega), divided]
      rw [Nat.pow_succ] at enough
      obtain ⟨m, more, run, same, final⟩ := hypothesis (n / 10) (exponent + 1) (by omega) (by omega)
      refine ⟨m, more + 1, ?_, ?_, final⟩
      · show stripDigits fuel (limbs (n / 10)) (exponent + 1) = _
        rw [run, Nat.add_right_comm, Nat.add_assoc]
      · rw [Nat.pow_succ, ← Nat.mul_assoc, ← same]
        omega
    · refine ⟨n, 0, ?_, by rw [Nat.pow_zero, Nat.mul_one], digit⟩
      rw [if_pos (by omega)]
      rfl

/-- Normalizing ends, and takes out the largest power of ten; zero has none. -/
theorem normalize_exact (n : Nat) : ∃ m exponent,
    normalize (limbs n) = some (limbs m, exponent) ∧ n = m * 10 ^ exponent ∧
    (m % 10 = 0 ↔ n = 0) ∧ (n = 0 → exponent = 0) := by
  rw [normalize, isZero_limbs]
  by_cases zero : n = 0
  · subst zero
    refine ⟨0, 0, ?_, rfl, by simp, fun _ => rfl⟩
    rw [if_pos (by simp), limbs_zero]
  · obtain ⟨bound, -, same⟩ := stripWords_eq (limbs n) 0 (Nat.zero_le _)
    obtain ⟨words, isWords⟩ : ∃ words, stripWords (limbs n) 0 = words := ⟨_, rfl⟩
    rw [isWords, List.drop_zero, value_limbs, Nat.sub_zero, limbs_drop, value_limbs] at same
    have positive : n / base ^ words ≠ 0 := by
      intro none
      rw [none, Nat.mul_zero] at same
      exact zero same
    have enough : n / base ^ words < 10 ^ (9 * (limbs n).length + 1) := by
      have upper := lt_pow_length_limbs n
      have nine : base = 10 ^ 9 := by decide
      have less := Nat.div_le_self n (base ^ words)
      have power : base ^ (limbs n).length = 10 ^ (9 * (limbs n).length) := by
        rw [nine, ← Nat.pow_mul]
      rw [Nat.pow_succ]
      omega
    obtain ⟨m, more, run, rest, final⟩ := stripDigits_eq _ _ (words * 9) positive enough
    refine ⟨m, words * 9 + more, ?_, ?_, ?_, fun none => absurd none zero⟩
    · rw [if_neg (by simpa using zero)]
      show stripDigits _ ((limbs n).drop (stripWords (limbs n) 0)) (stripWords (limbs n) 0 * 9) = _
      rw [isWords, limbs_drop, run]
    · have nine : base = 10 ^ 9 := by decide
      rw [same, rest, nine, ← Nat.pow_mul, Nat.pow_add, Nat.mul_comm 9 words]
      ring
    · exact ⟨fun none => absurd none final, fun none => absurd none zero⟩

end Normalize

end Fai.Decimal.Natural
