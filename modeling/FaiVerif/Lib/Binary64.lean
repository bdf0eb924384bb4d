import Mathlib.Algebra.Order.Floor.Ring
import Mathlib.Data.Int.Log
import Mathlib.Data.Rat.Floor
import Mathlib.Tactic.Common
import Mathlib.Tactic.FieldSimp
import Mathlib.Tactic.Linarith
import Mathlib.Tactic.NormNum

/-!
# Binary floating point

A number of the binary format of sixty-four bits, by its bits. A sequence of bits below those of
infinity is a magnitude: eleven bits of an exponent, and fifty-two of a significand. The magnitudes
grow with their bits, so that of the two next to a number one is nearest, and rounding finds it.
-/

namespace Fai.Binary64

/-- The bits of infinity. -/
def infinity : Nat := 2047 * 2 ^ 52

/-- The bit of the sign. -/
def signBit : Nat := 2 ^ 63

/-- The bits of the number that is not one. -/
def nan : Nat := 4095 * 2 ^ 51

/-- The natural number closest to a number that is not negative, the even one of two. -/
def roundHalfEven (q : ℚ) : Nat :=
  let below := ⌊q⌋.toNat
  let left := q - below
  if left < 1 / 2 then below
  else if 1 / 2 < left then below + 1
  else if below % 2 = 0 then below else below + 1

/-- The exponent of the last bit of the significand of a number. -/
def lastPlace (q : ℚ) : ℤ := if q = 0 then -1074 else max (Int.log 2 q - 52) (-1074)

/-- The bits of the magnitude closest to a number that is not negative. A significand that is
rounded up to a power of two carries into the exponent. -/
def bits (q : ℚ) : Nat :=
  let place := lastPlace q
  min ((place + 1074).toNat * 2 ^ 52 + roundHalfEven (q / 2 ^ place)) infinity

/-! ### Magnitudes -/

/-- The magnitude of bits, in units of the smallest one. -/
def units (bits : Nat) : Nat :=
  if bits / 2 ^ 52 = 0 then bits % 2 ^ 52
  else (2 ^ 52 + bits % 2 ^ 52) * 2 ^ (bits / 2 ^ 52 - 1)

/-- The magnitude of bits. For the bits of infinity it is the power of two that would be next. -/
def value (bits : Nat) : ℚ := units bits * 2 ^ (-1074 : ℤ)

/-- The bits of the magnitude nearest to a number, the even ones of two. A number as near to the
power of two beyond all magnitudes, or beyond it, is rounded to infinity. -/
structure Nearest (q : ℚ) (bits : Nat) : Prop where
  bounded : bits ≤ infinity
  nearest : ∀ other ≤ infinity, |value bits - q| ≤ |value other - q|
  even : ∀ other ≤ infinity, other ≠ bits → |value bits - q| = |value other - q| → bits % 2 = 0

/-- Bits of an exponent and a significand, which may carry into the exponent. -/
theorem units_place (e n : Nat) (small : n ≤ 2 ^ 53) (normal : e = 0 ∨ 2 ^ 52 ≤ n) :
    units (e * 2 ^ 52 + n) = n * 2 ^ e := by
  rcases Nat.lt_or_ge n (2 ^ 52) with below | above
  · obtain rfl : e = 0 := by omega
    have exponent : (0 * 2 ^ 52 + n) / 2 ^ 52 = 0 := by omega
    have fraction : (0 * 2 ^ 52 + n) % 2 ^ 52 = n := by omega
    rw [units, exponent, if_pos rfl, fraction, Nat.pow_zero, Nat.mul_one]
  rcases Nat.lt_or_ge n (2 ^ 53) with below | carried
  · have exponent : (e * 2 ^ 52 + n) / 2 ^ 52 = e + 1 := by omega
    have fraction : (e * 2 ^ 52 + n) % 2 ^ 52 = n - 2 ^ 52 := by omega
    have significand : 2 ^ 52 + (n - 2 ^ 52) = n := by omega
    rw [units, exponent, if_neg (Nat.succ_ne_zero e), fraction, significand, Nat.add_sub_cancel]
  · obtain rfl : n = 2 ^ 53 := by omega
    have exponent : (e * 2 ^ 52 + 2 ^ 53) / 2 ^ 52 = e + 2 := by omega
    have fraction : (e * 2 ^ 52 + 2 ^ 53) % 2 ^ 52 = 0 := by omega
    have carry : 2 ^ 52 * 2 ^ (e + 1) = 2 ^ 53 * 2 ^ e := by rw [Nat.pow_succ 2 e]; omega
    rw [units, exponent, if_neg (Nat.succ_ne_zero (e + 1)), fraction, Nat.add_zero]
    exact carry

/-- The magnitude grows with every bit. -/
theorem units_succ (bits : Nat) : units bits < units (bits + 1) := by
  have split : bits / 2 ^ 52 * 2 ^ 52 + bits % 2 ^ 52 = bits := Nat.div_add_mod' bits (2 ^ 52)
  have small : bits % 2 ^ 52 < 2 ^ 52 := Nat.mod_lt bits (by decide)
  -- the bits and the next ones are significands of one exponent, the next one with a carry
  obtain ⟨e, n, here, low, normal⟩ :
      ∃ e n, bits = e * 2 ^ 52 + n ∧ n < 2 ^ 53 ∧ (e = 0 ∨ 2 ^ 52 ≤ n) := by
    by_cases subnormal : bits / 2 ^ 52 = 0
    · exact ⟨0, bits % 2 ^ 52, by omega, by omega, .inl rfl⟩
    · exact ⟨bits / 2 ^ 52 - 1, 2 ^ 52 + bits % 2 ^ 52, by omega, by omega, .inr (by omega)⟩
  have first := units_place e n (Nat.le_of_lt low) normal
  have next := units_place e (n + 1) low (normal.imp_right Nat.le_succ_of_le)
  rw [here, Nat.add_assoc, first, next]
  exact Nat.mul_lt_mul_of_pos_right (Nat.lt_succ_self n) (Nat.two_pow_pos e)

/-- Magnitudes are in the order of their bits. -/
theorem value_strictMono : StrictMono value := by
  have positive : (0 : ℚ) < 2 ^ (-1074 : ℤ) := zpow_pos two_pos (-1074)
  have order : StrictMono units := strictMono_nat_of_lt_succ units_succ
  intro small large less
  have grows : (units small : ℚ) < units large := by exact_mod_cast order less
  exact mul_lt_mul_of_pos_right grows positive

/-! ### The nearest magnitude -/

/-- Only one magnitude is nearest: the one between two even ones would be nearer. -/
theorem Nearest.unique {q : ℚ} {first second : Nat} (one : Nearest q first)
    (other : Nearest q second) : first = second := by
  by_contra differ
  wlog less : first < second generalizing first second
  · exact this other one (Ne.symm differ) (by omega)
  have same : |value first - q| = |value second - q| :=
    le_antisymm (one.nearest second other.bounded) (other.nearest first one.bounded)
  have firstEven := one.even second other.bounded (Ne.symm differ) same
  have secondEven := other.even first one.bounded differ same.symm
  have between : first + 1 < second := by omega
  have below := value_strictMono (Nat.lt_succ_self first)
  have above := value_strictMono between
  have nearest := one.nearest (first + 1) (by have := other.bounded; omega)
  have far : |value (first + 1) - q| < |value first - q| := by
    rcases abs_cases (value first - q) with ⟨left, _⟩ | ⟨left, _⟩ <;>
      rcases abs_cases (value second - q) with ⟨right, _⟩ | ⟨right, _⟩ <;>
        rcases abs_cases (value (first + 1) - q) with ⟨middle, _⟩ | ⟨middle, _⟩ <;>
          rw [left, right] at same <;> rw [left, middle] <;> linarith
  exact absurd nearest (not_le.mpr far)

section Between

variable {q : ℚ} {lower : Nat}

/-- Every magnitude but the two next to a number is farther from it than one of them. -/
theorem far_of_between (low : value lower ≤ q) (high : q ≤ value (lower + 1)) {other : Nat}
    (first : other ≠ lower) (second : other ≠ lower + 1) :
    q - value lower < |value other - q| ∨ value (lower + 1) - q < |value other - q| := by
  rcases Nat.lt_or_ge other lower with less | more
  · have smaller := value_strictMono less
    have distance : |value other - q| = q - value other := by
      rw [abs_of_nonpos (by linarith), neg_sub]
    left
    linarith
  · have larger := value_strictMono (show lower + 1 < other by omega)
    have distance : |value other - q| = value other - q := abs_of_nonneg (by linarith)
    right
    linarith

/-- The lower of two next magnitudes is nearest when it is closer, or even and as close. -/
theorem nearest_lower (low : value lower ≤ q) (high : q ≤ value (lower + 1))
    (inside : lower ≤ infinity) (closer : q - value lower ≤ value (lower + 1) - q)
    (tie : q - value lower = value (lower + 1) - q → lower % 2 = 0) : Nearest q lower := by
  have here : |value lower - q| = q - value lower := by
    rw [abs_of_nonpos (by linarith), neg_sub]
  have next : |value (lower + 1) - q| = value (lower + 1) - q := abs_of_nonneg (by linarith)
  refine ⟨inside, fun other _ => ?_, fun other _ differs same => ?_⟩
  · by_cases first : other = lower
    · rw [first]
    by_cases second : other = lower + 1
    · rw [second, here, next]
      exact closer
    · rcases far_of_between low high first second with far | far <;> linarith
  · by_cases second : other = lower + 1
    · rw [second, here, next] at same
      exact tie same
    · rcases far_of_between low high differs second with far | far <;> linarith

/-- The upper of two next magnitudes is nearest when it is closer, or even and as close. -/
theorem nearest_upper (low : value lower ≤ q) (high : q ≤ value (lower + 1))
    (inside : lower + 1 ≤ infinity) (closer : value (lower + 1) - q ≤ q - value lower)
    (tie : value (lower + 1) - q = q - value lower → (lower + 1) % 2 = 0) :
    Nearest q (lower + 1) := by
  have here : |value (lower + 1) - q| = value (lower + 1) - q := abs_of_nonneg (by linarith)
  have next : |value lower - q| = q - value lower := by
    rw [abs_of_nonpos (by linarith), neg_sub]
  refine ⟨inside, fun other _ => ?_, fun other _ differs same => ?_⟩
  · by_cases second : other = lower + 1
    · rw [second]
    by_cases first : other = lower
    · rw [first, here, next]
      exact closer
    · rcases far_of_between low high first second with far | far <;> linarith
  · by_cases first : other = lower
    · rw [first, here, next] at same
      exact tie same
    · rcases far_of_between low high first differs with far | far <;> linarith

/-- Beyond all magnitudes infinity is nearest. -/
theorem nearest_infinity (beyond : value infinity ≤ q) : Nearest q infinity := by
  have here : |value infinity - q| = q - value infinity := by
    rw [abs_of_nonpos (by linarith), neg_sub]
  have farther (other : Nat) (less : other < infinity) :
      |value infinity - q| < |value other - q| := by
    have smaller := value_strictMono less
    have distance : |value other - q| = q - value other := by
      rw [abs_of_nonpos (by linarith), neg_sub]
    linarith
  refine ⟨le_refl _, fun other bounded => ?_, fun other bounded differs same => ?_⟩
  · rcases Nat.lt_or_eq_of_le bounded with less | rfl
    · exact le_of_lt (farther other less)
    · exact le_refl _
  · have less := farther other (Nat.lt_of_le_of_ne bounded differs)
    linarith

end Between

/-! ### Rounding -/

/-- The last place of a number: it has at most fifty-three digits before it, and exactly as many
unless it is the last place of all. -/
theorem lastPlace_spec {q : ℚ} (nonneg : 0 ≤ q) :
    -1074 ≤ lastPlace q ∧ q < 2 ^ 53 * 2 ^ lastPlace q ∧
      (lastPlace q = -1074 ∨ 2 ^ 52 * 2 ^ lastPlace q ≤ q) := by
  by_cases zero : q = 0
  · have place : lastPlace q = -1074 := if_pos zero
    have positive : (0 : ℚ) < 2 ^ 53 * 2 ^ lastPlace q :=
      mul_pos (pow_pos two_pos 53) (zpow_pos two_pos _)
    exact ⟨by rw [place], by rwa [zero] at positive ⊢, .inl place⟩
  have positive : 0 < q := lt_of_le_of_ne nonneg (Ne.symm zero)
  have below : (2 : ℚ) ^ Int.log 2 q ≤ q := Int.zpow_log_le_self (by decide) positive
  have above : q < (2 : ℚ) ^ (Int.log 2 q + 1) := Int.lt_zpow_succ_log_self (by decide) q
  have place : lastPlace q = max (Int.log 2 q - 52) (-1074) := if_neg zero
  have scale (digits : Nat) : (2 : ℚ) ^ digits * 2 ^ lastPlace q = 2 ^ (digits + lastPlace q) := by
    rw [zpow_add₀ two_ne_zero, zpow_natCast]
  refine ⟨by rw [place]; exact le_max_right _ _, ?_, ?_⟩
  · rw [scale]
    refine lt_of_lt_of_le above (zpow_le_zpow_right₀ one_le_two ?_)
    have most := le_max_left (Int.log 2 q - 52) (-1074)
    rw [← place] at most
    push_cast
    omega
  · rcases max_choice (Int.log 2 q - 52) (-1074) with normal | least
    · right
      rw [scale]
      refine le_trans (zpow_le_zpow_right₀ one_le_two ?_) below
      rw [place, normal]
      push_cast
      omega
    · exact .inl (place.trans least)

/-- The magnitude of a significand at an exponent. -/
theorem value_place {place : ℤ} (least : -1074 ≤ place) {n : Nat} (small : n ≤ 2 ^ 53)
    (normal : place = -1074 ∨ 2 ^ 52 ≤ n) :
    value ((place + 1074).toNat * 2 ^ 52 + n) = n * 2 ^ place := by
  have exponent : ((place + 1074).toNat : ℤ) + -1074 = place := by omega
  have here := units_place (place + 1074).toNat n small (by omega)
  have scale : (2 : ℚ) ^ (place + 1074).toNat * 2 ^ (-1074 : ℤ) = 2 ^ place := by
    rw [← zpow_natCast, ← zpow_add₀ two_ne_zero, exponent]
  rw [value, here, Nat.cast_mul, Nat.cast_pow, Nat.cast_ofNat, mul_assoc, scale]

/-- Among two next magnitudes that are next multiples of a digit, rounding the multiple finds the
nearest. -/
theorem nearest_roundHalfEven {q digit x : ℚ} {lower : Nat} (positive : 0 < digit) (nonneg : 0 ≤ x)
    (total : q = x * digit) (low : value lower = ⌊x⌋.toNat * digit)
    (high : value (lower + 1) = (⌊x⌋.toNat + 1) * digit) (parity : lower % 2 = ⌊x⌋.toNat % 2)
    (inside : lower < infinity) : Nearest q (lower + (roundHalfEven x - ⌊x⌋.toNat)) := by
  have below : (⌊x⌋.toNat : ℚ) ≤ x := by
    rw [Int.floor_toNat]
    exact Nat.floor_le nonneg
  have above : x < (⌊x⌋.toNat : ℚ) + 1 := by
    rw [Int.floor_toNat]
    exact Nat.lt_floor_add_one x
  have rounded : roundHalfEven x = if x - ⌊x⌋.toNat < 1 / 2 then ⌊x⌋.toNat
      else if 1 / 2 < x - ⌊x⌋.toNat then ⌊x⌋.toNat + 1
      else if ⌊x⌋.toNat % 2 = 0 then ⌊x⌋.toNat else ⌊x⌋.toNat + 1 := rfl
  generalize ⌊x⌋.toNat = n at *
  have least : value lower ≤ q := by rw [low, total]; gcongr
  have most : q ≤ value (lower + 1) := by rw [high, total]; gcongr
  have left : q - value lower = (x - n) * digit := by rw [low, total]; ring
  have right : value (lower + 1) - q = (n + 1 - x) * digit := by rw [high, total]; ring
  have compare {a b : ℚ} (less : a < b) : a * digit < b * digit :=
    mul_lt_mul_of_pos_right less positive
  have tie (half : x - n = 1 / 2) : q - value lower = value (lower + 1) - q := by
    rw [left, right, show (n : ℚ) + 1 - x = x - n by linarith]
  rw [rounded]
  split_ifs with less more even
  · have closer : q - value lower < value (lower + 1) - q := by
      rw [left, right]
      exact compare (by linarith)
    rw [Nat.sub_self]
    exact nearest_lower least most inside.le closer.le fun same => absurd same closer.ne
  · have closer : value (lower + 1) - q < q - value lower := by
      rw [left, right]
      exact compare (by linarith)
    rw [Nat.add_sub_cancel_left]
    exact nearest_upper least most inside closer.le fun same => absurd same closer.ne
  · have half := tie (le_antisymm (not_lt.mp more) (not_lt.mp less))
    rw [Nat.sub_self]
    exact nearest_lower least most inside.le half.le fun _ => parity.trans even
  · have half := tie (le_antisymm (not_lt.mp more) (not_lt.mp less))
    rw [Nat.add_sub_cancel_left]
    exact nearest_upper least most inside half.ge fun _ => by omega

/-- Rounding gives the number below or the next one. -/
theorem le_roundHalfEven (x : ℚ) : ⌊x⌋.toNat ≤ roundHalfEven x := by
  unfold roundHalfEven
  dsimp only
  split_ifs <;> omega

/-- Rounding finds the nearest magnitude. -/
theorem bits_nearest {q : ℚ} (nonneg : 0 ≤ q) : Nearest q (bits q) := by
  obtain ⟨least, large, normal⟩ := lastPlace_spec nonneg
  rw [bits]
  generalize lastPlace q = place at least large normal ⊢
  have digit : (0 : ℚ) < 2 ^ place := zpow_pos two_pos place
  have total : q = q / 2 ^ place * 2 ^ place := (div_mul_cancel₀ q digit.ne').symm
  have significand : 0 ≤ q / 2 ^ place := div_nonneg nonneg digit.le
  have upward := le_roundHalfEven (q / 2 ^ place)
  have below : ((⌊q / 2 ^ place⌋.toNat : Nat) : ℚ) ≤ q / 2 ^ place := by
    rw [Int.floor_toNat]
    exact Nat.floor_le significand
  have small : ⌊q / 2 ^ place⌋.toNat < 2 ^ 53 := by
    have bound : q / 2 ^ place < 2 ^ 53 := (div_lt_iff₀ digit).mpr large
    exact_mod_cast lt_of_le_of_lt below bound
  have full : place = -1074 ∨ 2 ^ 52 ≤ ⌊q / 2 ^ place⌋.toNat := by
    apply normal.imp_right
    intro enough
    rw [Int.floor_toNat]
    apply Nat.le_floor
    have bound : (2 ^ 52 : ℚ) ≤ q / 2 ^ place := (le_div_iff₀ digit).mpr enough
    exact_mod_cast bound
  have lower := value_place least (Nat.le_of_lt small) full
  have upper := value_place least (Nat.succ_le_of_lt small) (full.imp_right Nat.le_succ_of_le)
  have split : (place + 1074).toNat * 2 ^ 52 + roundHalfEven (q / 2 ^ place) =
      (place + 1074).toNat * 2 ^ 52 + ⌊q / 2 ^ place⌋.toNat +
        (roundHalfEven (q / 2 ^ place) - ⌊q / 2 ^ place⌋.toNat) := by omega
  by_cases inside : (place + 1074).toNat * 2 ^ 52 + ⌊q / 2 ^ place⌋.toNat < infinity
  · have found := nearest_roundHalfEven digit significand total lower
      (by rw [Nat.add_assoc, upper, Nat.cast_add_one]) (by omega) inside
    rw [← split] at found
    rwa [min_eq_left found.bounded]
  · have beyond : value infinity ≤ q := by
      have order := value_strictMono.monotone (not_lt.mp inside)
      rw [lower] at order
      rw [total]
      exact le_trans order (mul_le_mul_of_nonneg_right below digit.le)
    rw [min_eq_right (by omega)]
    exact nearest_infinity beyond

/-- The nearest magnitude is the one that rounding finds. -/
theorem nearest_iff {q : ℚ} (nonneg : 0 ≤ q) {magnitude : Nat} :
    Nearest q magnitude ↔ magnitude = bits q := by
  constructor
  · intro nearest
    exact nearest.unique (bits_nearest nonneg)
  · rintro rfl
    exact bits_nearest nonneg

end Fai.Binary64
