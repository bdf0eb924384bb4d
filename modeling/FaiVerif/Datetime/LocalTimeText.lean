import FaiVerif.Datetime.LocalTime
import Mathlib.Tactic.Ring

/-!
# The text of a time

The texts of times are two digits of hours, of minutes and of seconds between colons, and perhaps
a point and one to nine digits of a second. The parser reads them all, and nothing else but fields
that are a zero with a sign.
-/

namespace Fai.Datetime

open Machine64 Integers

namespace LocalTime

/-- The hour, the minute and the second of a text are those of a time. -/
structure Clock (h m s : List Char) : Prop where
  hours : Numeral 2 h
  minutes : Numeral 2 m
  seconds : Numeral 2 s
  hour_high : number h ≤ 23
  minute_high : number m ≤ 59
  second_high : number s ≤ 59

/-- The nanosecond of the day of an hour, a minute and a second. -/
def clockNanos (h m s : List Char) : ℕ :=
  number h * 3600000000000 + number m * 60000000000 + number s * 1000000000

/-- The texts of a time. -/
inductive Denotes : List Char → LocalTime → Prop where
  | whole (h m s : List Char) (t : LocalTime) (clock : Clock h m s)
      (value : t.nanoOfDay.toInt = clockNanos h m s) :
      Denotes (h ++ [':'] ++ m ++ [':'] ++ s) t
  | fraction (h m s f : List Char) (t : LocalTime) (clock : Clock h m s) (some_digit : 1 ≤ f.length)
      (few : f.length ≤ 9) (all : digits f = true)
      (value : t.nanoOfDay.toInt = clockNanos h m s + number f * 10 ^ (9 - f.length)) :
      Denotes (h ++ [':'] ++ m ++ [':'] ++ s ++ ['.'] ++ f) t

/-- The fields of the text of a time. -/
def fields (s : List Char) : List (List Char) :=
  [s.take 2, (s.drop 3).take 2, (s.drop 6).take 2, s.drop 9]

/-- Reads what follows the seconds. -/
def parseFraction (h m sec : Int64) : List Char → Option LocalTime
  | [] => ofNano h m sec 0
  | point :: frac =>
    if point = '.' then
      if frac.length < 1 ∨ 9 < frac.length then none
      else (fromString frac).bind fun f => ofNano h m sec (f * pow10 (9 - frac.length))
    else none

/-- A text that is too short is not read. -/
theorem parse_short {s : List Char} (short : s.length < 8) : parse s = none := by
  have few : Text.length s < 8 := by
    show (s.length : Int) < 8
    omega
  rw [parse, if_pos (Or.inl few)]

/-- A text is read by its characters. -/
theorem parse_cons (a b c d e f g i : Char) (rest : List Char) :
    parse (a :: b :: c :: d :: e :: f :: g :: i :: rest) =
      if c = ':' ∧ f = ':' then
        (fromString [a, b]).bind fun h => (fromString [d, e]).bind fun m =>
          (fromString [g, i]).bind fun sec => parseFraction h m sec rest
      else none := by
  obtain ⟨s, atText⟩ : ∃ s, s = a :: b :: c :: d :: e :: f :: g :: i :: rest := ⟨_, rfl⟩
  have size : Text.length s = rest.length + 8 := by
    rw [atText]
    rfl
  have colon : Text.substring 2 1 s = [c] := by rw [atText]; rfl
  have later : Text.substring 5 1 s = [f] := by rw [atText]; rfl
  have hours : Text.substring 0 2 s = [a, b] := by rw [atText]; rfl
  have minutes : Text.substring 3 2 s = [d, e] := by rw [atText]; rfl
  have seconds : Text.substring 6 2 s = [g, i] := by rw [atText]; rfl
  have atPoint : Text.substring 8 1 s = rest.take 1 := by rw [atText]; rfl
  have atFrac : Text.drop 9 s = rest.drop 1 := by rw [atText]; rfl
  have long : ¬ ((rest.length : Int) + 8 < 8) := by omega
  rw [← atText]
  unfold parse
  simp only [size, colon, later, hours, minutes, seconds, atPoint, atFrac]
  by_cases colons : c = ':' ∧ f = ':'
  · obtain ⟨rfl, rfl⟩ := colons
    simp only [long, ne_eq, not_true, or_self, if_false, and_self, if_true]
    cases fromString [a, b] with
    | none => rfl
    | some h =>
      cases fromString [d, e] with
      | none => rfl
      | some m =>
        cases fromString [g, i] with
        | none => rfl
        | some sec =>
          cases rest with
          | nil => rfl
          | cons point frac =>
            have more : ¬ ((((point :: frac).length : ℕ) : Int) + 8 = 8) := by
              rw [List.length_cons]
              omega
            have first : [point] = ['.'] ↔ point = '.' := by simp
            have count : Text.length frac < 1 ∨ Text.length frac > 9 ↔
                frac.length < 1 ∨ 9 < frac.length := by
              unfold Text.length
              omega
            have power : (9 - Text.length frac).toNat = 9 - frac.length := by
              unfold Text.length
              omega
            simp only [if_neg more, List.take_succ_cons, List.take_zero, List.drop_succ_cons,
              List.drop_zero, first, count, power, Option.bind_some, parseFraction]
            split_ifs
            · rfl
            · cases fromString frac <;> rfl
            · rfl
  · have outside : (rest.length : Int) + 8 < 8 ∨ [c] ≠ [':'] ∨ [f] ≠ [':'] := by
      simp only [ne_eq, List.cons.injEq, and_true]
      exact Or.inr (not_and_or.mp colons)
    rw [if_pos outside, if_neg colons]

/-- Ten to a small power. -/
theorem toInt_pow10 {k : Nat} (small : k ≤ 9) : (pow10 k).toInt = 10 ^ k := by
  have each : k = 0 ∨ k = 1 ∨ k = 2 ∨ k = 3 ∨ k = 4 ∨ k = 5 ∨ k = 6 ∨ k = 7 ∨ k = 8 ∨ k = 9 := by
    omega
  rcases each with rfl | rfl | rfl | rfl | rfl | rfl | rfl | rfl | rfl | rfl <;> rfl

/-- The parts of a clock, read, are inside their ranges. -/
theorem Clock.inside {h m s : List Char} (clock : Clock h m s) (nano : Int64)
    (nanos : 0 ≤ nano.toInt ∧ nano.toInt ≤ 999999999) :
    ∃ t, ofNano (Int64.ofInt (number h)) (Int64.ofInt (number m)) (Int64.ofInt (number s)) nano =
      some t ∧ t.nanoOfDay.toInt = clockNanos h m s + nano.toInt := by
  have value {cs : List Char} {n : ℕ} (high : number cs ≤ n) (small : n ≤ 59) :
      (Int64.ofInt (number cs)).toInt = number cs := toInt_ofInt ⟨by omega, by omega⟩
  have hour := value clock.hour_high (by decide)
  have minute := value clock.minute_high (by decide)
  have second := value clock.second_high (by decide)
  have hourHigh := clock.hour_high
  have minuteHigh := clock.minute_high
  have secondHigh := clock.second_high
  have inside : ¬ Outside (Int64.ofInt (number h)) (Int64.ofInt (number m))
      (Int64.ofInt (number s)) nano := not_outside.mpr (by rw [hour, minute, second]; omega)
  obtain ⟨hours, minutes, seconds, rest⟩ := not_outside.mp inside
  refine ⟨_, dif_neg inside, ?_⟩
  show (_ + _ : Int64).toInt = _
  rw [computes_nano hours minutes seconds rest, hour, minute, second, clockNanos]
  push_cast
  rfl

/-- The nanoseconds of a fraction of a second. -/
theorem toInt_fraction {f : List Char} (few : f.length ≤ 9) (all : digits f = true) :
    (Int64.ofInt (number f) * pow10 (9 - f.length)).toInt =
        ((number f * 10 ^ (9 - f.length) : ℕ) : ℤ) ∧
      number f * 10 ^ (9 - f.length) ≤ 999999999 := by
  have below := number_lt all
  have power : 10 ^ f.length * 10 ^ (9 - f.length) = 1000000000 := by
    rw [← Nat.pow_add, Nat.add_sub_cancel' few]
  have product : number f * 10 ^ (9 - f.length) < 10 ^ f.length * 10 ^ (9 - f.length) :=
    Nat.mul_lt_mul_of_pos_right below (Nat.pow_pos (by decide))
  have small : number f < 2 ^ 63 := by
    have limit := Nat.pow_le_pow_right (show 0 < 10 by decide) few
    omega
  refine ⟨?_, by omega⟩
  rw [Int64.toInt_mul, toInt_ofInt ⟨by omega, by omega⟩, toInt_pow10 (by omega)]
  have cast : (number f : ℤ) * 10 ^ (9 - f.length) =
      ((number f * 10 ^ (9 - f.length) : ℕ) : ℤ) := by
    push_cast
    rfl
  rw [cast]
  exact bmod_of_fits ⟨by omega, by omega⟩

/-- Times with the same nanosecond are the same. -/
theorem eq_of_toInt {t u : LocalTime} (same : t.nanoOfDay.toInt = u.nanoOfDay.toInt) : t = u := by
  obtain ⟨n, range⟩ := t
  obtain ⟨k, other⟩ := u
  obtain rfl : n = k := Int64.toInt_inj.mp same
  rfl

/-- A text of a time is read as the time. -/
theorem Denotes.parse {s : List Char} {t : LocalTime} (denotes : Denotes s t) :
    LocalTime.parse s = some t := by
  have two {cs : List Char} (numeral : Numeral 2 cs) : ∃ a b, cs = [a, b] := by
    obtain ⟨size, -⟩ := numeral
    match cs, size with
    | [a, b], _ => exact ⟨a, b, rfl⟩
  cases denotes with
  | whole h m s t clock value =>
    have hours := fromString_numeral clock.hours (by decide)
    have minutes := fromString_numeral clock.minutes (by decide)
    have seconds := fromString_numeral clock.seconds (by decide)
    obtain ⟨t', found, nanos⟩ := clock.inside 0 (by decide)
    obtain ⟨a, b, rfl⟩ := two clock.hours
    obtain ⟨d, e, rfl⟩ := two clock.minutes
    obtain ⟨g, i, rfl⟩ := two clock.seconds
    show LocalTime.parse (a :: b :: ':' :: d :: e :: ':' :: g :: i :: []) = _
    rw [parse_cons, if_pos ⟨rfl, rfl⟩, hours, minutes, seconds, Option.bind_some,
      Option.bind_some, Option.bind_some, parseFraction, found,
        eq_of_toInt (nanos.trans (value.trans (add_zero _).symm).symm)]
  | fraction h m s f t clock some_digit few all value =>
    have hours := fromString_numeral clock.hours (by decide)
    have minutes := fromString_numeral clock.minutes (by decide)
    have seconds := fromString_numeral clock.seconds (by decide)
    have digit := fromString_numeral (⟨rfl, all⟩ : Numeral f.length f) some_digit
    obtain ⟨nanos, limit⟩ := toInt_fraction few all
    obtain ⟨t', found, total⟩ := clock.inside (Int64.ofInt (number f) * pow10 (9 - f.length))
      (by rw [nanos]; omega)
    obtain ⟨a, b, rfl⟩ := two clock.hours
    obtain ⟨d, e, rfl⟩ := two clock.minutes
    obtain ⟨g, i, rfl⟩ := two clock.seconds
    show LocalTime.parse (a :: b :: ':' :: d :: e :: ':' :: g :: i :: '.' :: f) = _
    have count : ¬ (f.length < 1 ∨ 9 < f.length) := by omega
    rw [parse_cons, if_pos ⟨rfl, rfl⟩, hours, minutes, seconds, Option.bind_some,
      Option.bind_some, Option.bind_some, parseFraction, if_pos rfl, if_neg count, digit,
      Option.bind_some, found]
    rw [nanos] at total
    push_cast at total
    rw [eq_of_toInt (total.trans value.symm)]

/-- What a time is made of. -/
theorem ofNano_some {h m s nano : Int64} {t : LocalTime} (found : ofNano h m s nano = some t) :
    ((0 ≤ h.toInt ∧ h.toInt ≤ 23) ∧ (0 ≤ m.toInt ∧ m.toInt ≤ 59) ∧
      (0 ≤ s.toInt ∧ s.toInt ≤ 59) ∧ 0 ≤ nano.toInt ∧ nano.toInt ≤ 999999999) ∧
      t.nanoOfDay.toInt = h.toInt * 3600000000000 + m.toInt * 60000000000 +
        s.toInt * 1000000000 + nano.toInt := by
  unfold ofNano at found
  split_ifs at found with outside
  have inside := not_outside.mp outside
  cases found
  exact ⟨inside, computes_nano inside.1 inside.2.1 inside.2.2.1 inside.2.2.2⟩

/-- Fields that are read as the parts of a time are a clock. -/
theorem clock_of_read {a b d e g i : Char} {h m sec nano : Int64} {t : LocalTime}
    (hourRead : fromString [a, b] = some h) (minuteRead : fromString [d, e] = some m)
    (secondRead : fromString [g, i] = some sec) (hourSign : ¬ SignedZero [a, b])
    (minuteSign : ¬ SignedZero [d, e]) (secondSign : ¬ SignedZero [g, i])
    (found : ofNano h m sec nano = some t) :
    Clock [a, b] [d, e] [g, i] ∧ 0 ≤ nano.toInt ∧ nano.toInt ≤ 999999999 ∧
      t.nanoOfDay.toInt = clockNanos [a, b] [d, e] [g, i] + nano.toInt := by
  have few : 2 ≤ 18 := by decide
  obtain ⟨⟨hours, minutes, seconds, nanos⟩, value⟩ := ofNano_some found
  obtain ⟨-, hourDigits, hour⟩ := fromString_nonneg hourRead few hours.1 hourSign
  obtain ⟨-, minuteDigits, minute⟩ := fromString_nonneg minuteRead few minutes.1 minuteSign
  obtain ⟨-, secondDigits, second⟩ := fromString_nonneg secondRead few seconds.1 secondSign
  refine ⟨⟨⟨rfl, hourDigits⟩, ⟨rfl, minuteDigits⟩, ⟨rfl, secondDigits⟩, by omega, by omega,
    by omega⟩, nanos.1, nanos.2, ?_⟩
  rw [value, hour, minute, second, clockNanos]
  push_cast
  rfl

/-- Nanoseconds that are not negative come from a fraction that is not negative. -/
theorem nonneg_of_fraction {frac : List Char} {v : Int64} (read : fromString frac = some v)
    (few : frac.length ≤ 9) (nonneg : 0 ≤ (v * pow10 (9 - frac.length)).toInt) : 0 ≤ v.toInt := by
  rcases fromString_cases read with ⟨-, all, rfl⟩ | ⟨ds, rfl, -, all, rfl⟩
  · have below := number_lt all
    have power := Nat.pow_le_pow_right (show 0 < 10 by decide) few
    rw [toInt_ofInt ⟨by omega, by omega⟩]
    omega
  · rw [List.length_cons] at few nonneg
    have below := number_lt all
    have power := Nat.pow_le_pow_right (show 0 < 10 by decide) (show ds.length ≤ 8 by omega)
    have small : (Int64.ofInt (-number ds)).toInt = -number ds :=
      toInt_ofInt ⟨by omega, by omega⟩
    have ten : 0 < 10 ^ (9 - (ds.length + 1)) := Nat.pow_pos (by decide)
    have product : number ds * 10 ^ (9 - (ds.length + 1)) ≤ 10 ^ 8 := by
      have whole : 10 ^ ds.length * 10 ^ (9 - (ds.length + 1)) = 10 ^ 8 := by
        rw [← Nat.pow_add]
        congr 1
        omega
      exact (Nat.mul_le_mul_right _ below.le).trans_eq whole
    have cast : (-number ds : ℤ) * 10 ^ (9 - (ds.length + 1)) =
        -((number ds * 10 ^ (9 - (ds.length + 1)) : ℕ) : ℤ) := by
      push_cast
      ring
    rw [Int64.toInt_mul, small, toInt_pow10 (by omega), cast, bmod_of_fits ⟨by omega, by omega⟩]
      at nonneg
    have zero : number ds * 10 ^ (9 - (ds.length + 1)) = 0 := by omega
    rw [small]
    rcases Nat.mul_eq_zero.mp zero with none | none <;> omega

/-- A text that is read as a time denotes the time, unless one of its fields is a zero with a
sign. -/
theorem denotes_of_parse {s : List Char} {t : LocalTime} (read : parse s = some t)
    (unsigned : ∀ field ∈ fields s, ¬ SignedZero field) : Denotes s t := by
  match s with
  | a :: b :: c :: d :: e :: f :: g :: i :: rest =>
    simp only [fields, List.take_succ_cons, List.take_zero, List.drop_succ_cons, List.drop_zero,
      List.mem_cons, List.not_mem_nil, or_false, forall_eq_or_imp, forall_eq] at unsigned
    obtain ⟨hourSign, minuteSign, secondSign, fractionSign⟩ := unsigned
    rw [parse_cons] at read
    split_ifs at read with colons
    obtain ⟨rfl, rfl⟩ := colons
    obtain ⟨h, hourRead, read⟩ := Option.bind_eq_some_iff.mp read
    obtain ⟨m, minuteRead, read⟩ := Option.bind_eq_some_iff.mp read
    obtain ⟨sec, secondRead, read⟩ := Option.bind_eq_some_iff.mp read
    cases rest with
    | nil =>
      obtain ⟨clock, -, -, value⟩ := clock_of_read hourRead minuteRead secondRead hourSign
        minuteSign secondSign read
      exact .whole [a, b] [d, e] [g, i] t clock (value.trans (add_zero _))
    | cons point frac =>
      rw [parseFraction] at read
      split_ifs at read with dot count
      obtain ⟨v, fractionRead, read⟩ := Option.bind_eq_some_iff.mp read
      obtain ⟨clock, low, high, value⟩ := clock_of_read hourRead minuteRead secondRead hourSign
        minuteSign secondSign read
      have nonneg := nonneg_of_fraction fractionRead (by omega) low
      obtain ⟨-, all, number⟩ := fromString_nonneg fractionRead (by omega) nonneg fractionSign
      have nanos := toInt_fraction (by omega) all
      subst dot
      refine .fraction [a, b] [d, e] [g, i] frac t clock (by omega) (by omega) all ?_
      rw [← number, Int64.ofInt_toInt] at nanos
      rw [value, nanos.1]
      push_cast
      rfl
  | [] | [_] | [_, _] | [_, _, _] | [_, _, _, _] | [_, _, _, _, _] | [_, _, _, _, _, _] |
      [_, _, _, _, _, _, _] =>
    rw [parse_short (by simp)] at read
    cases read

/-- The hour of a time. -/
theorem toInt_hour (t : LocalTime) : t.hour.toInt = t.nanoOfDay.toInt / 3600000000000 :=
  (computes_floorDiv (.start _) (.literal 3600000000000 (by decide)) (by decide)).machine

/-- The minute of a time. -/
theorem toInt_minute (t : LocalTime) : t.minute.toInt = t.nanoOfDay.toInt / 60000000000 % 60 :=
  (computes_floorMod (computes_floorDiv (.start _) (.literal 60000000000 (by decide)) (by decide))
    (.literal 60 (by decide)) (by decide)).machine

/-- The second of a time. -/
theorem toInt_second (t : LocalTime) : t.second.toInt = t.nanoOfDay.toInt / 1000000000 % 60 :=
  (computes_floorMod (computes_floorDiv (.start _) (.literal 1000000000 (by decide)) (by decide))
    (.literal 60 (by decide)) (by decide)).machine

/-- The nanosecond of the second of a time. -/
theorem toInt_nanoOfSecond (t : LocalTime) :
    t.nanoOfSecond.toInt = t.nanoOfDay.toInt % 1000000000 :=
  (computes_floorMod (.start _) (.literal 1000000000 (by decide)) (by decide)).machine

/-- The text of a time denotes it. -/
theorem denotes_toString (t : LocalTime) : Denotes t.toString t := by
  obtain ⟨low, high⟩ := t.inDay
  have hour := toInt_hour t
  have minute := toInt_minute t
  have second := toInt_second t
  have nanos := toInt_nanoOfSecond t
  have clock : Clock (field 2 t.hour.toInt.toNat) (field 2 t.minute.toInt.toNat)
      (field 2 t.second.toInt.toNat) := by
    refine ⟨numeral_field (by decide) (by omega), numeral_field (by decide) (by omega),
      numeral_field (by decide) (by omega), ?_, ?_, ?_⟩
    all_goals
      rw [number_field]
      omega
  have base : clockNanos (field 2 t.hour.toInt.toNat) (field 2 t.minute.toInt.toNat)
      (field 2 t.second.toInt.toNat) = t.nanoOfDay.toInt.toNat / 1000000000 * 1000000000 := by
    rw [clockNanos, number_field, number_field, number_field]
    omega
  unfold toString
  simp only
  rw [padStart_two (by omega), padStart_two (by omega), padStart_two (by omega)]
  split_ifs with whole
  · refine .whole _ _ _ t clock ?_
    rw [whole] at nanos
    have zero : (0 : Int64).toInt = 0 := rfl
    rw [base]
    omega
  · rw [padStart_nine (by omega)]
    have size : (field 9 t.nanoOfSecond.toInt.toNat).length = 9 :=
      length_field (by decide) (by omega)
    refine .fraction _ _ _ _ t clock (by omega) (by omega) (digits_field _ _) ?_
    rw [size, number_field, base]
    omega

/-- The text of a time is read as the time. -/
theorem parse_toString (t : LocalTime) : LocalTime.parse t.toString = some t :=
  (denotes_toString t).parse

end LocalTime

end Fai.Datetime
