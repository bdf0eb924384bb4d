import Mathlib.Data.Int.Basic
import Mathlib.Data.Int.Notation
import Mathlib.Logic.Function.Iterate
import Mathlib.Order.Monotone.Basic
import Mathlib.Tactic.Common

/-!
# The proleptic Gregorian calendar

Dates are what stepping from one day to the next, or to the one before, reaches from 1970-01-01.
Days are counted in years that begin in March, so that a leap day is the last of its year, and
in eras of four hundred years, which all have the same days.
-/

namespace Fai.Gregorian

/-- A year, a month and a day of the month. -/
@[ext]
structure Date where
  year : ℤ
  month : ℤ
  day : ℤ
  deriving DecidableEq

/-- Whether a year has a leap day. -/
def leap (year : ℤ) : Prop := year % 4 = 0 ∧ (year % 100 ≠ 0 ∨ year % 400 = 0)

instance (year : ℤ) : Decidable (leap year) := inferInstanceAs (Decidable (_ ∧ _))

/-- The days of a month. -/
def monthLength (year month : ℤ) : ℤ :=
  if month = 2 then if leap year then 29 else 28
  else if month = 4 ∨ month = 6 ∨ month = 9 ∨ month = 11 then 30
  else 31

/-- A date of the calendar. -/
structure Date.Valid (date : Date) : Prop where
  month_low : 1 ≤ date.month
  month_high : date.month ≤ 12
  day_low : 1 ≤ date.day
  day_high : date.day ≤ monthLength date.year date.month

instance (date : Date) : Decidable date.Valid :=
  decidable_of_iff (1 ≤ date.month ∧ date.month ≤ 12 ∧ 1 ≤ date.day ∧
      date.day ≤ monthLength date.year date.month)
    ⟨fun ⟨ml, mh, dl, dh⟩ => ⟨ml, mh, dl, dh⟩, fun v => ⟨v.1, v.2, v.3, v.4⟩⟩

/-- The day after. -/
def Date.next (date : Date) : Date :=
  if date.day < monthLength date.year date.month then { date with day := date.day + 1 }
  else if date.month < 12 then ⟨date.year, date.month + 1, 1⟩
  else ⟨date.year + 1, 1, 1⟩

/-- The day before. -/
def Date.previous (date : Date) : Date :=
  if 1 < date.day then { date with day := date.day - 1 }
  else if 1 < date.month then
    ⟨date.year, date.month - 1, monthLength date.year (date.month - 1)⟩
  else ⟨date.year - 1, 12, 31⟩

/-- A day of a month, the last for a day beyond. -/
def clip (year month day : ℤ) : Date := ⟨year, month, min day (monthLength year month)⟩

/-- The day of the month so many months later, the last of that month for a day beyond. -/
def Date.plusMonths (n : ℤ) (date : Date) : Date :=
  let months := date.year * 12 + (date.month - 1) + n
  clip (months / 12) (months % 12 + 1) date.day

/-- The day of the month so many years later, the last of that month for a day beyond. -/
def Date.plusYears (n : ℤ) (date : Date) : Date := clip (date.year + n) date.month date.day

/-- Day zero. -/
def epoch : Date := ⟨1970, 1, 1⟩

/-- The date so many days after day zero, or before it. -/
def date : ℤ → Date
  | .ofNat days => Date.next^[days] epoch
  | .negSucc days => Date.previous^[days + 1] epoch

/-- A month has 28 to 31 days. -/
theorem monthLength_range (year month : ℤ) :
    28 ≤ monthLength year month ∧ monthLength year month ≤ 31 := by
  unfold monthLength
  split_ifs <;> omega

/-- December has 31 days. -/
theorem monthLength_december (year : ℤ) : monthLength year 12 = 31 := by
  simp [monthLength]

/-- The day after a date is a date. -/
theorem Date.Valid.next {date : Date} (valid : date.Valid) : date.next.Valid := by
  obtain ⟨monthLow, monthHigh, dayLow, dayHigh⟩ := valid
  unfold Date.next
  split_ifs with inside
  · exact ⟨monthLow, monthHigh, by show 1 ≤ date.day + 1; omega, inside⟩
  · have length := monthLength_range date.year (date.month + 1)
    exact ⟨by show 1 ≤ date.month + 1; omega, by show date.month + 1 ≤ 12; omega, le_refl 1,
      by show 1 ≤ monthLength date.year (date.month + 1); omega⟩
  · have length := monthLength_range (date.year + 1) 1
    exact ⟨le_refl 1, by show (1 : ℤ) ≤ 12; omega, le_refl 1,
      by show 1 ≤ monthLength (date.year + 1) 1; omega⟩

/-- The day before a date is a date. -/
theorem Date.Valid.previous {date : Date} (valid : date.Valid) : date.previous.Valid := by
  obtain ⟨monthLow, monthHigh, dayLow, dayHigh⟩ := valid
  unfold Date.previous
  split_ifs with inside
  · exact ⟨monthLow, monthHigh, by show 1 ≤ date.day - 1; omega,
      by show date.day - 1 ≤ monthLength date.year date.month; omega⟩
  · have length := monthLength_range date.year (date.month - 1)
    exact ⟨by show 1 ≤ date.month - 1; omega, by show date.month - 1 ≤ 12; omega,
      by show 1 ≤ monthLength date.year (date.month - 1); omega, le_refl _⟩
  · have length := monthLength_december (date.year - 1)
    exact ⟨by show (1 : ℤ) ≤ 12; omega, le_refl 12, by show (1 : ℤ) ≤ 31; omega,
      by show 31 ≤ monthLength (date.year - 1) 12; omega⟩

/-- The day after the day before a date is the date. -/
theorem Date.Valid.next_previous {date : Date} (valid : date.Valid) :
    date.previous.next = date := by
  obtain ⟨monthLow, monthHigh, dayLow, dayHigh⟩ := valid
  unfold Date.previous
  split_ifs with inside early
  · have short : date.day - 1 < monthLength date.year date.month := by omega
    simp [Date.next, short]
  · have first : date.day = 1 := by omega
    have before : date.month - 1 < 12 := by omega
    simp only [Date.next, lt_irrefl, if_false, if_pos before]
    ext <;> simp [first]
  · have first : date.day = 1 := by omega
    have january : date.month = 1 := by omega
    have length := monthLength_december (date.year - 1)
    simp only [Date.next, length, lt_irrefl, if_false]
    ext <;> simp [first, january]

/-- Every day number has a date. -/
theorem date_valid (days : ℤ) : (date days).Valid := by
  have valid : epoch.Valid := by decide
  have iterated (step : Date → Date) (keeps : ∀ {d : Date}, d.Valid → (step d).Valid) (n : ℕ) :
      (step^[n] epoch).Valid := by
    induction n with
    | zero => exact valid
    | succ n hypothesis => rw [Function.iterate_succ_apply']; exact keeps hypothesis
  cases days with
  | ofNat n => exact iterated _ Date.Valid.next n
  | negSucc n => exact iterated _ Date.Valid.previous (n + 1)

/-- Consecutive day numbers have consecutive dates. -/
theorem date_succ (days : ℤ) : date (days + 1) = (date days).next := by
  match days with
  | .ofNat n => exact Function.iterate_succ_apply' Date.next n epoch
  | .negSucc 0 =>
    have valid : epoch.Valid := by decide
    exact valid.next_previous.symm
  | .negSucc (n + 1) =>
    have valid := date_valid (.negSucc n)
    have step : date (.negSucc (n + 1)) = (date (.negSucc n)).previous :=
      Function.iterate_succ_apply' Date.previous (n + 1) epoch
    rw [step, valid.next_previous]
    rfl

/-- The days before the first of March of a year, from those of year zero on. -/
def marchDays (year : ℤ) : ℤ := 365 * year + year / 4 - year / 100 + year / 400

/-- The year a date belongs to, when years begin in March. -/
def Date.marchYear (date : Date) : ℤ := if date.month ≤ 2 then date.year - 1 else date.year

/-- The months of its year before the month of a date, when years begin in March. -/
def Date.marchMonth (date : Date) : ℤ := if date.month ≤ 2 then date.month + 9 else date.month - 3

/-- The number of the day of a date. -/
def dayNumber (date : Date) : ℤ :=
  marchDays date.marchYear + (153 * date.marchMonth + 2) / 5 + (date.day - 1) - 719468

/-- A year that begins in March is a leap year when the next January's year is one. -/
theorem marchDays_succ (year : ℤ) :
    marchDays (year + 1) = marchDays year + if leap (year + 1) then 366 else 365 := by
  unfold marchDays leap
  split_ifs <;> omega

/-- The number of a day, from its year, month and day of the month. -/
theorem dayNumber_mk (year month day : ℤ) : dayNumber ⟨year, month, day⟩ =
    marchDays (if month ≤ 2 then year - 1 else year) +
      (153 * (if month ≤ 2 then month + 9 else month - 3) + 2) / 5 + (day - 1) - 719468 := rfl

/-- A month but February fills its place in the year, when years begin in March. -/
theorem monthLength_march {month : ℤ} (year : ℤ) (low : 1 ≤ month) (high : month ≤ 12)
    (other : month ≠ 2) {march : ℤ} (shift : march = if month ≤ 2 then month + 9 else month - 3) :
    (153 * march + 2) / 5 + monthLength year month = (153 * (march + 1) + 2) / 5 := by
  have month_cases : month = 1 ∨ month = 3 ∨ month = 4 ∨ month = 5 ∨ month = 6 ∨
      month = 7 ∨ month = 8 ∨ month = 9 ∨ month = 10 ∨ month = 11 ∨ month = 12 := by omega
  subst shift
  rcases month_cases with rfl | rfl | rfl | rfl | rfl | rfl | rfl | rfl | rfl | rfl | rfl <;>
    rfl

/-- February has 28 days, and one more in a leap year. -/
theorem monthLength_february (year : ℤ) :
    monthLength year 2 = if leap year then 29 else 28 := by
  simp [monthLength]

/-- Consecutive dates have consecutive numbers. -/
theorem dayNumber_next {date : Date} (valid : date.Valid) :
    dayNumber date.next = dayNumber date + 1 := by
  obtain ⟨monthLow, monthHigh, dayLow, dayHigh⟩ := valid
  obtain ⟨year, month, day⟩ := date
  have leaps : marchDays year = marchDays (year - 1) + if leap year then 366 else 365 := by
    have step := marchDays_succ (year - 1)
    rwa [Int.sub_add_cancel] at step
  have advance : Date.next ⟨year, month, day⟩ =
      if day < monthLength year month then ⟨year, month, day + 1⟩
      else if month < 12 then ⟨year, month + 1, 1⟩ else ⟨year + 1, 1, 1⟩ := rfl
  simp only at monthLow monthHigh dayLow dayHigh
  rw [advance]
  split_ifs with inside early
  · rw [dayNumber_mk, dayNumber_mk]
    omega
  · have last : day = monthLength year month := by omega
    rw [dayNumber_mk, dayNumber_mk, last]
    clear dayHigh inside last
    by_cases february : month = 2
    · -- the year that begins in March ends
      subst february
      have length := monthLength_february year
      simp only [Int.reduceAdd, Int.reduceLE, if_true, if_false]
      split_ifs at leaps length <;> omega
    · have length := monthLength_march year monthLow monthHigh february rfl
      by_cases january : month = 1
      · subst january
        simp only [Int.reduceAdd, Int.reduceLE, if_true] at length ⊢
        omega
      · have late : ¬month ≤ 2 := by omega
        have late' : ¬month + 1 ≤ 2 := by omega
        have next : month + 1 - 3 = month - 3 + 1 := by omega
        rw [if_neg late] at length
        rw [if_neg late, if_neg late, if_neg late', if_neg late', next]
        omega
  · have december : month = 12 := by omega
    subst december
    have length := monthLength_december year
    rw [dayNumber_mk, dayNumber_mk, Int.add_sub_cancel]
    simp only [Int.reduceLE, if_true, if_false]
    omega

/-- The number of the date of a day is the day. -/
theorem dayNumber_date (days : ℤ) : dayNumber (date days) = days := by
  induction days using Int.induction_on with
  | zero => decide
  | succ days hypothesis => rw [date_succ, dayNumber_next (date_valid _), hypothesis]
  | pred days hypothesis =>
    have step := date_succ (-days - 1)
    have number := dayNumber_next (date_valid (-days - 1))
    rw [Int.sub_add_cancel] at step
    rw [← step, hypothesis] at number
    omega

/-- The year of a day of an era, both counted from the start of the era. -/
def yearOfEra (dayOfEra : ℤ) : ℤ :=
  (dayOfEra - dayOfEra / 1460 + dayOfEra / 36524 - dayOfEra / 146096) / 365

/-- The date of a day of an era, which begins in March. -/
def civil (era dayOfEra : ℤ) : Date :=
  let year := yearOfEra dayOfEra
  let dayOfYear := dayOfEra - (365 * year + year / 4 - year / 100)
  let marchMonth := (5 * dayOfYear + 2) / 153
  let day := dayOfYear - (153 * marchMonth + 2) / 5 + 1
  let month := if marchMonth < 10 then marchMonth + 3 else marchMonth - 9
  ⟨if month ≤ 2 then year + era * 400 + 1 else year + era * 400, month, day⟩

/-- The year of the era, from its century, its fourth year before and the years since. The last
day of the last year of a century is a leap day only at the end of the era. -/
theorem yearOfEra_eq {century fours years dayOfEra dayOfYear : ℤ} (centuries : 0 ≤ century)
    (centuries' : century ≤ 3) (fourths : 0 ≤ fours) (fourths' : fours ≤ 24) (since : 0 ≤ years)
    (since' : years ≤ 3) (days : 0 ≤ dayOfYear)
    (short : dayOfYear ≤ 364 ∨ dayOfYear = 365 ∧ years = 3 ∧ (fours < 24 ∨ century = 3))
    (sum : dayOfEra = 36524 * century + 1461 * fours + 365 * years + dayOfYear) :
    yearOfEra dayOfEra = 100 * century + (4 * fours + years) := by
  have quarters :
      (1460 ≤ 24 * century + fours + 365 * years + dayOfYear ∧
        dayOfEra / 1460 = 25 * century + fours + 1) ∨
      (24 * century + fours + 365 * years + dayOfYear < 1460 ∧
        dayOfEra / 1460 = 25 * century + fours) := by omega
  have range : dayOfEra < 36524 * century + 36524 ∨ century = 3 ∧ dayOfEra = 146096 := by
    clear quarters
    rcases short with short | ⟨_, _, inner | _⟩
    · exact Or.inl (by omega)
    · exact Or.inl (by omega)
    · omega
  have hundreds : dayOfEra / 36524 = century + dayOfEra / 146096 := by omega
  have counted : dayOfEra - dayOfEra / 1460 + dayOfEra / 36524 - dayOfEra / 146096 =
      dayOfEra - dayOfEra / 1460 + century := by omega
  rw [yearOfEra, counted]
  omega

/-- A day of an era lies in its year. -/
theorem yearOfEra_range {dayOfEra : ℤ} (low : 0 ≤ dayOfEra) (high : dayOfEra < 146097) :
    0 ≤ yearOfEra dayOfEra ∧ yearOfEra dayOfEra ≤ 399 ∧
      0 ≤ dayOfEra -
        (365 * yearOfEra dayOfEra + yearOfEra dayOfEra / 4 - yearOfEra dayOfEra / 100) ∧
      dayOfEra -
        (365 * yearOfEra dayOfEra + yearOfEra dayOfEra / 4 - yearOfEra dayOfEra / 100) ≤ 365 := by
  obtain ⟨century, atCentury⟩ : ∃ century, century = min (dayOfEra / 36524) 3 := ⟨_, rfl⟩
  obtain ⟨fours, atFours⟩ : ∃ fours, fours = (dayOfEra - 36524 * century) / 1461 := ⟨_, rfl⟩
  obtain ⟨years, atYears⟩ :
      ∃ years, years = min ((dayOfEra - 36524 * century - 1461 * fours) / 365) 3 := ⟨_, rfl⟩
  obtain ⟨dayOfYear, sum⟩ : ∃ dayOfYear,
      dayOfEra = 36524 * century + 1461 * fours + 365 * years + dayOfYear :=
    ⟨dayOfEra - 36524 * century - 1461 * fours - 365 * years, by omega⟩
  have centuries : 0 ≤ century ∧ century ≤ 3 := by omega
  have fourths : 0 ≤ fours ∧ fours ≤ 24 := by omega
  have since : 0 ≤ years ∧ years ≤ 3 := by omega
  have days : 0 ≤ dayOfYear := by omega
  have short : dayOfYear ≤ 364 ∨ dayOfYear = 365 ∧ years = 3 ∧ (fours < 24 ∨ century = 3) := by
    omega
  have quarter : (100 * century + (4 * fours + years)) / 4 = 25 * century + fours := by omega
  have hundred : (100 * century + (4 * fours + years)) / 100 = century := by omega
  rw [yearOfEra_eq centuries.1 centuries.2 fourths.1 fourths.2 since.1 since.2 days short sum,
    quarter, hundred]
  omega

/-- The days of a year before a month, when years begin in March, tell the month. -/
theorem marchMonth_eq {year month day : ℤ} (valid : Date.Valid ⟨year, month, day⟩) {march : ℤ}
    (shift : march = if month ≤ 2 then month + 9 else month - 3) :
    (5 * ((153 * march + 2) / 5 + (day - 1)) + 2) / 153 = march ∧
      0 ≤ (153 * march + 2) / 5 + (day - 1) ∧
        ((153 * march + 2) / 5 + (day - 1) ≤ 364 ∨
          (153 * march + 2) / 5 + (day - 1) = 365 ∧ month = 2 ∧ leap year) := by
  obtain ⟨monthLow, monthHigh, dayLow, dayHigh⟩ := valid
  simp only at monthLow monthHigh dayLow dayHigh
  by_cases february : month = 2
  · subst february
    have length := monthLength_february year
    simp only [le_refl, if_true, Int.reduceAdd] at shift
    subst shift
    by_cases isLeap : leap year
    · rw [if_pos isLeap] at length
      exact ⟨by omega, by omega, by simp only [isLeap, and_true]; omega⟩
    · rw [if_neg isLeap] at length
      exact ⟨by omega, by omega, Or.inl (by omega)⟩
  · have length := monthLength_march year monthLow monthHigh february shift
    have range : 0 ≤ march ∧ march ≤ 10 := by split_ifs at shift <;> omega
    exact ⟨by omega, by omega, Or.inl (by omega)⟩

/-- The date of the number of a date is the date. -/
theorem civil_dayNumber {date : Date} (valid : date.Valid) :
    civil ((dayNumber date + 719468) / 146097) ((dayNumber date + 719468) % 146097) = date := by
  obtain ⟨year, month, day⟩ := date
  -- the year, when years begin in March, by era, century, fourth year and the years since
  obtain ⟨march, atMarch⟩ : ∃ march, march = if month ≤ 2 then month + 9 else month - 3 := ⟨_, rfl⟩
  obtain ⟨start, atStart⟩ : ∃ start, start = if month ≤ 2 then year - 1 else year := ⟨_, rfl⟩
  obtain ⟨back, nonneg, short⟩ := marchMonth_eq valid atMarch
  obtain ⟨ordinal, atOrdinal⟩ : ∃ ordinal, ordinal = (153 * march + 2) / 5 + (day - 1) := ⟨_, rfl⟩
  obtain ⟨era, century, fours, years, parts, century0, century3, fours0, fours24, years0, years3⟩ :
      ∃ era century fours years : ℤ, start = 400 * era + 100 * century + 4 * fours + years ∧
        0 ≤ century ∧ century ≤ 3 ∧ 0 ≤ fours ∧ fours ≤ 24 ∧ 0 ≤ years ∧ years ≤ 3 :=
    ⟨start / 400, start % 400 / 100, start % 100 / 4, start % 4, by omega⟩
  rw [← atOrdinal] at back nonneg short
  have leapDay : ordinal ≤ 364 ∨ ordinal = 365 ∧ years = 3 ∧ (fours < 24 ∨ century = 3) := by
    rcases short with short | ⟨long, february, isLeap⟩
    · exact Or.inl short
    · rw [february] at atStart
      simp only [leap, le_refl, if_true] at isLeap atStart
      omega
  have number : dayNumber ⟨year, month, day⟩ + 719468 =
      146097 * era + (36524 * century + 1461 * fours + 365 * years + ordinal) := by
    rw [dayNumber_mk, ← atMarch, ← atStart, marchDays, atOrdinal]
    omega
  have quotient : (dayNumber ⟨year, month, day⟩ + 719468) / 146097 = era := by omega
  have remainder : (dayNumber ⟨year, month, day⟩ + 719468) % 146097 =
      36524 * century + 1461 * fours + 365 * years + ordinal := by omega
  have yearEq := yearOfEra_eq century0 century3 fours0 fours24 years0 years3 nonneg leapDay rfl
  have dayOfYear : 36524 * century + 1461 * fours + 365 * years + ordinal -
      (365 * (100 * century + (4 * fours + years)) + (100 * century + (4 * fours + years)) / 4 -
        (100 * century + (4 * fours + years)) / 100) = ordinal := by omega
  obtain ⟨monthLow, monthHigh, -, -⟩ := valid
  simp only at monthLow monthHigh
  rw [quotient, remainder]
  simp only [civil, yearEq, dayOfYear, back]
  have monthEq : (if march < 10 then march + 3 else march - 9) = month := by
    split_ifs at atMarch ⊢ <;> omega
  rw [monthEq]
  ext
  · show (if month ≤ 2 then _ else _) = year
    split_ifs at atStart ⊢ <;> omega
  · rfl
  · show ordinal - (153 * march + 2) / 5 + 1 = day
    omega

/-- The date of a day, by era and day of the era. -/
theorem date_eq_civil (days : ℤ) :
    date days = civil ((days + 719468) / 146097) ((days + 719468) % 146097) := by
  have back := civil_dayNumber (date_valid days)
  rw [dayNumber_date] at back
  exact back.symm

end Fai.Gregorian
