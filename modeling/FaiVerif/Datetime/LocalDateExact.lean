import FaiVerif.Datetime.Fields
import FaiVerif.Datetime.LocalDate
import FaiVerif.Lib.Gregorian

/-!
# Dates are exact

The year, month and day of the month that `LocalDate` computes are those of the proleptic Gregorian
calendar for every day of the machine, and the way back is exact wherever the date has a day.
-/

namespace Fai.Datetime

open Machine64 Integers

/-- The date of every day is computed without leaving the machine integers on the way. -/
theorem computes_civilOf {x : Int64} {c : Checked} {e : ℤ} (input : Computes x c e) :
    Computes (civilOf x).1 (civilOf c).1 (Gregorian.date e).year ∧
      Computes (civilOf x).2.1 (civilOf c).2.1 (Gregorian.date e).month ∧
        Computes (civilOf x).2.2 (civilOf c).2.2 (Gregorian.date e).day := by
  have low := input.fits.1
  have high := input.fits.2
  have cycle : Computes 146097 146097 146097 := .literal 146097 (by decide)
  have shifted := (computes_floorMod input cycle (by decide)).add
    (Computes.literal 719468 (by decide)) ⟨by omega, by omega⟩
  have era := ((computes_floorDiv input cycle (by decide)).add
    (shifted.divide cycle (by omega) (by decide)) ⟨by omega, by omega⟩).cast
      (w := (e + 719468) / 146097) (by omega)
  have doe := (shifted.remainder cycle (by omega) (by decide)).cast
    (w := (e + 719468) % 146097) (by omega)
  rw [Gregorian.date_eq_civil]
  have eraRange : -2 ^ 47 ≤ (e + 719468) / 146097 ∧ (e + 719468) / 146097 ≤ 2 ^ 47 := by omega
  have doeRange : 0 ≤ (e + 719468) % 146097 ∧ (e + 719468) % 146097 < 146097 := by omega
  generalize (e + 719468) / 146097 = eraValue at era eraRange ⊢
  generalize (e + 719468) % 146097 = dayOfEra at doe doeRange ⊢
  have yoe := ((((doe.sub (doe.divide (.literal 1460 (by decide)) (by omega) (by decide))
    ⟨by omega, by omega⟩).add (doe.divide (.literal 36524 (by decide)) (by omega) (by decide))
    ⟨by omega, by omega⟩).sub (doe.divide (.literal 146096 (by decide)) (by omega) (by decide))
    ⟨by omega, by omega⟩).divide (.literal 365 (by decide)) (by omega) (by decide)).cast
      (w := Gregorian.yearOfEra dayOfEra) rfl
  have yoeRange := Gregorian.yearOfEra_range doeRange.1 doeRange.2
  unfold Gregorian.civil
  generalize Gregorian.yearOfEra dayOfEra = year at yoe yoeRange ⊢
  have y := yoe.add (era.mul (.literal 400 (by decide)) ⟨by omega, by omega⟩)
    ⟨by omega, by omega⟩
  have doy := doe.sub ((((Computes.literal 365 (by decide)).mul yoe ⟨by omega, by omega⟩).add
    (yoe.divide (.literal 4 (by decide)) (by omega) (by decide)) ⟨by omega, by omega⟩).sub
    (yoe.divide (.literal 100 (by decide)) (by omega) (by decide)) ⟨by omega, by omega⟩)
    ⟨by omega, by omega⟩
  have mp := (((Computes.literal 5 (by decide)).mul doy ⟨by omega, by omega⟩).add
    (.literal 2 (by decide)) ⟨by omega, by omega⟩).divide (.literal 153 (by decide)) (by omega)
      (by decide)
  have d := (doy.sub ((((Computes.literal 153 (by decide)).mul mp ⟨by omega, by omega⟩).add
    (.literal 2 (by decide)) ⟨by omega, by omega⟩).divide (.literal 5 (by decide)) (by omega)
      (by decide)) ⟨by omega, by omega⟩).add (.literal 1 (by decide)) ⟨by omega, by omega⟩
  have m := Computes.branch (mp.below (.literal 10 (by decide)))
    (fun _ => mp.add (.literal 3 (by decide)) ⟨by omega, by omega⟩)
    fun _ => mp.sub (.literal 9 (by decide)) ⟨by omega, by omega⟩
  have shiftedYear := Computes.branch (m.atMost (.literal 2 (by decide)))
    (fun _ => y.add (.literal 1 (by decide)) ⟨by omega, by omega⟩) fun _ => y
  exact ⟨shiftedYear, m, d⟩

/-- A year is a leap year of the code when it is one of the calendar. -/
theorem isLeapYear_eq (year : Int64) : isLeapYear year = decide (Gregorian.leap year.toInt) := by
  have input := Computes.start year
  have four : same (floorMod year 4) 0 = decide (year.toInt % 4 = 0) :=
    ((computes_floorMod input (.literal 4 (by decide)) (by decide)).same
      (.literal 0 (by decide))).1
  have hundred : same (floorMod year 100) 0 = decide (year.toInt % 100 = 0) :=
    ((computes_floorMod input (.literal 100 (by decide)) (by decide)).same
      (.literal 0 (by decide))).1
  have fourHundred : same (floorMod year 400) 0 = decide (year.toInt % 400 = 0) :=
    ((computes_floorMod input (.literal 400 (by decide)) (by decide)).same
      (.literal 0 (by decide))).1
  show (same (floorMod year 4) 0 && (!same (floorMod year 100) 0 || same (floorMod year 400) 0)) = _
  rw [four, hundred, fourHundred, ← decide_not, ← Bool.decide_or, ← Bool.decide_and]
  rfl

/-- The days of a month. -/
theorem toInt_daysInMonth (year : Int64) {month : Int64} (low : 1 ≤ month.toInt)
    (high : month.toInt ≤ 12) :
    (daysInMonth year month).toInt = Gregorian.monthLength year.toInt month.toInt := by
  have months : month.toInt = 1 ∨ month.toInt = 2 ∨ month.toInt = 3 ∨ month.toInt = 4 ∨
      month.toInt = 5 ∨ month.toInt = 6 ∨ month.toInt = 7 ∨ month.toInt = 8 ∨ month.toInt = 9 ∨
      month.toInt = 10 ∨ month.toInt = 11 ∨ month.toInt = 12 := by omega
  unfold daysInMonth Month.fromInt
  rw [isLeapYear_eq]
  by_cases leap : Gregorian.leap year.toInt
  all_goals
    rcases months with is | is | is | is | is | is | is | is | is | is | is | is
  all_goals
    rw [is]
    simp [Gregorian.monthLength, Month.length, leap]

/-- The day of a date is its number, wrapped to the machine integers. -/
theorem epochDayOf_eq {year month day : Int64} (monthLow : 1 ≤ month.toInt)
    (monthHigh : month.toInt ≤ 12) (dayLow : 1 ≤ day.toInt) (dayHigh : day.toInt ≤ 31) :
    epochDayOf year month day =
      Int64.ofInt (Gregorian.dayNumber ⟨year.toInt, month.toInt, day.toInt⟩) := by
  obtain ⟨m, atMonth⟩ : ∃ m, m = month.toInt := ⟨_, rfl⟩
  obtain ⟨y, atYear⟩ : ∃ y, y = year.toInt := ⟨_, rfl⟩
  have yearInput := (Computes.start year).cast atYear.symm
  have monthInput := (Computes.start month).cast atMonth.symm
  have dayInput := Computes.start day
  have yearLow := yearInput.fits.1
  have yearHigh := yearInput.fits.2
  rw [← atMonth] at monthLow monthHigh
  have shift := Computes.branch (monthInput.atMost (.literal 2 (by decide)))
    (fun _ => .literal 1 (by decide)) fun _ => .literal 0 (by decide)
  have shiftRange : (0 : ℤ) ≤ (if m ≤ ((2 : ℕ) : ℤ) then ((1 : ℕ) : ℤ) else ((0 : ℕ) : ℤ)) ∧
      (if m ≤ ((2 : ℕ) : ℤ) then ((1 : ℕ) : ℤ) else ((0 : ℕ) : ℤ)) ≤ 1 := by
    split_ifs <;> decide
  have march : (if m ≤ 2 then y - 1 else y) =
      y - if m ≤ ((2 : ℕ) : ℤ) then ((1 : ℕ) : ℤ) else ((0 : ℕ) : ℤ) := by
    split_ifs <;> omega
  rw [← atYear, ← atMonth, Gregorian.dayNumber_mk, march]
  generalize (if m ≤ ((2 : ℕ) : ℤ) then ((1 : ℕ) : ℤ) else ((0 : ℕ) : ℤ)) = earlier
    at shift shiftRange ⊢
  have yearInEra := (computes_floorMod yearInput (.literal 400 (by decide)) (by decide)).sub shift
    ⟨by omega, by omega⟩
  have before := yearInEra.below (.literal 0 (by decide))
  have era := ((computes_floorDiv yearInput (.literal 400 (by decide)) (by decide)).sub
    (.branch before (fun _ => .literal 1 (by decide)) fun _ => .literal 0 (by decide))
    ⟨by split_ifs <;> omega, by split_ifs <;> omega⟩).cast (w := (y - earlier) / 400)
      (by split_ifs <;> omega)
  have yoe := (Computes.branch before
    (fun _ => yearInEra.add (.literal 400 (by decide)) ⟨by omega, by omega⟩)
    fun _ => yearInEra).cast (w := (y - earlier) % 400) (by split_ifs <;> omega)
  have mp := (Computes.branch ((Computes.literal 2 (by decide)).below monthInput)
    (fun _ => monthInput.sub (.literal 3 (by decide)) ⟨by omega, by omega⟩)
    fun _ => monthInput.add (.literal 9 (by decide)) ⟨by omega, by omega⟩).cast
      (w := if m ≤ 2 then m + 9 else m - 3) (by split_ifs <;> omega)
  have mpRange : 0 ≤ (if m ≤ 2 then m + 9 else m - 3) ∧
      (if m ≤ 2 then m + 9 else m - 3) ≤ 11 := by split_ifs <;> omega
  generalize (if m ≤ 2 then m + 9 else m - 3) = marchMonth at mp mpRange ⊢
  have doy := (((((Computes.literal 153 (by decide)).mul mp ⟨by omega, by omega⟩).add
    (.literal 2 (by decide)) ⟨by omega, by omega⟩).divide (.literal 5 (by decide)) (by omega)
      (by decide)).add dayInput ⟨by omega, by omega⟩).sub (.literal 1 (by decide))
        ⟨by omega, by omega⟩
  have doe := ((((yoe.mul (.literal 365 (by decide)) ⟨by omega, by omega⟩).add
    (yoe.divide (.literal 4 (by decide)) (by omega) (by decide)) ⟨by omega, by omega⟩).sub
      (yoe.divide (.literal 100 (by decide)) (by omega) (by decide)) ⟨by omega, by omega⟩).add
        doy ⟨by omega, by omega⟩).cast (w := (y - earlier) % 400 * 365 + (y - earlier) % 400 / 4 -
          (y - earlier) % 400 / 100 + ((153 * marchMonth + 2) / 5 + day.toInt - 1)) rfl
  have word {x : Int64} {c : Checked} {v : ℤ} (computes : Computes x c v) : x = Int64.ofInt v := by
    rw [← computes.machine, Int64.ofInt_toInt]
  -- only the last line can leave the machine integers, and wraps back into them
  have result : epochDayOf year month day = Int64.ofInt ((y - earlier) / 400) *
      Int64.ofInt 146097 + Int64.ofInt ((y - earlier) % 400 * 365 + (y - earlier) % 400 / 4 -
        (y - earlier) % 400 / 100 + ((153 * marchMonth + 2) / 5 + day.toInt - 1)) -
          Int64.ofInt 719468 := by
    rw [← word era, ← word doe]
    rfl
  rw [result, ← Int64.ofInt_mul, ← Int64.ofInt_add, ← Int64.ofInt_sub]
  congr 1
  unfold Gregorian.marchDays
  omega

/-- The year, the month and the day of the month of a date. -/
def LocalDate.toDate (d : LocalDate) : Gregorian.Date := ⟨d.year.toInt, d.month.toInt, d.day.toInt⟩

/-- The year of a date. -/
theorem toDate_year (d : LocalDate) : d.toDate.year = d.year.toInt := by rw [LocalDate.toDate]

/-- The month of a date. -/
theorem toDate_month (d : LocalDate) : d.toDate.month = d.month.toInt := by rw [LocalDate.toDate]

/-- The day of the month of a date. -/
theorem toDate_day (d : LocalDate) : d.toDate.day = d.day.toInt := by rw [LocalDate.toDate]

/-- A date of the code is the date of its day in the calendar. -/
theorem toDate_eq (d : LocalDate) : d.toDate = Gregorian.date d.epochDay.toInt := by
  obtain ⟨year, month, day⟩ := computes_civilOf (Computes.start d.epochDay)
  ext
  · rw [toDate_year, ← year.machine, LocalDate.year, LocalDate.toEpochDay]
  · rw [toDate_month, ← month.machine, LocalDate.month, LocalDate.toEpochDay]
  · rw [toDate_day, ← day.machine, LocalDate.day, LocalDate.toEpochDay]

/-- A date of the code is a date of the calendar. -/
theorem valid_toDate (d : LocalDate) : d.toDate.Valid := by
  rw [toDate_eq]
  exact Gregorian.date_valid _

/-- A date is found exactly when it is one of the calendar. -/
theorem of_eq_some_iff {year month day : Int64} {d : LocalDate} :
    LocalDate.of year month day = some d ↔
      Gregorian.Date.Valid ⟨year.toInt, month.toInt, day.toInt⟩ ∧
        d = ⟨epochDayOf year month day⟩ := by
  have one : (1 : Int64).toInt = 1 := rfl
  have twelve : (12 : Int64).toInt = 12 := rfl
  unfold LocalDate.of
  simp only [gt_iff_lt, Int64.lt_iff_toInt_lt, one, twelve]
  split_ifs with outside beyond
  · simp only [false_iff, not_and]
    intro valid
    have low := valid.month_low
    have high := valid.month_high
    simp only at low high
    omega
  · rw [toInt_daysInMonth _ (by omega) (by omega)] at beyond
    simp only [false_iff, not_and]
    intro valid
    have low := valid.day_low
    have high := valid.day_high
    simp only at low high
    omega
  · rw [toInt_daysInMonth _ (by omega) (by omega)] at beyond
    have valid : Gregorian.Date.Valid ⟨year.toInt, month.toInt, day.toInt⟩ :=
      ⟨by show 1 ≤ month.toInt; omega, by show month.toInt ≤ 12; omega,
        by show 1 ≤ day.toInt; omega,
        by show day.toInt ≤ Gregorian.monthLength year.toInt month.toInt; omega⟩
    simp only [valid, true_and, Option.some.injEq]
    exact eq_comm

/-- The day of a date with a day of the machine. -/
theorem epochDayOf_date {year month day e : Int64}
    (date : Gregorian.date e.toInt = ⟨year.toInt, month.toInt, day.toInt⟩) :
    epochDayOf year month day = e := by
  have valid := Gregorian.date_valid e.toInt
  rw [date] at valid
  have length := Gregorian.monthLength_range year.toInt month.toInt
  have dayHigh := valid.day_high
  simp only at dayHigh
  rw [epochDayOf_eq valid.month_low valid.month_high valid.day_low (by omega), ← date,
    Gregorian.dayNumber_date, Int64.ofInt_toInt]

/-- A date with a day of the machine is found as that day. -/
theorem of_date {year month day e : Int64}
    (date : Gregorian.date e.toInt = ⟨year.toInt, month.toInt, day.toInt⟩) :
    LocalDate.of year month day = some ⟨e⟩ := by
  have valid := Gregorian.date_valid e.toInt
  rw [date] at valid
  exact of_eq_some_iff.mpr ⟨valid, by rw [epochDayOf_date date]⟩

/-- A date is found again from its parts. -/
theorem of_parts (d : LocalDate) : LocalDate.of d.year d.month d.day = some d :=
  of_date (toDate_eq d).symm

/-- The years of the machine's days. -/
theorem year_range {e : ℤ} (fits : Fits e) :
    -2 ^ 55 ≤ (Gregorian.date e).year ∧ (Gregorian.date e).year ≤ 2 ^ 55 := by
  obtain ⟨low, high⟩ := fits
  have number := Gregorian.dayNumber_date e
  obtain ⟨monthLow, monthHigh, dayLow, dayHigh⟩ := Gregorian.date_valid e
  have length := Gregorian.monthLength_range (Gregorian.date e).year (Gregorian.date e).month
  unfold Gregorian.dayNumber Gregorian.marchDays Gregorian.Date.marchYear
    Gregorian.Date.marchMonth at number
  split_ifs at number <;> omega

/-- A date that is clamped to a day of the machine. -/
theorem clamped_eq {year month day e : Int64}
    (date : Gregorian.date e.toInt = Gregorian.clip year.toInt month.toInt day.toInt) :
    LocalDate.clamped year month day = ⟨e⟩ := by
  have valid := Gregorian.date_valid e.toInt
  rw [date] at valid
  have length := toInt_daysInMonth year valid.month_low valid.month_high
  unfold LocalDate.clamped
  simp only [LocalDate.mk.injEq]
  refine epochDayOf_date ?_
  rw [date, Gregorian.clip]
  congr 1
  split_ifs with beyond
  · rw [gt_iff_lt, Int64.lt_iff_toInt_lt, length] at beyond
    rw [length]
    omega
  · rw [gt_iff_lt, Int64.lt_iff_toInt_lt, length] at beyond
    omega

/-- Months later is the intended day, wherever that is a day of the machine. -/
theorem plusMonths_eq {n e : Int64} {d : LocalDate}
    (date : Gregorian.date e.toInt = d.toDate.plusMonths n.toInt) : d.plusMonths n = ⟨e⟩ := by
  have year := (Computes.start d.year).cast (toDate_year d).symm
  have month := (Computes.start d.month).cast (toDate_month d).symm
  have amount := Computes.start n
  have range := year_range (fits_toInt e)
  have yearRange := year_range (fits_toInt d.epochDay)
  rw [← toDate_eq] at yearRange
  have valid := valid_toDate d
  have monthLow := valid.month_low
  have monthHigh := valid.month_high
  rw [date] at range
  have later : (d.toDate.plusMonths n.toInt).year =
      (d.toDate.year * 12 + (d.toDate.month - 1) + n.toInt) / 12 := rfl
  rw [later] at range
  have months := ((year.mul (.literal 12 (by decide)) ⟨by omega, by omega⟩).add
    (month.sub (.literal 1 (by decide)) ⟨by omega, by omega⟩) ⟨by omega, by omega⟩).add amount
      ⟨by omega, by omega⟩
  have years := computes_floorDiv months (.literal 12 (by decide)) (by decide)
  have rest := (computes_floorMod months (.literal 12 (by decide)) (by decide)).add
    (.literal 1 (by decide)) ⟨by omega, by omega⟩
  rw [LocalDate.plusMonths]
  refine clamped_eq ?_
  rw [date, Gregorian.Date.plusMonths, toDate_day]
  exact congrArg₂ (fun y m => Gregorian.clip y m d.day.toInt) years.machine.symm rest.machine.symm

/-- Years later is the intended day, wherever that is a day of the machine. -/
theorem plusYears_eq {n e : Int64} {d : LocalDate}
    (date : Gregorian.date e.toInt = d.toDate.plusYears n.toInt) : d.plusYears n = ⟨e⟩ := by
  have year := (Computes.start d.year).cast (toDate_year d).symm
  have range := year_range (fits_toInt e)
  have later : (d.toDate.plusYears n.toInt).year = d.toDate.year + n.toInt := rfl
  rw [date, later] at range
  have years := year.add (Computes.start n) ⟨by omega, by omega⟩
  rw [LocalDate.plusYears]
  refine clamped_eq ?_
  rw [date, Gregorian.Date.plusYears, toDate_day, toDate_month, years.machine]

/-- The text of the year of a date. -/
def yearText (y : ℤ) : List Char :=
  if y < 0 then '-' :: field 4 y.natAbs else field 4 y.natAbs

/-- The text of a date. -/
theorem toString_eq (d : LocalDate) : d.toString = yearText d.toDate.year ++ ['-'] ++
    field 2 d.toDate.month.toNat ++ ['-'] ++ field 2 d.toDate.day.toNat := by
  have valid := valid_toDate d
  have month : 0 ≤ d.month.toInt := by
    rw [← toDate_month]
    exact le_trans (by decide) valid.month_low
  have day : 0 ≤ d.day.toInt := by rw [← toDate_day]; exact le_trans (by decide) valid.day_low
  have range := year_range (fits_toInt d.epochDay)
  rw [← toDate_eq] at range
  have zero : (0 : Int64).toInt = 0 := rfl
  have yearStr : (if d.year < 0 then '-' :: Text.padStart 4 '0' (Integers.toString (0 - d.year))
      else Text.padStart 4 '0' (Integers.toString d.year)) = yearText d.toDate.year := by
    unfold yearText
    rw [toDate_year] at range ⊢
    simp only [Int64.lt_iff_toInt_lt, zero]
    split_ifs with negative
    · have opposite : (0 - d.year).toInt = -d.year.toInt := by
        rw [Int64.toInt_sub, zero]
        have fits : Fits (0 - d.year.toInt) := ⟨by omega, by omega⟩
        rw [bmod_of_fits fits]
        omega
      have size : (-d.year.toInt).toNat = d.year.toInt.natAbs := by omega
      rw [padStart_four (by omega), opposite, size]
    · have size : d.year.toInt.toNat = d.year.toInt.natAbs := by omega
      rw [padStart_four (by omega), size]
  rw [toDate_month, toDate_day, ← padStart_two month, ← padStart_two day, ← yearStr,
    LocalDate.toString]

/-- Reads a date, whose last two fields are two digits each. -/
theorem parse_fields {y m d : List Char} (long : 2 ≤ y.length) (month : m.length = 2)
    (day : d.length = 2) : LocalDate.parse (y ++ ['-'] ++ m ++ ['-'] ++ d) =
      (fromString y).bind fun y => (fromString m).bind fun m => (fromString d).bind fun d =>
        LocalDate.of y m d := by
  have size : Text.length (y ++ ['-'] ++ m ++ ['-'] ++ d) = y.length + 6 := by
    simp only [Text.length, List.length_append, List.length_singleton, month, day]
    omega
  obtain ⟨s, atText⟩ : ∃ s, s = y ++ ['-'] ++ m ++ ['-'] ++ d := ⟨_, rfl⟩
  have atYears : s = [] ++ y ++ (['-'] ++ m ++ ['-'] ++ d) := by simp [atText]
  have atFirst : s = y ++ ['-'] ++ (m ++ ['-'] ++ d) := by simp [atText]
  have atMonths : s = y ++ ['-'] ++ m ++ (['-'] ++ d) := by simp [atText]
  have atSecond : s = y ++ ['-'] ++ m ++ ['-'] ++ d := atText
  have atDays : s = y ++ ['-'] ++ m ++ ['-'] ++ d ++ [] := by simp [atText]
  have years : Text.substring 0 (y.length + 6 - 6) s = y :=
    Text.substring_eq atYears rfl (by omega)
  have first : Text.substring (y.length + 6 - 6) 1 s = ['-'] :=
    Text.substring_eq atFirst (by omega) rfl
  have months : Text.substring (y.length + 6 - 5) 2 s = m :=
    Text.substring_eq atMonths
      (by rw [List.length_append, List.length_singleton]; omega) (by rw [month]; rfl)
  have second : Text.substring (y.length + 6 - 3) 1 s = ['-'] :=
    Text.substring_eq atSecond
      (by simp only [List.length_append, List.length_singleton, month]; omega) rfl
  have days : Text.substring (y.length + 6 - 2) 2 s = d :=
    Text.substring_eq atDays
      (by simp only [List.length_append, List.length_singleton, month]; omega) (by rw [day]; rfl)
  have enough : ¬ ((y.length : ℤ) + 6 < 8) := by omega
  rw [← atText] at size ⊢
  unfold LocalDate.parse
  simp only [size, second, first, years, months, days, if_neg enough]
  cases fromString y <;> cases fromString m <;> cases fromString d <;> rfl

/-- The text of a date is read as the date. -/
theorem parse_toString (d : LocalDate) : LocalDate.parse d.toString = some d := by
  have valid := valid_toDate d
  have length := Gregorian.monthLength_range d.toDate.year d.toDate.month
  have long : 2 ≤ (yearText d.toDate.year).length := by
    have four := le_length_field 4 d.toDate.year.natAbs
    unfold yearText
    split_ifs
    · rw [List.length_cons]
      omega
    · omega
  have monthLow := valid.month_low
  have monthHigh := valid.month_high
  have dayLow := valid.day_low
  have dayHigh := valid.day_high
  rw [toString_eq, parse_fields long (length_field (by decide) (by omega))
    (length_field (by decide) (by omega))]
  have year : fromString (yearText d.toDate.year) = some d.year := by
    unfold yearText
    rw [toDate_year]
    split_ifs with negative
    · exact fromString_negative 4 _ (by omega)
    · have size : d.year.toInt.natAbs = d.year.toInt.toNat := by omega
      rw [size]
      exact fromString_toNat 4 (by omega)
  rw [toDate_month] at monthLow ⊢
  rw [toDate_day] at dayLow ⊢
  rw [year, fromString_toNat 2 (by omega), fromString_toNat 2 (by omega), Option.bind_some,
    Option.bind_some, Option.bind_some, of_parts d]

/-- The date of the day after a date is the date after it. -/
theorem toDate_succ {e : Int64} (last : e ≠ Int64.maxValue) :
    (LocalDate.fromEpochDay (e + 1)).toDate = (LocalDate.fromEpochDay e).toDate.next := by
  have below : e.toInt ≠ 2 ^ 63 - 1 := fun same => last (Int64.toInt_inj.mp same)
  have room := (fits_toInt e).2
  have low := (fits_toInt e).1
  have sum := (Computes.start e).add (.literal 1 (by decide)) ⟨by omega, by omega⟩
  have later : (e + 1).toInt = e.toInt + 1 := sum.machine
  rw [toDate_eq, toDate_eq, LocalDate.fromEpochDay, LocalDate.fromEpochDay, later,
    Gregorian.date_succ]

/-- A date is found exactly when it is one of the calendar. -/
theorem of_isSome {year month day : Int64} : (LocalDate.of year month day).isSome = true ↔
    Gregorian.Date.Valid ⟨year.toInt, month.toInt, day.toInt⟩ := by
  rw [Option.isSome_iff_exists]
  constructor
  · rintro ⟨d, found⟩
    exact (of_eq_some_iff.mp found).1
  · exact fun valid => ⟨_, of_eq_some_iff.mpr ⟨valid, rfl⟩⟩

/-- Every day of the machine has, computed without wrapping on the way, its date of the calendar,
which is found again from its parts and read again from its text. A date is found exactly when it
is one of the calendar, and has its own parts when its day is one of the machine. Months and years
later is the intended month, on its last day for a day beyond, when the day there is one of the
machine. -/
theorem calendar_exact :
    (∀ e : Int64, (civilOf (Checked.of e.toInt true)).1.exact = true ∧
      (civilOf (Checked.of e.toInt true)).2.1.exact = true ∧
      (civilOf (Checked.of e.toInt true)).2.2.exact = true ∧
      (LocalDate.fromEpochDay e).toDate = Gregorian.date e.toInt ∧
      (LocalDate.fromEpochDay e).toDate.Valid ∧
      (e ≠ Int64.maxValue → (LocalDate.fromEpochDay (e + 1)).toDate =
        (LocalDate.fromEpochDay e).toDate.next)) ∧
    (∀ d : LocalDate, LocalDate.of d.year d.month d.day = some d ∧
      LocalDate.parse d.toString = some d) ∧
    (∀ year month day : Int64,
      ((LocalDate.of year month day).isSome = true ↔
        Gregorian.Date.Valid ⟨year.toInt, month.toInt, day.toInt⟩) ∧
      ∀ e : Int64, Gregorian.date e.toInt = ⟨year.toInt, month.toInt, day.toInt⟩ →
        LocalDate.of year month day = some (.fromEpochDay e) ∧
          (LocalDate.fromEpochDay e).year = year ∧ (LocalDate.fromEpochDay e).month = month ∧
            (LocalDate.fromEpochDay e).day = day) ∧
    ∀ (n e : Int64) (d : LocalDate),
      (Gregorian.date e.toInt = d.toDate.plusMonths n.toInt →
        (d.plusMonths n).toDate = d.toDate.plusMonths n.toInt) ∧
      (Gregorian.date e.toInt = d.toDate.plusYears n.toInt →
        (d.plusYears n).toDate = d.toDate.plusYears n.toInt) := by
  refine ⟨fun e => ?_, fun d => ⟨of_parts d, parse_toString d⟩,
    fun year month day => ⟨of_isSome, fun e date => ⟨of_date date, ?_⟩⟩,
    fun n e d => ⟨fun date => ?_, fun date => ?_⟩⟩
  · obtain ⟨year, month, day⟩ := computes_civilOf (Computes.start e)
    exact ⟨year.exact, month.exact, day.exact, toDate_eq _, valid_toDate _, toDate_succ⟩
  · have parts := toDate_eq (.fromEpochDay e)
    rw [LocalDate.fromEpochDay, date, LocalDate.toDate, Gregorian.Date.mk.injEq, Int64.toInt_inj,
      Int64.toInt_inj, Int64.toInt_inj] at parts
    exact parts
  · rw [plusMonths_eq date, toDate_eq, date]
  · rw [plusYears_eq date, toDate_eq, date]

/-- A month after the end of January 2020 is the end of February, and a year after that the end of
February 2021. -/
theorem calendar_exact_february :
    (LocalDate.plusMonths 1 (.fromEpochDay 18292)).toDate = ⟨2020, 2, 29⟩ ∧
      (LocalDate.plusYears 1 (.fromEpochDay 18321)).toDate = ⟨2021, 2, 28⟩ := by
  have start : (LocalDate.fromEpochDay 18292).toDate = ⟨2020, 1, 31⟩ := by decide +kernel
  have next : (LocalDate.fromEpochDay 18321).toDate = ⟨2020, 2, 29⟩ := by decide +kernel
  have month := (calendar_exact.2.2.2 1 18321 (.fromEpochDay 18292)).1
  have year := (calendar_exact.2.2.2 1 18686 (.fromEpochDay 18321)).2
  rw [start, Gregorian.date_eq_civil] at month
  rw [next, Gregorian.date_eq_civil] at year
  exact ⟨month (by decide +kernel), year (by decide +kernel)⟩

/-- So many months that their count leaves the machine integers wrap to another year. -/
theorem plusMonths_wraps :
    (LocalDate.plusMonths 9223372036854775807 (.fromEpochDay 0)).toDate.year ≠
      ((LocalDate.fromEpochDay 0).toDate.plusMonths 9223372036854775807).year := by
  decide +kernel

end Fai.Datetime
