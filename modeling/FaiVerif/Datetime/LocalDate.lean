import FaiVerif.Primitives.Integers
import FaiVerif.Primitives.Text

/-!
# Dates

A date is the number of its day since 1970-01-01 (`std/datetime/LocalDate.fai`), of which the
year, the month and the day of the month are computed when they are asked for.
-/

namespace Fai.Datetime

open Machine64 Integers

/-- The months of the year. -/
inductive Month where
  | january
  | february
  | march
  | april
  | may
  | june
  | july
  | august
  | september
  | october
  | november
  | december
  deriving DecidableEq

/-- The month of a number from 1 to 12. -/
def Month.fromInt (n : Int64) : Option Month :=
  match n.toInt with
  | 1 => some january
  | 2 => some february
  | 3 => some march
  | 4 => some april
  | 5 => some may
  | 6 => some june
  | 7 => some july
  | 8 => some august
  | 9 => some september
  | 10 => some october
  | 11 => some november
  | 12 => some december
  | _ => none

/-- The days of a month. -/
def Month.length (leap : Bool) : Month → Int64
  | january => 31
  | february => if leap then 29 else 28
  | march => 31
  | april => 30
  | may => 31
  | june => 30
  | july => 31
  | august => 31
  | september => 30
  | october => 31
  | november => 30
  | december => 31

section Conversion

variable {α : Type} [Arithmetic α]

/-- The number of the day of a year, a month and a day of the month. -/
def epochDayOf (year month day : α) : α :=
  let yearInEra := floorMod year 400 - if atMost month 2 then 1 else 0
  let era := floorDiv year 400 - if below yearInEra 0 then 1 else 0
  let yoe := if below yearInEra 0 then yearInEra + 400 else yearInEra
  let mp := if below 2 month then month - 3 else month + 9
  let doy := (153 * mp + 2) / 5 + day - 1
  let doe := yoe * 365 + yoe / 4 - yoe / 100 + doy
  era * 146097 + doe - 719468

/-- The year, the month and the day of the month of the number of a day. -/
def civilOf (epochDay : α) : α × α × α :=
  let shiftedRemainder := floorMod epochDay 146097 + 719468
  let era := floorDiv epochDay 146097 + shiftedRemainder / 146097
  let doe := shiftedRemainder % 146097
  let yoe := (doe - doe / 1460 + doe / 36524 - doe / 146096) / 365
  let y := yoe + era * 400
  let doy := doe - (365 * yoe + yoe / 4 - yoe / 100)
  let mp := (5 * doy + 2) / 153
  let d := doy - (153 * mp + 2) / 5 + 1
  let m := if below mp 10 then mp + 3 else mp - 9
  (if atMost m 2 then y + 1 else y, m, d)

end Conversion

/-- Whether a year is a leap year. -/
def isLeapYear (year : Int64) : Bool :=
  floorMod year 4 == 0 && (floorMod year 100 != 0 || floorMod year 400 == 0)

/-- The days of a month of a year. -/
def daysInMonth (year month : Int64) : Int64 :=
  ((Month.fromInt month).map (Month.length (isLeapYear year))).getD 30

/-- A date, as the number of its day. -/
structure LocalDate where
  epochDay : Int64
  deriving DecidableEq

namespace LocalDate

/-- The date of a year, a month and a day of the month, if there is one. -/
def of (year month day : Int64) : Option LocalDate :=
  if month < 1 ∨ month > 12 then none
  else if day < 1 ∨ day > daysInMonth year month then none
  else some ⟨epochDayOf year month day⟩

/-- The date of a year, a month and a day, the last of the month for a day beyond. -/
def clamped (year month day : Int64) : LocalDate :=
  let maxDay := daysInMonth year month
  ⟨epochDayOf year month (if day > maxDay then maxDay else day)⟩

/-- The date of a day. -/
def fromEpochDay (n : Int64) : LocalDate := ⟨n⟩

/-- The day of a date. -/
def toEpochDay (d : LocalDate) : Int64 := d.epochDay

/-- The year. -/
def year (d : LocalDate) : Int64 := (civilOf d.toEpochDay).1

/-- The month. -/
def month (d : LocalDate) : Int64 := (civilOf d.toEpochDay).2.1

/-- The day of the month. -/
def day (d : LocalDate) : Int64 := (civilOf d.toEpochDay).2.2

/-- The date so many days later. -/
def plusDays (n : Int64) (d : LocalDate) : LocalDate := fromEpochDay (d.toEpochDay + n)

/-- The date so many months later, on the last day of the month for a day beyond. -/
def plusMonths (n : Int64) (d : LocalDate) : LocalDate :=
  let totalMonths := d.year * 12 + (d.month - 1) + n
  clamped (floorDiv totalMonths 12) (floorMod totalMonths 12 + 1) d.day

/-- The date so many years later, on the last day of the month for a day beyond. -/
def plusYears (n : Int64) (d : LocalDate) : LocalDate := clamped (d.year + n) d.month d.day

/-- The days from a date to another. -/
def daysUntil (start finish : LocalDate) : Int64 := finish.toEpochDay - start.toEpochDay

/-- The order of two dates: minus one, zero or one. -/
def compare (a b : LocalDate) : Int64 :=
  if a.epochDay < b.epochDay then -1 else if a.epochDay = b.epochDay then 0 else 1

/-- The text of a date. -/
def toString (d : LocalDate) : List Char :=
  let y := d.year
  let yearStr :=
    if y < 0 then '-' :: Text.padStart 4 '0' (Integers.toString (0 - y))
    else Text.padStart 4 '0' (Integers.toString y)
  yearStr ++ ['-'] ++ Text.padStart 2 '0' (Integers.toString d.month) ++ ['-'] ++
    Text.padStart 2 '0' (Integers.toString d.day)

/-- Reads the text of a date. -/
def parse (s : List Char) : Option LocalDate :=
  let n := Text.length s
  if n < 8 then none
  else if Text.substring (n - 3) 1 s ≠ ['-'] ∨ Text.substring (n - 6) 1 s ≠ ['-'] then none
  else
    let yOpt := fromString (Text.substring 0 (n - 6) s)
    let mOpt := fromString (Text.substring (n - 5) 2 s)
    let dOpt := fromString (Text.substring (n - 2) 2 s)
    match yOpt, mOpt, dOpt with
    | some y, some m, some dd => of y m dd
    | _, _, _ => none

end LocalDate

end Fai.Datetime
