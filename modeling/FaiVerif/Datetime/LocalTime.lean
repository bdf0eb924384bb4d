import FaiVerif.Datetime.Fields

/-!
# Times of day

A time of day is its nanosecond of the day (`std/datetime/LocalTime.fai`). Every time is built
inside a day.
-/

namespace Fai.Datetime

open Machine64 Integers

/-- The nanoseconds of a second. -/
def nanosPerSecond : Int64 := 1000000000

/-- The nanoseconds of a minute. -/
def nanosPerMinute : Int64 := 60000000000

/-- The nanoseconds of an hour. -/
def nanosPerHour : Int64 := 3600000000000

/-- The nanoseconds of a day. -/
def nanosPerDay : Int64 := 86400000000000

/-- A time of day, as its nanosecond of the day. -/
structure LocalTime where
  nanoOfDay : Int64
  inDay : 0 ≤ nanoOfDay.toInt ∧ nanoOfDay.toInt < 86400000000000
  deriving DecidableEq

namespace LocalTime

/-- The nanosecond of the day of four parts inside their ranges. -/
theorem computes_nano {h m s nano : Int64} (hour : 0 ≤ h.toInt ∧ h.toInt ≤ 23)
    (minute : 0 ≤ m.toInt ∧ m.toInt ≤ 59) (second : 0 ≤ s.toInt ∧ s.toInt ≤ 59)
    (nanos : 0 ≤ nano.toInt ∧ nano.toInt ≤ 999999999) :
    (h * nanosPerHour + m * nanosPerMinute + s * nanosPerSecond + nano).toInt =
      h.toInt * 3600000000000 + m.toInt * 60000000000 + s.toInt * 1000000000 + nano.toInt := by
  have hours := (Computes.start h).mul (.literal 3600000000000 (by decide)) ⟨by omega, by omega⟩
  have minutes := (Computes.start m).mul (.literal 60000000000 (by decide)) ⟨by omega, by omega⟩
  have seconds := (Computes.start s).mul (.literal 1000000000 (by decide)) ⟨by omega, by omega⟩
  exact (((hours.add minutes ⟨by omega, by omega⟩).add seconds ⟨by omega, by omega⟩).add
    (.start nano) ⟨by omega, by omega⟩).machine

/-- Whether one of the parts of a time is outside its range. -/
def Outside (h m s nano : Int64) : Prop :=
  h < 0 ∨ h > 23 ∨ m < 0 ∨ m > 59 ∨ s < 0 ∨ s > 59 ∨ nano < 0 ∨ nano > 999999999

instance (h m s nano : Int64) : Decidable (Outside h m s nano) :=
  inferInstanceAs (Decidable (_ ∨ _))

/-- Parts that are not outside their ranges are inside. -/
theorem not_outside {h m s nano : Int64} : ¬ Outside h m s nano ↔
    (0 ≤ h.toInt ∧ h.toInt ≤ 23) ∧ (0 ≤ m.toInt ∧ m.toInt ≤ 59) ∧
      (0 ≤ s.toInt ∧ s.toInt ≤ 59) ∧ 0 ≤ nano.toInt ∧ nano.toInt ≤ 999999999 := by
  have zero : (0 : Int64).toInt = 0 := rfl
  have hours : (23 : Int64).toInt = 23 := rfl
  have sixty : (59 : Int64).toInt = 59 := rfl
  have nanos : (999999999 : Int64).toInt = 999999999 := rfl
  simp only [Outside, gt_iff_lt, Int64.lt_iff_toInt_lt, zero, hours, sixty, nanos]
  omega

/-- A time of four parts inside their ranges is in the day. -/
theorem inDay_of_parts {h m s nano : Int64} (inside : ¬ Outside h m s nano) :
    0 ≤ (h * nanosPerHour + m * nanosPerMinute + s * nanosPerSecond + nano).toInt ∧
      (h * nanosPerHour + m * nanosPerMinute + s * nanosPerSecond + nano).toInt <
        86400000000000 := by
  obtain ⟨hour, minute, second, nanos⟩ := not_outside.mp inside
  rw [computes_nano hour minute second nanos]
  omega

/-- The time of an hour, a minute, a second and a nanosecond, if there is one. -/
def ofNano (h m s nano : Int64) : Option LocalTime :=
  if inside : Outside h m s nano then none
  else some ⟨h * nanosPerHour + m * nanosPerMinute + s * nanosPerSecond + nano,
    inDay_of_parts inside⟩

/-- A remainder of the day is in the day. -/
theorem inDay_floorMod (n : Int64) :
    0 ≤ (floorMod n nanosPerDay).toInt ∧ (floorMod n nanosPerDay).toInt < 86400000000000 := by
  have rest := computes_floorMod (.start n) (.literal 86400000000000 (by decide)) (by decide)
  have value : (floorMod n nanosPerDay).toInt = n.toInt % 86400000000000 := rest.machine
  rw [value]
  omega

/-- The time of a nanosecond, within a day. -/
def fromNanoOfDay (n : Int64) : LocalTime := ⟨floorMod n nanosPerDay, inDay_floorMod n⟩

/-- The hour. -/
def hour (t : LocalTime) : Int64 := floorDiv t.nanoOfDay nanosPerHour

/-- The minute of the hour. -/
def minute (t : LocalTime) : Int64 := floorMod (floorDiv t.nanoOfDay nanosPerMinute) 60

/-- The second of the minute. -/
def second (t : LocalTime) : Int64 := floorMod (floorDiv t.nanoOfDay nanosPerSecond) 60

/-- The nanosecond of the second. -/
def nanoOfSecond (t : LocalTime) : Int64 := floorMod t.nanoOfDay nanosPerSecond

/-- Ten to a power. -/
def pow10 : Nat → Int64
  | 0 => 1
  | k + 1 => 10 * pow10 k

/-- The text of a time. -/
def toString (t : LocalTime) : List Char :=
  let base :=
    Text.padStart 2 '0' (Integers.toString t.hour) ++ [':'] ++
      Text.padStart 2 '0' (Integers.toString t.minute) ++ [':'] ++
      Text.padStart 2 '0' (Integers.toString t.second)
  if t.nanoOfSecond = 0 then base
  else base ++ ['.'] ++ Text.padStart 9 '0' (Integers.toString t.nanoOfSecond)

/-- Reads the text of a time. -/
def parse (s : List Char) : Option LocalTime :=
  let n := Text.length s
  if n < 8 ∨ Text.substring 2 1 s ≠ [':'] ∨ Text.substring 5 1 s ≠ [':'] then none
  else
    let hOpt := fromString (Text.substring 0 2 s)
    let mOpt := fromString (Text.substring 3 2 s)
    let secOpt := fromString (Text.substring 6 2 s)
    match hOpt, mOpt, secOpt with
    | some h, some m, some sec =>
      if n = 8 then ofNano h m sec 0
      else if Text.substring 8 1 s = ['.'] then
        let frac := Text.drop 9 s
        let fracLen := Text.length frac
        if fracLen < 1 ∨ fracLen > 9 then none
        else
          match fromString frac with
          | some f => ofNano h m sec (f * pow10 (9 - fracLen).toNat)
          | none => none
      else none
    | _, _, _ => none

end LocalTime

end Fai.Datetime
