import FaiVerif.Datetime.LocalDateExact
import FaiVerif.Datetime.LocalTimeText
import FaiVerif.Datetime.Offset

/-!
# Dates with times

A date-time is a day and a nanosecond of the day (`std/datetime/LocalDateTime.fai`), to which an
offset pins an instant (`std/datetime/OffsetDateTime.fai`). Both are read again from their texts.
-/

namespace Fai.Datetime

open Machine64 Integers

/-- A date and a time of day. -/
structure LocalDateTime where
  epochDay : Int64
  nanoOfDay : Int64
  inDay : 0 ≤ nanoOfDay.toInt ∧ nanoOfDay.toInt < 86400000000000

namespace LocalDateTime

/-- A date and a time of day together. -/
def of (d : LocalDate) (t : LocalTime) : LocalDateTime := ⟨d.toEpochDay, t.nanoOfDay, t.inDay⟩

/-- A day and a nanosecond, of which whole days carry over. -/
def fromEpochDayAndNanoOfDay (ed nod : Int64) : LocalDateTime :=
  ⟨ed + floorDiv nod nanosPerDay, floorMod nod nanosPerDay, LocalTime.inDay_floorMod nod⟩

/-- The date. -/
def date (dt : LocalDateTime) : LocalDate := .fromEpochDay dt.epochDay

/-- The time of day. -/
def time (dt : LocalDateTime) : LocalTime := .fromNanoOfDay dt.nanoOfDay

/-- The text of a date and a time. -/
def toString (dt : LocalDateTime) : List Char := dt.date.toString ++ ['T'] ++ dt.time.toString

/-- Reads the text of a date and a time. -/
def parse (s : List Char) : Option LocalDateTime :=
  match Text.split 'T' s with
  | [datePart, timePart] =>
    match LocalDate.parse datePart, LocalTime.parse timePart with
    | some d, some t => some (of d t)
    | _, _ => none
  | _ => none

end LocalDateTime

/-- A date and a time of day at an offset from UTC. -/
structure OffsetDateTime where
  epochDay : Int64
  nanoOfDay : Int64
  inDay : 0 ≤ nanoOfDay.toInt ∧ nanoOfDay.toInt < 86400000000000
  offset : Offset

namespace OffsetDateTime

/-- Whether a string is a sign. -/
def isSign (s : List Char) : Bool := s == ['+'] || s == ['-']

/-- A date-time at an offset. -/
def of (ldt : LocalDateTime) (off : Offset) : OffsetDateTime :=
  ⟨ldt.epochDay, ldt.nanoOfDay, ldt.inDay, off⟩

/-- The date-time without its offset. -/
def localDateTime (odt : OffsetDateTime) : LocalDateTime :=
  .fromEpochDayAndNanoOfDay odt.epochDay odt.nanoOfDay

/-- The text of a date-time at an offset. -/
def toString (odt : OffsetDateTime) : List Char :=
  odt.localDateTime.toString ++ odt.offset.toString

/-- Where the offset at the end of a text begins. -/
def offsetStart (s : List Char) : Option Int :=
  let n := Text.length s
  if n ≥ 1 ∧ Text.substring (n - 1) 1 s = ['Z'] then some (n - 1)
  else if n ≥ 6 ∧ isSign (Text.substring (n - 6) 1 s) then some (n - 6)
  else if n ≥ 9 ∧ isSign (Text.substring (n - 9) 1 s) then some (n - 9)
  else none

/-- Reads the text of a date-time at an offset. -/
def parse (s : List Char) : Option OffsetDateTime :=
  match offsetStart s with
  | none => none
  | some i =>
    let localStr := Text.substring 0 i s
    let offStr := Text.drop i s
    match LocalDateTime.parse localStr, Offset.parse offStr with
    | some ldt, some off => some (of ldt off)
    | _, _ => none

end OffsetDateTime

/-- A nanosecond of the day is its own remainder of the day. -/
theorem floorMod_of_inDay {n : Int64} (inDay : 0 ≤ n.toInt ∧ n.toInt < 86400000000000) :
    floorMod n nanosPerDay = n ∧ floorDiv n nanosPerDay = 0 := by
  have rest : (floorMod n nanosPerDay).toInt = n.toInt % 86400000000000 :=
    (computes_floorMod (.start n) (.literal 86400000000000 (by decide)) (by decide)).machine
  have days : (floorDiv n nanosPerDay).toInt = n.toInt / 86400000000000 :=
    (computes_floorDiv (.start n) (.literal 86400000000000 (by decide)) (by decide)).machine
  have zero : (0 : Int64).toInt = 0 := rfl
  exact ⟨Int64.toInt_inj.mp (by rw [rest]; omega), Int64.toInt_inj.mp (by rw [days, zero]; omega)⟩

/-- Digits are not letters. -/
theorem not_mem_of_digits {cs : List Char} {c : Char} (all : digits cs = true)
    (letter : c.isDigit = false) : c ∉ cs := by
  intro member
  rw [List.all_eq_true.mp all c member] at letter
  cases letter

/-- A field has no letter. -/
theorem letter_not_mem_field (width n : ℕ) : 'T' ∉ field width n :=
  not_mem_of_digits (digits_field width n) rfl

/-- The text of a year has no letter. -/
theorem letter_not_mem_yearText (year : ℤ) : 'T' ∉ yearText year := by
  unfold yearText
  split_ifs
  · simp [letter_not_mem_field]
  · exact letter_not_mem_field _ _

/-- The text of a date has no letter. -/
theorem letter_not_mem_date (d : LocalDate) : 'T' ∉ d.toString := by
  have dash : 'T' ∉ ['-'] := by decide
  rw [toString_eq]
  generalize d.toDate = date
  simp only [List.mem_append, letter_not_mem_yearText, letter_not_mem_field, dash, or_self,
    not_false_eq_true]

/-- The text of a time has no letter. -/
theorem letter_not_mem_time {s : List Char} {t : LocalTime} (denotes : LocalTime.Denotes s t) :
    'T' ∉ s := by
  have field {width : ℕ} {cs : List Char} (numeral : Numeral width cs) : 'T' ∉ cs :=
    not_mem_of_digits numeral.2 rfl
  cases denotes with
  | whole h m s t clock value =>
    simp [field clock.hours, field clock.minutes, field clock.seconds]
  | fraction h m s f t clock some_digit few all value =>
    simp [field clock.hours, field clock.minutes, field clock.seconds,
      not_mem_of_digits all (show 'T'.isDigit = false from rfl)]

/-- Reads a date and a time that are read. -/
theorem LocalDateTime.parse_pieces {s front back : List Char} {d : LocalDate} {t : LocalTime}
    (pieces : Text.split 'T' s = [front, back]) (date : LocalDate.parse front = some d)
    (time : LocalTime.parse back = some t) : parse s = some (of d t) := by
  unfold parse
  rw [pieces]
  simp only [date, time]

/-- Date-times of the same day and nanosecond are the same. -/
theorem LocalDateTime.eq_of_parts {dt other : LocalDateTime} (day : dt.epochDay = other.epochDay)
    (nano : dt.nanoOfDay = other.nanoOfDay) : dt = other := by
  obtain ⟨day, nano, inDay⟩ := dt
  obtain ⟨day', nano', inDay'⟩ := other
  cases day
  cases nano
  rfl

/-- A date-time is its date and its time together. -/
theorem LocalDateTime.of_date_time (dt : LocalDateTime) : of dt.date dt.time = dt := by
  refine eq_of_parts ?_ ?_
  · rw [of, date, LocalDate.fromEpochDay, LocalDate.toEpochDay]
  · rw [of, time, LocalTime.fromNanoOfDay]
    exact (floorMod_of_inDay dt.inDay).1

/-- The text of a date-time is read as the date-time. -/
theorem LocalDateTime.parse_toString (dt : LocalDateTime) : parse dt.toString = some dt := by
  have split : Text.split 'T' dt.toString = [dt.date.toString, dt.time.toString] := by
    have whole : dt.toString = dt.date.toString ++ 'T' :: dt.time.toString := by
      simp [LocalDateTime.toString]
    rw [Text.split, whole, List.splitOn_append_cons_self_of_not_mem (letter_not_mem_date _),
      List.splitOn_eq_singleton (letter_not_mem_time (LocalTime.denotes_toString _))]
  rw [parse_pieces split (Datetime.parse_toString _) (LocalTime.parse_toString _), of_date_time]

/-- The offset of a text begins where the date-time before it ends. -/
theorem offsetStart_append (front : List Char) {s : List Char} {o : Offset}
    (denotes : Offset.Denotes s o) :
    OffsetDateTime.offsetStart (front ++ s) = some (front.length : ℤ) := by
  have sign_iff (c : Char) : OffsetDateTime.isSign [c] = true ↔ c = '+' ∨ c = '-' := by
    simp [OffsetDateTime.isSign]
  have last {cs : List Char} {a b : Char} (numeral : Numeral 2 cs) (atDigits : cs = [a, b]) :
      b ≠ 'Z' := by
    rintro rfl
    exact not_mem_of_digits numeral.2 (show 'Z'.isDigit = false from rfl) (by simp [atDigits])
  have cut (tail : List Char) (k n : ℕ) (positive : k ≤ n) :
      Text.substring ((front.length : ℤ) + n - k) 1 (front ++ tail) = (tail.drop (n - k)).take 1 :=
    Text.substring_append front tail (n - k) 1 (by omega)
  have size (tail : List Char) : Text.length (front ++ tail) = front.length + tail.length := by
    simp [Text.length]
  cases denotes with
  | utc =>
    have final : Text.substring ((front.length : ℤ) + 1 - 1) 1 (front ++ ['Z']) = ['Z'] :=
      cut ['Z'] 1 1 (by decide)
    have long : (front.length : ℤ) + 1 ≥ 1 := by omega
    have count : Text.length (front ++ ['Z']) = front.length + 1 := size ['Z']
    unfold OffsetDateTime.offsetStart
    simp only [count]
    rw [if_pos ⟨long, final⟩, Int.add_sub_cancel]
  | minutes sign h m o isSign hours minutes minute_high value =>
    obtain ⟨b, c, rfl⟩ := List.length_eq_two.mp hours.1
    obtain ⟨e, f, rfl⟩ := List.length_eq_two.mp minutes.1
    have count : Text.length (front ++ [sign, b, c, ':', e, f]) = front.length + 6 := size _
    have final : Text.substring ((front.length : ℤ) + 6 - 1) 1
        (front ++ [sign, b, c, ':', e, f]) = [f] := cut _ 1 6 (by decide)
    have first : Text.substring ((front.length : ℤ) + 6 - 6) 1
        (front ++ [sign, b, c, ':', e, f]) = [sign] := cut _ 6 6 (by decide)
    have digit : [f] ≠ ['Z'] := by simpa using last minutes rfl
    have long : (front.length : ℤ) + 6 ≥ 6 := by omega
    show OffsetDateTime.offsetStart (front ++ [sign, b, c, ':', e, f]) = _
    unfold OffsetDateTime.offsetStart
    simp only [count, final, first, sign_iff]
    rw [if_neg (fun both => digit both.2), if_pos ⟨long, isSign⟩, Int.add_sub_cancel]
  | seconds sign h m s o isSign hours minutes seconds minute_high second_high value =>
    obtain ⟨b, c, rfl⟩ := List.length_eq_two.mp hours.1
    obtain ⟨e, f, rfl⟩ := List.length_eq_two.mp minutes.1
    obtain ⟨h, i, rfl⟩ := List.length_eq_two.mp seconds.1
    obtain ⟨tail, atTail⟩ : ∃ tail, tail = [sign, b, c, ':', e, f, ':', h, i] := ⟨_, rfl⟩
    have count : Text.length (front ++ tail) = front.length + 9 := by rw [size, atTail]; rfl
    have final : Text.substring ((front.length : ℤ) + 9 - 1) 1 (front ++ tail) = [i] :=
      (cut tail 1 9 (by decide)).trans (by rw [atTail]; rfl)
    have middle : Text.substring ((front.length : ℤ) + 9 - 6) 1 (front ++ tail) = [':'] :=
      (cut tail 6 9 (by decide)).trans (by rw [atTail]; rfl)
    have first : Text.substring ((front.length : ℤ) + 9 - 9) 1 (front ++ tail) = [sign] :=
      (cut tail 9 9 (by decide)).trans (by rw [atTail]; rfl)
    have digit : [i] ≠ ['Z'] := by simpa using last seconds rfl
    have colon : ¬ (':' = '+' ∨ ':' = '-') := by decide
    have long : (front.length : ℤ) + 9 ≥ 9 := by omega
    show OffsetDateTime.offsetStart (front ++ [sign, b, c, ':', e, f, ':', h, i]) = _
    rw [← atTail]
    unfold OffsetDateTime.offsetStart
    simp only [count, final, middle, first, sign_iff]
    rw [if_neg (fun both => digit both.2), if_neg (fun both => colon both.2),
      if_pos ⟨long, isSign⟩, Int.add_sub_cancel]

/-- Reads a date-time and an offset that are read. -/
theorem OffsetDateTime.parse_pieces {front back : List Char} {ldt : LocalDateTime} {off : Offset}
    (start : offsetStart (front ++ back) = some (front.length : ℤ))
    (date : LocalDateTime.parse front = some ldt) (offset : Offset.parse back = some off) :
    parse (front ++ back) = some (of ldt off) := by
  have localStr : Text.substring 0 front.length (front ++ back) = front :=
    Text.substring_append [] (front ++ back) 0 front.length (by simp) |>.trans (by simp)
  have offStr : Text.drop front.length (front ++ back) = back := by
    rw [Text.drop, Int.toNat_natCast, List.drop_left]
  unfold parse
  rw [start]
  simp only [localStr, offStr, date, offset]

/-- A date-time at an offset is its date-time and its offset together. -/
theorem OffsetDateTime.of_localDateTime (odt : OffsetDateTime) :
    of odt.localDateTime odt.offset = odt := by
  obtain ⟨rest, days⟩ := floorMod_of_inDay odt.inDay
  obtain ⟨day, nano, inDay, offset⟩ := odt
  simp only at rest days
  simp only [of, localDateTime, LocalDateTime.fromEpochDayAndNanoOfDay, rest, days, Int64.add_zero]

/-- The text of a date-time at an offset is read as it. -/
theorem OffsetDateTime.parse_toString (odt : OffsetDateTime) :
    parse odt.toString = some odt := by
  have denotes := Offset.denotes_toString odt.offset
  rw [OffsetDateTime.toString, parse_pieces (offsetStart_append _ denotes)
    (LocalDateTime.parse_toString _) (Offset.parse_eq_some_iff.mpr denotes), of_localDateTime]

end Fai.Datetime
