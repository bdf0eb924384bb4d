import FaiVerif.Datetime.DateTimes

/-!
# The texts of dates and times

The texts that the parsers read are those of a grammar. A date is a year, which wraps to the
machine integers, and two digits of a month and of a day of it.
-/

namespace Fai.Datetime

open Machine64 Integers

/-- The texts of a year: digits, or a minus sign and digits. -/
inductive YearDenotes : List Char → ℤ → Prop where
  | positive (ds : List Char) (present : ds ≠ []) (all : digits ds = true) :
      YearDenotes ds (number ds)
  | negative (ds : List Char) (present : ds ≠ []) (all : digits ds = true) :
      YearDenotes ('-' :: ds) (-number ds)

/-- The texts of a date. A year is two characters or more. -/
inductive LocalDate.Denotes : List Char → LocalDate → Prop where
  | date (y m d : List Char) (year : ℤ) (years : YearDenotes y year) (long : 2 ≤ y.length)
      (months : Numeral 2 m) (days : Numeral 2 d)
      (valid : Gregorian.Date.Valid ⟨(Int64.ofInt year).toInt, number m, number d⟩) :
      Denotes (y ++ ['-'] ++ m ++ ['-'] ++ d) (.fromEpochDay (Int64.ofInt
        (Gregorian.dayNumber ⟨(Int64.ofInt year).toInt, number m, number d⟩)))

/-- What is read as a year is a text of it. -/
theorem yearDenotes_of_read {y : List Char} {v : Int64} (read : fromString y = some v) :
    ∃ year, YearDenotes y year ∧ v = Int64.ofInt year := by
  rcases fromString_cases read with ⟨present, all, value⟩ | ⟨ds, rfl, present, all, value⟩
  · exact ⟨_, .positive y present all, value⟩
  · exact ⟨_, .negative ds present all, value⟩

/-- A text of a year is read as it. -/
theorem YearDenotes.read {y : List Char} {year : ℤ} (denotes : YearDenotes y year) :
    fromString y = some (Int64.ofInt year) := by
  cases denotes with
  | positive ds present all =>
    exact fromString_numeral ⟨rfl, all⟩ (List.length_pos_of_ne_nil present)
  | negative ds present all => rw [fromString_signed, if_pos ⟨present, all⟩, number]

/-- What is read as a positive number in two characters is two digits. -/
theorem numeral_of_read {a b : Char} {v : Int64} (read : fromString [a, b] = some v)
    (positive : 1 ≤ v.toInt) : Numeral 2 [a, b] ∧ v.toInt = number [a, b] := by
  have few : 2 ≤ 18 := by decide
  have unsigned : ¬ SignedZero [a, b] := by
    rintro ⟨ds, same, -, all, zero⟩
    have size := congrArg List.length same
    rw [same, fromString_signed] at read
    split_ifs at read
    rw [← Option.some.inj read, ← number, zero] at positive
    exact absurd positive (by decide)
  obtain ⟨-, all, value⟩ := fromString_nonneg read few (by omega) unsigned
  exact ⟨⟨rfl, all⟩, value⟩

/-- The number of two digits, as a machine integer. -/
theorem toInt_number {cs : List Char} (numeral : Numeral 2 cs) :
    (Int64.ofInt (number cs)).toInt = number cs ∧ number cs < 100 := by
  have below := number_lt numeral.2
  rw [numeral.1] at below
  exact ⟨toInt_ofInt ⟨by omega, by omega⟩, below⟩

/-- The date of parts that are one of the calendar. -/
theorem of_valid {year : Int64} {m d : List Char} (months : Numeral 2 m) (days : Numeral 2 d) :
    LocalDate.of year (Int64.ofInt (number m)) (Int64.ofInt (number d)) =
      if Gregorian.Date.Valid ⟨year.toInt, number m, number d⟩ then
        some (.fromEpochDay (Int64.ofInt
          (Gregorian.dayNumber ⟨year.toInt, number m, number d⟩)))
      else none := by
  obtain ⟨month, -⟩ := toInt_number months
  obtain ⟨day, -⟩ := toInt_number days
  split_ifs with valid
  · have length := Gregorian.monthLength_range year.toInt (number m)
    have dayHigh := valid.day_high
    simp only at dayHigh
    refine of_eq_some_iff.mpr ⟨by rw [month, day]; exact valid, ?_⟩
    rw [epochDayOf_eq (by rw [month]; exact valid.month_low) (by rw [month]; exact valid.month_high)
      (by rw [day]; exact valid.day_low) (by rw [day]; omega), month, day, LocalDate.fromEpochDay]
  · rw [← Option.not_isSome_iff_eq_none, of_isSome, month, day]
    exact valid

/-- The parser reads the texts of dates, and nothing else. -/
theorem LocalDate.parse_eq_some_iff {s : List Char} {date : LocalDate} :
    parse s = some date ↔ Denotes s date := by
  constructor
  · intro read
    by_cases short : (s.length : ℤ) < 8
    · have few : Text.length s < 8 := short
      rw [LocalDate.parse, if_pos few] at read
      cases read
    obtain ⟨y, tail, rfl, size⟩ : ∃ y tail, s = y ++ tail ∧ tail.length = 6 :=
      ⟨s.take (s.length - 6), s.drop (s.length - 6), (List.take_append_drop _ _).symm, by
        rw [List.length_drop]; omega⟩
    match tail, size with
    | [a, b, c, e, f, g], _ =>
      rw [List.length_append] at short
      simp only [List.length_cons, List.length_nil] at short
      have count : Text.length (y ++ [a, b, c, e, f, g]) = y.length + 6 := by simp [Text.length]
      have first : Text.substring (y.length + 6 - 6) 1 (y ++ [a, b, c, e, f, g]) = [a] :=
        Text.substring_append y _ 0 1 (by omega)
      have second : Text.substring (y.length + 6 - 3) 1 (y ++ [a, b, c, e, f, g]) = [e] :=
        Text.substring_append y _ 3 1 (by omega)
      have dashes : a = '-' ∧ e = '-' := by
        by_contra other
        have wrong : [e] ≠ ['-'] ∨ [a] ≠ ['-'] := by
          simp only [ne_eq, List.cons.injEq, and_true]
          tauto
        have enough : ¬ ((y.length : ℤ) + 6 < 8) := by omega
        unfold LocalDate.parse at read
        simp only [count, first, second, if_neg enough, if_pos wrong] at read
        cases read
      obtain ⟨rfl, rfl⟩ := dashes
      have parts : y ++ ['-', b, c, '-', f, g] = y ++ ['-'] ++ [b, c] ++ ['-'] ++ [f, g] := by simp
      have long : 2 ≤ y.length := by omega
      rw [parts] at read ⊢
      rw [parse_fields long rfl rfl] at read
      obtain ⟨v, yearRead, read⟩ := Option.bind_eq_some_iff.mp read
      obtain ⟨m, monthRead, read⟩ := Option.bind_eq_some_iff.mp read
      obtain ⟨d, dayRead, read⟩ := Option.bind_eq_some_iff.mp read
      obtain ⟨valid, -⟩ := of_eq_some_iff.mp read
      obtain ⟨year, years, rfl⟩ := yearDenotes_of_read yearRead
      obtain ⟨months, month⟩ := numeral_of_read monthRead valid.month_low
      obtain ⟨days, day⟩ := numeral_of_read dayRead valid.day_low
      rw [month, day] at valid
      rw [← Int64.ofInt_toInt m, ← Int64.ofInt_toInt d, month, day, of_valid months days,
        if_pos valid] at read
      rw [← Option.some.inj read]
      exact .date y [b, c] [f, g] year years long months days valid
  · rintro ⟨y, m, d, year, years, long, months, days, valid⟩
    rw [parse_fields long months.1 days.1, years.read, fromString_numeral months (by decide),
      fromString_numeral days (by decide), Option.bind_some, Option.bind_some, Option.bind_some,
      of_valid months days, if_pos valid]

/-- The parser of times reads exactly the texts of times, whatever it reads of a text with a zero
with a sign; those of dates and of offsets read exactly their texts; and the texts of date-times,
with and without an offset, are read as them. -/
theorem time_parsers_exact :
    (∀ (s : List Char) (t : LocalTime), (∀ field ∈ LocalTime.fields s, ¬ SignedZero field) →
      (LocalTime.parse s = some t ↔ LocalTime.Denotes s t)) ∧
    (∀ (s : List Char) (d : LocalDate), LocalDate.parse s = some d ↔ LocalDate.Denotes s d) ∧
    (∀ (s : List Char) (o : Offset), Offset.parse s = some o ↔ Offset.Denotes s o) ∧
    (∀ dt : LocalDateTime, LocalDateTime.parse dt.toString = some dt) ∧
    ∀ odt : OffsetDateTime, OffsetDateTime.parse odt.toString = some odt :=
  ⟨fun _ _ unsigned => ⟨fun read => LocalTime.denotes_of_parse read unsigned, fun d => d.parse⟩,
    fun _ _ => LocalDate.parse_eq_some_iff, fun _ _ => Offset.parse_eq_some_iff,
    LocalDateTime.parse_toString, OffsetDateTime.parse_toString⟩

/-- Half past two in the afternoon is read as it is written. -/
theorem time_parsers_exact_afternoon :
    LocalTime.Denotes ['1', '4', ':', '3', '0', ':', '0', '0', '.', '5']
      (.fromNanoOfDay 52200500000000) := by
  have unsigned : ∀ field ∈ LocalTime.fields ['1', '4', ':', '3', '0', ':', '0', '0', '.', '5'],
      field.head? ≠ some '-' := by
    decide
  refine (time_parsers_exact.1 _ _ ?_).mp (by decide +kernel)
  rintro field member ⟨ds, rfl, -⟩
  exact unsigned _ member rfl

/-- A year of one digit is not read. -/
theorem short_year_not_read : ∃ (y m d : List Char) (date : LocalDate), YearDenotes y (number y) ∧
    Numeral 2 m ∧ Numeral 2 d ∧
      LocalDate.of (Int64.ofInt (number y)) (Int64.ofInt (number m)) (Int64.ofInt (number d)) =
        some date ∧ LocalDate.parse (y ++ ['-'] ++ m ++ ['-'] ++ d) = none :=
  ⟨['1'], ['0', '1'], ['0', '1'], .fromEpochDay (-719162), .positive _ (by decide) rfl,
    ⟨rfl, rfl⟩, ⟨rfl, rfl⟩, by decide +kernel, by decide +kernel⟩

end Fai.Datetime
