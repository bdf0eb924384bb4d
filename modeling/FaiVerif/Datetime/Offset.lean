import FaiVerif.Datetime.Fields

/-!
# Offsets from UTC

An offset is a number of seconds within eighteen hours of UTC (`std/datetime/Offset.fai`). Its texts
are `Z`, or a sign and two digits of hours, of minutes and perhaps of seconds between colons, and
the parser reads exactly these.
-/

namespace Fai.Datetime

open Machine64 Integers

/-- An offset, in seconds east of UTC. -/
structure Offset where
  seconds : Int64
  inRange : -64800 ≤ seconds.toInt ∧ seconds.toInt ≤ 64800
  deriving DecidableEq

namespace Offset

/-- The most seconds of an offset. -/
def maxSeconds : Int64 := 64800

/-- Whether a string is a sign. -/
def isSign (s : List Char) : Bool := s == ['+'] || s == ['-']

/-- No offset. -/
def zero : Offset := ⟨0, by decide⟩

/-- Seconds that are not too many are in range. -/
theorem inRange_of_not {s : Int64} (inside : ¬ (s < 0 - maxSeconds ∨ s > maxSeconds)) :
    -64800 ≤ s.toInt ∧ s.toInt ≤ 64800 := by
  have low : (0 - maxSeconds).toInt = -64800 := rfl
  have high : maxSeconds.toInt = 64800 := rfl
  rw [gt_iff_lt, Int64.lt_iff_toInt_lt, Int64.lt_iff_toInt_lt, low, high] at inside
  omega

/-- The offset of so many seconds, if they are not too many. -/
def ofSeconds (s : Int64) : Option Offset :=
  if inside : s < 0 - maxSeconds ∨ s > maxSeconds then none else some ⟨s, inRange_of_not inside⟩

/-- The text of an offset. -/
def toString (o : Offset) : List Char :=
  let s := o.seconds
  if s = 0 then ['Z']
  else
    let sign := if s < 0 then ['-'] else ['+']
    let mag := Integers.abs s
    let base := sign ++ Text.padStart 2 '0' (Integers.toString (mag / 3600)) ++ [':'] ++
      Text.padStart 2 '0' (Integers.toString (mag % 3600 / 60))
    if mag % 60 = 0 then base
    else base ++ [':'] ++ Text.padStart 2 '0' (Integers.toString (mag % 60))

/-- Reads two digits of ASCII. -/
def twoDigits (text : List Char) : Option Int64 :=
  match Utf8.encode text with
  | [first, second] =>
    let first := Int64.ofNat first.toNat
    let second := Int64.ofNat second.toNat
    if first < 48 ∨ first > 57 ∨ second < 48 ∨ second > 57 then none
    else some ((first - 48) * 10 + second - 48)
  | _ => none

/-- Reads the text of an offset. -/
def parse (s : List Char) : Option Offset :=
  let n := Text.length s
  if s = ['Z'] then some zero
  else if (n ≠ 6 ∧ n ≠ 9) ∨ ¬ isSign (Text.substring 0 1 s) then none
  else if Text.substring 3 1 s ≠ [':'] ∨ (n = 9 ∧ Text.substring 6 1 s ≠ [':']) then none
  else
    let sign : Int64 := if Text.substring 0 1 s = ['-'] then 0 - 1 else 1
    let hOpt := twoDigits (Text.substring 1 2 s)
    let mOpt := twoDigits (Text.substring 4 2 s)
    let secOpt := if n = 6 then some 0 else twoDigits (Text.substring 7 2 s)
    match hOpt, mOpt, secOpt with
    | some h, some m, some sec =>
      if h > 18 ∨ m > 59 ∨ sec > 59 then none
      else ofSeconds (sign * (h * 3600 + m * 60 + sec))
    | _, _, _ => none

/-- The number of a sign and a size. -/
def signed (sign : Char) (size : ℕ) : ℤ := if sign = '-' then -size else size

/-- The texts of an offset. -/
inductive Denotes : List Char → Offset → Prop where
  | utc : Denotes ['Z'] zero
  | minutes (sign : Char) (h m : List Char) (o : Offset) (isSign : sign = '+' ∨ sign = '-')
      (hours : Numeral 2 h) (minutes : Numeral 2 m) (minute_high : number m ≤ 59)
      (value : o.seconds.toInt = signed sign (number h * 3600 + number m * 60)) :
      Denotes ([sign] ++ h ++ [':'] ++ m) o
  | seconds (sign : Char) (h m s : List Char) (o : Offset) (isSign : sign = '+' ∨ sign = '-')
      (hours : Numeral 2 h) (minutes : Numeral 2 m) (seconds : Numeral 2 s)
      (minute_high : number m ≤ 59) (second_high : number s ≤ 59)
      (value : o.seconds.toInt =
        signed sign (number h * 3600 + number m * 60 + number s)) :
      Denotes ([sign] ++ h ++ [':'] ++ m ++ [':'] ++ s) o

instance (width : Nat) (cs : List Char) : Decidable (Numeral width cs) :=
  inferInstanceAs (Decidable (_ ∧ _))

/-- The first byte of a digit is its code, and the only one. -/
theorem encode_digit {c : Char} (digit : c.isDigit = true) :
    String.utf8EncodeChar c = [UInt8.ofNat c.toNat] := by
  have codes := (isDigit_iff c).mp digit
  exact Utf8.utf8EncodeChar_ascii (by omega)

/-- Two digits are read as their number, and nothing else is read. -/
theorem twoDigits_eq (a b : Char) : twoDigits [a, b] =
    if Numeral 2 [a, b] then some (Int64.ofInt (number [a, b])) else none := by
  have encoded : Utf8.encode [a, b] = String.utf8EncodeChar a ++ String.utf8EncodeChar b := by
    rw [Utf8.encode_cons, Utf8.encode_cons, Utf8.encode_nil, List.append_nil]
  obtain ⟨x, xs, atX, codeX⟩ := first_byte a
  obtain ⟨y, ys, atY, codeY⟩ := first_byte b
  have smallX := x.toNat_lt
  have smallY := y.toNat_lt
  have numberX : (Int64.ofNat x.toNat).toInt = x.toNat := Int64.toInt_ofNat_of_lt (by omega)
  have numberY : (Int64.ofNat y.toNat).toInt = y.toNat := Int64.toInt_ofNat_of_lt (by omega)
  have zero : (48 : Int64).toInt = 48 := rfl
  have nine : (57 : Int64).toInt = 57 := rfl
  have numeral : Numeral 2 [a, b] ↔ a.isDigit = true ∧ b.isDigit = true := by
    simp [Numeral, digits]
  split_ifs with both
  · rw [numeral] at both
    have codeA := (isDigit_iff a).mp both.1
    have codeB := (isDigit_iff b).mp both.2
    rw [encode_digit both.1] at atX encoded
    rw [encode_digit both.2] at atY encoded
    obtain ⟨rfl, rfl⟩ := List.cons.inj atX
    obtain ⟨rfl, rfl⟩ := List.cons.inj atY
    unfold twoDigits
    rw [encoded, List.singleton_append]
    have inside : ¬ (Int64.ofNat (UInt8.ofNat a.toNat).toNat < 48 ∨
        Int64.ofNat (UInt8.ofNat a.toNat).toNat > 57 ∨
          Int64.ofNat (UInt8.ofNat b.toNat).toNat < 48 ∨
            Int64.ofNat (UInt8.ofNat b.toNat).toNat > 57) := by
      simp only [gt_iff_lt, Int64.lt_iff_toInt_lt, numberX, numberY, zero, nine]
      omega
    simp only [if_neg inside, Option.some.injEq]
    have sum := (((((Computes.start _).cast numberX).sub (.literal 48 (by decide))
      ⟨by omega, by omega⟩).mul (.literal 10 (by decide)) ⟨by omega, by omega⟩).add
        ((Computes.start _).cast numberY) ⟨by omega, by omega⟩).sub (.literal 48 (by decide))
          ⟨by omega, by omega⟩
    have value : number [a, b] = 10 * (a.toNat - 48) + (b.toNat - 48) := by
      have zero : '0'.toNat = 48 := rfl
      rw [number, Nat.ofDigitChars_cons, Nat.ofDigitChars_cons, Nat.ofDigitChars_nil, zero]
      omega
    have codeX' : (UInt8.ofNat a.toNat).toNat = a.toNat := Utf8.toNat_ofNat_byte (by omega)
    have codeY' : (UInt8.ofNat b.toNat).toNat = b.toNat := Utf8.toNat_ofNat_byte (by omega)
    refine Int64.toInt_inj.mp (sum.machine.trans ?_)
    rw [toInt_ofInt ⟨by omega, by omega⟩, value, codeX', codeY']
    omega
  · rw [numeral, isDigit_iff, isDigit_iff] at both
    unfold twoDigits
    rw [encoded, atX, atY]
    cases xs with
    | cons x' xs => cases xs <;> rfl
    | nil =>
      cases ys with
      | cons y' ys => rfl
      | nil =>
        have outside : Int64.ofNat x.toNat < 48 ∨ Int64.ofNat x.toNat > 57 ∨
            Int64.ofNat y.toNat < 48 ∨ Int64.ofNat y.toNat > 57 := by
          simp only [gt_iff_lt, Int64.lt_iff_toInt_lt, numberX, numberY, zero, nine]
          omega
        exact if_pos outside

/-- The offset of a sign, hours, minutes and seconds. -/
def total (sign : Char) (h m sec : Int64) : Option Offset :=
  if h > 18 ∨ m > 59 ∨ sec > 59 then none
  else ofSeconds ((if sign = '-' then 0 - 1 else 1) * (h * 3600 + m * 60 + sec))

/-- Offsets of the same seconds are the same. -/
theorem eq_of_toInt {o p : Offset} (same : o.seconds.toInt = p.seconds.toInt) : o = p := by
  obtain ⟨n, range⟩ := o
  obtain ⟨k, other⟩ := p
  obtain rfl : n = k := Int64.toInt_inj.mp same
  rfl

/-- The offset of so many seconds. -/
theorem ofSeconds_eq_some_iff {s : Int64} {o : Offset} :
    ofSeconds s = some o ↔ o.seconds = s := by
  unfold ofSeconds
  split_ifs with outside
  · have low : (0 - maxSeconds).toInt = -64800 := rfl
    have high : maxSeconds.toInt = 64800 := rfl
    have range := o.inRange
    rw [gt_iff_lt, Int64.lt_iff_toInt_lt, Int64.lt_iff_toInt_lt, low, high] at outside
    simp only [false_iff]
    rintro rfl
    omega
  · constructor
    · rintro found
      cases found
      rfl
    · rintro rfl
      rfl

/-- The offset of a sign and numbers of two digits. -/
theorem total_eq_some_iff {sign : Char} {h m s : ℕ} {o : Offset} (hours : h < 100)
    (minutes : m < 100) (seconds : s < 100) :
    total sign (Int64.ofInt h) (Int64.ofInt m) (Int64.ofInt s) = some o ↔
      m ≤ 59 ∧ s ≤ 59 ∧ o.seconds.toInt = signed sign (h * 3600 + m * 60 + s) := by
  have hour : (Int64.ofInt h).toInt = h := toInt_ofInt ⟨by omega, by omega⟩
  have minute : (Int64.ofInt m).toInt = m := toInt_ofInt ⟨by omega, by omega⟩
  have second : (Int64.ofInt s).toInt = s := toInt_ofInt ⟨by omega, by omega⟩
  have eighteen : (18 : Int64).toInt = 18 := rfl
  have sixty : (59 : Int64).toInt = 59 := rfl
  have size := (((((Computes.start _).cast hour).mul (.literal 3600 (by decide))
    ⟨by omega, by omega⟩).add (((Computes.start _).cast minute).mul (.literal 60 (by decide))
      ⟨by omega, by omega⟩) ⟨by omega, by omega⟩).add ((Computes.start _).cast second)
        ⟨by omega, by omega⟩)
  have value : ((if sign = '-' then 0 - 1 else 1 : Int64) *
      (Int64.ofInt h * 3600 + Int64.ofInt m * 60 + Int64.ofInt s)).toInt =
        signed sign (h * 3600 + m * 60 + s) := by
    have sum : (Int64.ofInt h * 3600 + Int64.ofInt m * 60 + Int64.ofInt s).toInt =
        (h : ℤ) * 3600 + m * 60 + s := size.machine
    unfold signed
    split_ifs
    · have minus : (0 - 1 : Int64).toInt = -1 := rfl
      rw [Int64.toInt_mul, minus, sum, Int.neg_one_mul, bmod_of_fits ⟨by omega, by omega⟩]
      push_cast
      rfl
    · rw [Int64.one_mul, sum]
      push_cast
      rfl
  have range := o.inRange
  unfold total
  simp only [gt_iff_lt, Int64.lt_iff_toInt_lt, hour, minute, second, eighteen, sixty]
  by_cases outside : (18 : ℤ) < h ∨ (59 : ℤ) < m ∨ (59 : ℤ) < s
  · rw [if_pos outside]
    simp only [reduceCtorEq, false_iff, not_and]
    intro minuteHigh secondHigh total
    unfold signed at total
    split_ifs at total <;> omega
  · rw [if_neg outside, ofSeconds_eq_some_iff, ← Int64.toInt_inj, value]
    constructor
    · exact fun same => ⟨by omega, by omega, same⟩
    · exact fun parts => parts.2.2

/-- A text of six characters. -/
theorem parse_six (a b c d e f : Char) : parse [a, b, c, d, e, f] =
    if (a = '+' ∨ a = '-') ∧ d = ':' then
      (twoDigits [b, c]).bind fun h => (twoDigits [e, f]).bind fun m => total a h m 0
    else none := by
  have size : Text.length [a, b, c, d, e, f] = 6 := rfl
  have first : Text.substring 0 1 [a, b, c, d, e, f] = [a] := rfl
  have colon : Text.substring 3 1 [a, b, c, d, e, f] = [d] := rfl
  have hours : Text.substring 1 2 [a, b, c, d, e, f] = [b, c] := rfl
  have minutes : Text.substring 4 2 [a, b, c, d, e, f] = [e, f] := rfl
  have sign : isSign [a] = true ↔ a = '+' ∨ a = '-' := by simp [isSign]
  have long : [a, b, c, d, e, f] ≠ ['Z'] := by simp
  unfold parse
  simp only [if_neg long, size, first, colon, hours, minutes, sign]
  by_cases shape : (a = '+' ∨ a = '-') ∧ d = ':'
  · obtain ⟨signed, rfl⟩ := shape
    simp only [signed, ne_eq, not_true, not_false_eq_true, and_true, false_and, or_self,
      Int.reduceEq, if_false, if_true, and_self]
    cases twoDigits [b, c] with
    | none => rfl
    | some h =>
      cases twoDigits [e, f] with
      | none => rfl
      | some m => simp only [Option.bind_some, total, List.cons.injEq, and_true]
  · rw [if_neg shape]
    by_cases signed : a = '+' ∨ a = '-'
    · have other : ¬ d = ':' := fun same => shape ⟨signed, same⟩
      simp [signed, other]
    · simp [signed]

/-- A text of nine characters. -/
theorem parse_nine (a b c d e f g h i : Char) : parse [a, b, c, d, e, f, g, h, i] =
    if (a = '+' ∨ a = '-') ∧ d = ':' ∧ g = ':' then
      (twoDigits [b, c]).bind fun hours => (twoDigits [e, f]).bind fun m =>
        (twoDigits [h, i]).bind fun s => total a hours m s
    else none := by
  obtain ⟨s, atText⟩ : ∃ s, s = [a, b, c, d, e, f, g, h, i] := ⟨_, rfl⟩
  have size : Text.length s = 9 := by rw [atText]; rfl
  have first : Text.substring 0 1 s = [a] := by rw [atText]; rfl
  have colon : Text.substring 3 1 s = [d] := by rw [atText]; rfl
  have later : Text.substring 6 1 s = [g] := by rw [atText]; rfl
  have hours : Text.substring 1 2 s = [b, c] := by rw [atText]; rfl
  have minutes : Text.substring 4 2 s = [e, f] := by rw [atText]; rfl
  have seconds : Text.substring 7 2 s = [h, i] := by rw [atText]; rfl
  have sign : isSign [a] = true ↔ a = '+' ∨ a = '-' := by simp [isSign]
  have long : s ≠ ['Z'] := by simp [atText]
  rw [← atText]
  unfold parse
  simp only [if_neg long, size, first, colon, later, hours, minutes, seconds, sign]
  by_cases shape : (a = '+' ∨ a = '-') ∧ d = ':' ∧ g = ':'
  · obtain ⟨signed, rfl, rfl⟩ := shape
    simp only [signed, ne_eq, not_true, not_false_eq_true, and_false, or_self,
      Int.reduceEq, if_false, if_true, and_self]
    cases twoDigits [b, c] with
    | none => rfl
    | some hours =>
      cases twoDigits [e, f] with
      | none => rfl
      | some m =>
        cases twoDigits [h, i] with
        | none => rfl
        | some s => simp only [Option.bind_some, total, List.cons.injEq, and_true]
  · rw [if_neg shape]
    by_cases signed : a = '+' ∨ a = '-'
    · have other : ¬ d = ':' ∨ ¬ g = ':' := not_and_or.mp fun both => shape ⟨signed, both⟩
      simp [signed, other]
    · simp [signed]

/-- Texts of any other length are not read, but one. -/
theorem parse_other {s : List Char} (utc : s ≠ ['Z']) (six : s.length ≠ 6) (nine : s.length ≠ 9) :
    parse s = none := by
  have size : Text.length s ≠ 6 ∧ Text.length s ≠ 9 := by
    unfold Text.length
    omega
  unfold parse
  simp only [if_neg utc, size, ne_eq, not_false_eq_true, and_self, true_or, if_true]

/-- Two digits are read as their number. -/
theorem twoDigits_numeral {cs : List Char} (numeral : Numeral 2 cs) :
    twoDigits cs = some (Int64.ofInt (number cs)) ∧ number cs < 100 := by
  refine ⟨?_, ?_⟩
  · obtain ⟨a, b, rfl⟩ := List.length_eq_two.mp numeral.1
    rw [twoDigits_eq, if_pos numeral]
  · have below := number_lt numeral.2
    rw [numeral.1] at below
    exact below

/-- What is read as two digits is two digits. -/
theorem of_twoDigits {a b : Char} {v : Int64} (read : twoDigits [a, b] = some v) :
    Numeral 2 [a, b] ∧ v = Int64.ofInt (number [a, b]) := by
  rw [twoDigits_eq] at read
  split_ifs at read with numeral
  exact ⟨numeral, (Option.some.inj read).symm⟩

/-- The parser reads the texts of an offset, and nothing else. -/
theorem parse_eq_some_iff {s : List Char} {o : Offset} : parse s = some o ↔ Denotes s o := by
  constructor
  · intro read
    by_cases utc : s = ['Z']
    · rw [utc] at read ⊢
      have found : parse ['Z'] = some zero := rfl
      rw [found] at read
      cases read
      exact .utc
    by_cases six : s.length = 6
    · match s, six with
      | [a, b, c, d, e, f], _ =>
        rw [parse_six] at read
        split_ifs at read with shape
        obtain ⟨sign, rfl⟩ := shape
        obtain ⟨h, hourRead, read⟩ := Option.bind_eq_some_iff.mp read
        obtain ⟨m, minuteRead, read⟩ := Option.bind_eq_some_iff.mp read
        obtain ⟨hours, rfl⟩ := of_twoDigits hourRead
        obtain ⟨minutes, rfl⟩ := of_twoDigits minuteRead
        have none : (0 : Int64) = Int64.ofInt ((0 : ℕ) : ℤ) := rfl
        rw [none, total_eq_some_iff (twoDigits_numeral hours).2 (twoDigits_numeral minutes).2
          (by decide), Nat.add_zero] at read
        exact .minutes a [b, c] [e, f] o sign hours minutes read.1 read.2.2
    by_cases nine : s.length = 9
    · match s, nine with
      | [a, b, c, d, e, f, g, h, i], _ =>
        rw [parse_nine] at read
        split_ifs at read with shape
        obtain ⟨sign, rfl, rfl⟩ := shape
        obtain ⟨hour, hourRead, read⟩ := Option.bind_eq_some_iff.mp read
        obtain ⟨m, minuteRead, read⟩ := Option.bind_eq_some_iff.mp read
        obtain ⟨sec, secondRead, read⟩ := Option.bind_eq_some_iff.mp read
        obtain ⟨hours, rfl⟩ := of_twoDigits hourRead
        obtain ⟨minutes, rfl⟩ := of_twoDigits minuteRead
        obtain ⟨seconds, rfl⟩ := of_twoDigits secondRead
        rw [total_eq_some_iff (twoDigits_numeral hours).2 (twoDigits_numeral minutes).2
          (twoDigits_numeral seconds).2] at read
        exact .seconds a [b, c] [e, f] [h, i] o sign hours minutes seconds read.1 read.2.1 read.2.2
    rw [parse_other utc six nine] at read
    cases read
  · intro denotes
    cases denotes with
    | utc => rfl
    | minutes sign h m o isSign hours minutes minute_high value =>
      obtain ⟨hour, hourSmall⟩ := twoDigits_numeral hours
      obtain ⟨minute, minuteSmall⟩ := twoDigits_numeral minutes
      obtain ⟨b, c, rfl⟩ := List.length_eq_two.mp hours.1
      obtain ⟨e, f, rfl⟩ := List.length_eq_two.mp minutes.1
      show parse [sign, b, c, ':', e, f] = _
      rw [parse_six, if_pos ⟨isSign, rfl⟩, hour, minute, Option.bind_some, Option.bind_some]
      have none : (0 : Int64) = Int64.ofInt ((0 : ℕ) : ℤ) := rfl
      rw [none, total_eq_some_iff hourSmall minuteSmall (by decide), Nat.add_zero]
      exact ⟨minute_high, by decide, value⟩
    | seconds sign h m s o isSign hours minutes seconds minute_high second_high value =>
      obtain ⟨hour, hourSmall⟩ := twoDigits_numeral hours
      obtain ⟨minute, minuteSmall⟩ := twoDigits_numeral minutes
      obtain ⟨second, secondSmall⟩ := twoDigits_numeral seconds
      obtain ⟨b, c, rfl⟩ := List.length_eq_two.mp hours.1
      obtain ⟨e, f, rfl⟩ := List.length_eq_two.mp minutes.1
      obtain ⟨h, i, rfl⟩ := List.length_eq_two.mp seconds.1
      show parse [sign, b, c, ':', e, f, ':', h, i] = _
      rw [parse_nine, if_pos ⟨isSign, rfl, rfl⟩, hour, minute, second, Option.bind_some,
        Option.bind_some, Option.bind_some]
      exact (total_eq_some_iff hourSmall minuteSmall secondSmall).mpr
        ⟨minute_high, second_high, value⟩

/-- The size of an offset. -/
theorem toInt_abs (o : Offset) : (Integers.abs o.seconds).toInt = o.seconds.toInt.natAbs := by
  have zero : (0 : Int64).toInt = 0 := rfl
  have range := o.inRange
  unfold Integers.abs
  split_ifs with negative
  · rw [Int64.lt_iff_toInt_lt, zero] at negative
    rw [Int64.toInt_sub, zero, bmod_of_fits ⟨by omega, by omega⟩]
    omega
  · rw [Int64.lt_iff_toInt_lt, zero] at negative
    omega

/-- The text of an offset denotes it. -/
theorem denotes_toString (o : Offset) : Denotes o.toString o := by
  have range := o.inRange
  have zeroInt : (0 : Int64).toInt = 0 := rfl
  by_cases utc : o.seconds = 0
  · have same : o = zero := eq_of_toInt (by rw [utc]; rfl)
    have text : o.toString = ['Z'] := if_pos utc
    rw [text, same]
    exact .utc
  · have size := toInt_abs o
    have mag := (Computes.start (Integers.abs o.seconds)).cast size
    obtain ⟨n, atSize⟩ : ∃ n, n = o.seconds.toInt.natAbs := ⟨_, rfl⟩
    rw [← atSize] at mag
    have hour : (Integers.abs o.seconds / 3600).toInt = n / 3600 :=
      (mag.divide (.literal 3600 (by decide)) (by omega) (by decide)).machine
    have minute : (Integers.abs o.seconds % 3600 / 60).toInt = n % 3600 / 60 :=
      ((mag.remainder (.literal 3600 (by decide)) (by omega) (by decide)).divide
        (.literal 60 (by decide)) (by omega) (by decide)).machine
    have second : (Integers.abs o.seconds % 60).toInt = n % 60 :=
      (mag.remainder (.literal 60 (by decide)) (by omega) (by decide)).machine
    obtain ⟨sign, atSign, isSign, value⟩ : ∃ sign,
        (if o.seconds < 0 then ['-'] else ['+']) = [sign] ∧ (sign = '+' ∨ sign = '-') ∧
          o.seconds.toInt = signed sign n := by
      by_cases negative : o.seconds < 0
      · rw [if_pos negative]
        rw [Int64.lt_iff_toInt_lt, zeroInt] at negative
        exact ⟨'-', rfl, Or.inr rfl, by unfold signed; rw [if_pos rfl]; omega⟩
      · rw [if_neg negative]
        rw [Int64.lt_iff_toInt_lt, zeroInt] at negative
        exact ⟨'+', rfl, Or.inl rfl, by unfold signed; rw [if_neg (by decide)]; omega⟩
    unfold toString
    simp only [if_neg utc, atSign]
    rw [padStart_two (by omega), padStart_two (by omega)]
    split_ifs with whole
    · rw [whole, zeroInt] at second
      refine .minutes sign _ _ o isSign (numeral_field (by decide) (by omega))
        (numeral_field (by decide) (by omega)) (by rw [number_field]; omega) ?_
      rw [number_field, number_field, value]
      congr 1
      omega
    · rw [padStart_two (by omega)]
      refine .seconds sign _ _ _ o isSign (numeral_field (by decide) (by omega))
        (numeral_field (by decide) (by omega)) (numeral_field (by decide) (by omega))
        (by rw [number_field]; omega) (by rw [number_field]; omega) ?_
      rw [number_field, number_field, number_field, value]
      congr 1
      omega

end Offset

end Fai.Datetime
