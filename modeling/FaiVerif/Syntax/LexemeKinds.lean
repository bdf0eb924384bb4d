import FaiVerif.Primitives.Integers
import FaiVerif.Syntax.Lexemes

/-!
# Every kind of lexeme

Each function of the lexer that reads from a character on reads one lexeme.
-/

namespace Fai.Syntax

open Scan

namespace Lexer

/-- A text that is next is what is left starts with. -/
theorem startsWith_iff {l : Lexer} {front : List Char} :
    l.startsWith front = true ↔ ∃ rest, l.rest = front ++ rest := by
  rw [startsWith, List.isPrefixOf_iff_prefix]
  constructor
  · rintro ⟨rest, same⟩
    exact ⟨rest, same.symm⟩
  · rintro ⟨rest, same⟩
    exact ⟨rest, same.symm⟩

/-- The next character of what is left. -/
theorem peek_of_rest {l : Lexer} {c : Char} {rest : List Char} (left : l.rest = c :: rest) :
    l.peek = some c := by rw [peek, left]; rfl

/-- What is left after the next character. -/
theorem rest_bump {l : Lexer} {c : Char} {rest : List Char} (left : l.rest = c :: rest) :
    l.bump.rest = rest := (Cursor.takes_next left).2

/-- Two characters that are next are read. -/
theorem reads_two {l : Lexer} {c d : Char} {rest : List Char} (left : l.rest = c :: d :: rest) :
    Reads l l.bump.bump [c, d] [] :=
  (Reads.bump (peek_of_rest left)).trans (Reads.bump (peek_of_rest (rest_bump left)))

/-! ### Comments -/

/-- A comment up to the end of its line is a lexeme. -/
theorem lineComment_hands {l : Lexer} (opens : l.startsWith ['/', '/'] = true) :
    Hands l (l.lineComment l.pos) := by
  obtain ⟨rest, left⟩ := startsWith_iff.mp opens
  have read := Reads.bumpWhile (fun c => c != '\n' && c != '\r') l
  have some_char : l.rest.takeWhile (fun c => c != '\n' && c != '\r') ≠ [] := by
    rw [left]
    simp
  exact read.comment _ (.reported some_char (by simp)
    (fun _ member => absurd member List.not_mem_nil)
    (fun _ same => by cases same) (fun _ same => by cases same))

/-- The rest of a comment is read, and its end is reported missing if it is. -/
theorem blockLoop_reads (start depth : Nat) (l : Lexer) : ∃ front reports,
    Reads l (blockLoop start depth l) front reports ∧
      ∀ d ∈ reports, d.Lone = false ∧ d.range = ⟨start, (blockLoop start depth l).pos⟩ := by
  fun_induction blockLoop start depth l with
  | case1 l => exact ⟨[], [], .refl l, fun _ member => absurd member List.not_mem_nil⟩
  | case2 depth l deep here =>
    refine ⟨[], _, (Reads.refl l).error _ _ _, ?_⟩
    intro d member
    rw [List.nil_append, List.mem_singleton] at member
    subst member
    exact ⟨rfl, rfl⟩
  | case3 depth l deep c here opens ih =>
    obtain ⟨rest, left⟩ := startsWith_iff.mp opens
    obtain ⟨front, reports, read, inside⟩ := ih
    exact ⟨_, _, (reads_two left).trans read, inside⟩
  | case4 depth l deep c here opens closes ih =>
    obtain ⟨rest, left⟩ := startsWith_iff.mp closes
    obtain ⟨front, reports, read, inside⟩ := ih
    exact ⟨_, _, (reads_two left).trans read, inside⟩
  | case5 depth l deep c here opens closes ih =>
    obtain ⟨front, reports, read, inside⟩ := ih
    exact ⟨_, _, (Reads.bump here).trans read, inside⟩

/-- A comment in parentheses and stars is a lexeme. -/
theorem blockComment_hands {l : Lexer} (opens : l.startsWith ['(', '*'] = true) :
    Hands l (l.blockComment l.pos) := by
  obtain ⟨rest, left⟩ := startsWith_iff.mp opens
  obtain ⟨front, reports, body, inside⟩ := blockLoop_reads l.pos 1 l.bump.bump
  have read := (reads_two left).trans body
  refine read.comment .block (.reported (by simp) (by simp) ?_ (fun _ same => by cases same)
    (fun _ same => by cases same))
  intro d member
  obtain ⟨other, range⟩ := inside d member
  rw [range]
  exact ⟨other, Nat.le_refl _, read.le, Nat.le_refl _⟩

/-! ### Strings -/

/-- The rest of a string is read. Errors are inside it, and without them it is one of the
grammar. -/
theorem stringLoop_reads {start : Nat} (l : Lexer) (after : start ≤ l.pos) : ∃ front reports,
    Reads l (stringLoop start l) front reports ∧
      (∀ d ∈ reports, d.Lone = false ∧ d.range.Within ⟨start, (stringLoop start l).pos⟩) ∧
      (reports = [] → ∃ text value, front = text ++ ['"'] ∧ CharsDenote text value) := by
  fun_induction stringLoop start l with
  | case1 l here =>
    refine ⟨[], _, (Reads.refl l).error _ _ _, ?_, fun none_reported => by simp at none_reported⟩
    intro d member
    rw [List.nil_append, List.mem_singleton] at member
    subst member
    exact ⟨rfl, Nat.le_refl _, after, Nat.le_refl _⟩
  | case2 l here =>
    refine ⟨[], _, (Reads.refl l).error _ _ _, ?_, fun none_reported => by simp at none_reported⟩
    intro d member
    rw [List.nil_append, List.mem_singleton] at member
    subst member
    exact ⟨rfl, Nat.le_refl _, after, Nat.le_refl _⟩
  | case3 l here _ =>
    exact ⟨['"'], [], .bump here, fun _ member => absurd member List.not_mem_nil,
      fun _ => ⟨[], [], rfl, .nil⟩⟩
  | case4 l here _ _ ih =>
    have first := Reads.bump here
    obtain ⟨escaped, errors, second, what⟩ := escape_spec l.bump
    have further := first.le.trans second.le
    obtain ⟨front, reports, third, inside, clean⟩ := ih (after.trans further)
    have backslash : l.bump.pos - 1 = l.pos := by
      rw [first.takes.pos]
      rfl
    refine ⟨['\\'] ++ escaped ++ front, [] ++ errors ++ reports, (first.trans second).trans third,
      ?_, ?_⟩
    · intro d member
      rcases List.mem_append.mp member with early | late
      · rw [List.nil_append] at early
        rcases what with ⟨rfl, -⟩ | ⟨report, rfl, code, range⟩
        · cases early
        · rw [List.mem_singleton.mp early, range, backslash]
          refine ⟨by simp [Diagnostic.Lone, code], after, further, ?_⟩
          exact third.le
      · exact inside d late
    · intro none_reported
      rw [List.nil_append, List.append_eq_nil_iff] at none_reported
      rcases what with ⟨-, value, denotes⟩ | ⟨report, rfl, -⟩
      · obtain ⟨text, values, rfl, more⟩ := clean none_reported.2
        exact ⟨'\\' :: escaped ++ text, value :: values, by simp, .escape denotes more⟩
      · cases none_reported.1
  | case5 l c here newline quote backslash ih =>
    have first := Reads.bump here
    obtain ⟨front, reports, read, inside, clean⟩ := ih (after.trans first.le)
    refine ⟨[c] ++ front, [] ++ reports, first.trans read, inside, ?_⟩
    intro none_reported
    obtain ⟨text, values, rfl, more⟩ := clean none_reported
    exact ⟨c :: text, c :: values, rfl, .plain quote backslash newline more⟩

/-- A string is a lexeme. -/
theorem string_hands {l : Lexer} (opens : l.peek = some '"') : Hands l (l.string l.pos) := by
  have first := Reads.bump opens
  obtain ⟨front, reports, rest, inside, clean⟩ := stringLoop_reads l.bump first.le
  refine (first.trans rest).push .string (.reported (by simp) (by simp) inside ?_ ?_)
  · intro kind same
    cases same
    decide
  · intro kind same none_reported
    cases same
    obtain ⟨text, values, rfl, chars⟩ := clean none_reported
    exact ⟨fun other => (by cases other), fun other => (by cases other),
      fun other => (by cases other),
      fun _ => ⟨_, .string chars⟩⟩

/-! ### Characters and type variables -/

/-- What is between the quotes of a character is read. Errors are inside it, and without them it is
one of the grammar. -/
theorem charBody_reads {l : Lexer} {c : Char} (here : l.peek = some c) (quote : c ≠ '\'')
    (newline : c ≠ '\n') : ∃ front reports, Reads l l.charBody front reports ∧
      (∀ d ∈ reports, d.Lone = false ∧ d.range.Within ⟨l.pos, l.charBody.pos⟩) ∧
      (reports = [] → ∃ value, CharDenotes ('\'' :: front ++ ['\'']) value) := by
  have first := Reads.bump here
  by_cases backslash : c = '\\'
  · subst backslash
    have same : l.charBody = l.bump.escape := by rw [charBody, here]; exact if_pos rfl
    obtain ⟨front, reports, second, what⟩ := escape_spec l.bump
    have start : l.bump.pos - 1 = l.pos := by
      rw [first.takes.pos]
      rfl
    rw [same]
    refine ⟨['\\'] ++ front, [] ++ reports, first.trans second, ?_, ?_⟩
    · intro d member
      rw [List.nil_append] at member
      rcases what with ⟨rfl, -⟩ | ⟨report, rfl, code, range⟩
      · cases member
      · rw [List.mem_singleton.mp member, range, start]
        exact ⟨by simp [Diagnostic.Lone, code], Nat.le_refl _, first.le.trans second.le,
          Nat.le_refl _⟩
    · intro none_reported
      rw [List.nil_append] at none_reported
      rcases what with ⟨-, value, denotes⟩ | ⟨report, rfl, -⟩
      · exact ⟨value, .escape denotes⟩
      · cases none_reported
  · have same : l.charBody = l.bump := by
      rw [charBody, here]
      simp only [if_neg backslash, if_pos (And.intro quote newline)]
    rw [same]
    exact ⟨[c], [], first, fun _ member => absurd member List.not_mem_nil, fun _ =>
      ⟨c, .plain quote backslash newline⟩⟩

/-- A character in quotes is a lexeme. What is after the first quote is not the second. -/
theorem charLiteral_hands {l : Lexer} {c : Char} {rest : List Char}
    (left : l.rest = '\'' :: c :: rest) (quote : c ≠ '\'') (newline : c ≠ '\n') :
    Hands l (l.charLiteral l.pos) := by
  have first := Reads.bump (peek_of_rest left)
  obtain ⟨front, reports, body, inside, clean⟩ :=
    charBody_reads (peek_of_rest (rest_bump left)) quote newline
  have read := first.trans body
  have within {finish : Nat} (further : l.bump.charBody.pos ≤ finish) :
      ∀ d ∈ [] ++ reports, d.Lone = false ∧ d.range.Within ⟨l.pos, finish⟩ := by
    intro d member
    obtain ⟨other, low, ordered, high⟩ := inside d member
    exact ⟨other, first.le.trans low, ordered, high.trans further⟩
  rw [charLiteral]
  split
  · next closed eaten =>
    have last := reads_eat eaten
    refine (read.trans last).push .char (.reported (by simp) (by simp) ?_ ?_ ?_)
    · rw [List.append_nil]
      exact within last.le
    · intro kind same
      cases same
      decide
    · intro kind same none_reported
      cases same
      rw [List.append_nil] at none_reported
      exact ⟨fun other => (by cases other), fun other => (by cases other), fun _ =>
        clean none_reported, fun other => (by cases other)⟩
  · exact read.stray (by simp) (within (Nat.le_refl _)) (.inr rfl) _

/-- A type variable is a lexeme. -/
theorem typeVar_hands {l : Lexer} (opens : l.peek = some '\'') : Hands l (l.typeVar l.pos) := by
  have first := Reads.bump opens
  rw [typeVar]
  simp only
  split_ifs with named
  · have read := first.trans (Reads.bumpWhile isIdentContinue l.bump)
    exact read.push .typeVar (.plain (by simp) (by decide) rfl)
  · exact first.stray (by simp) (fun _ member => absurd member List.not_mem_nil) (.inr rfl) _

/-- What a quote starts is a lexeme. -/
theorem quote_hands {l : Lexer} {rest : List Char} (left : l.rest = '\'' :: rest) :
    Hands l (l.quote l.pos) := by
  cases rest with
  | nil =>
    have none_left : l.nth 1 = none := by rw [nth, left]; rfl
    rw [quote, none_left]
    exact typeVar_hands (peek_of_rest left)
  | cons c rest =>
    have next : l.nth 1 = some c := by rw [nth, left]; rfl
    rw [quote, next]
    simp only
    split_ifs with backslash closes plain
    · exact charLiteral_hands left (by rw [backslash]; decide) (by rw [backslash]; decide)
    · exact (reads_two left).stray (by simp)
        (fun _ member => absurd member List.not_mem_nil) (.inr rfl) _
    · exact charLiteral_hands left closes plain.2
    · exact typeVar_hands (peek_of_rest left)

/-! ### Numbers -/

/-- A decimal digit is one in a base that it is below. -/
theorem toDigit_of_isDigit {c : Char} (digit : c.isDigit = true) {radix : Nat}
    (below : c.toNat - 48 < radix) : toDigit radix c = some (c.toNat - 48) := by
  simp only [Char.isDigit, Bool.and_eq_true, decide_eq_true_eq] at digit
  have both : '0' ≤ c ∧ c ≤ '9' := digit
  simp only [toDigit, if_pos both, if_pos below]

/-- A text of digits and separators has digits. -/
theorem digitsText_of_all {radix : Nat} {text : List Char}
    (all : ∀ c ∈ text, c = '_' ∨ ∃ d, toDigit radix c = some d) :
    ∃ digits, DigitsText radix text digits ∧ ((∃ c ∈ text, c ≠ '_') → digits ≠ []) := by
  induction text with
  | nil => exact ⟨[], .nil, fun ⟨c, member, _⟩ => (nomatch member)⟩
  | cons c text ih =>
    obtain ⟨digits, more, present⟩ := ih fun d member => all d (List.mem_cons_of_mem _ member)
    rcases all c (List.mem_cons_self) with rfl | ⟨d, digit⟩
    · refine ⟨digits, .separator more, ?_⟩
      rintro ⟨d, member, other⟩
      rcases List.mem_cons.mp member with rfl | later
      · exact absurd rfl other
      · exact present ⟨d, later, other⟩
    · exact ⟨d :: digits, .digit digit more, fun _ => List.cons_ne_nil _ _⟩

/-- Decimal digits and separators are digits in base ten. -/
theorem toDigit_of_isDigitOrSeparator {c : Char} (pass : isDigitOrSeparator c = true) :
    c = '_' ∨ ∃ d, toDigit 10 c = some d := by
  simp only [isDigitOrSeparator, Bool.or_eq_true, beq_iff_eq] at pass
  rcases pass with digit | separator
  · have high := (Integers.isDigit_iff c).mp digit
    exact .inr ⟨_, toDigit_of_isDigit digit (by omega)⟩
  · exact .inl separator

/-- The characters that pass a test pass it. -/
theorem mem_takeWhile {test : Char → Bool} {text : List Char} :
    ∀ c ∈ text.takeWhile test, test c = true := by
  exact List.all_eq_true.mp List.all_takeWhile

/-- Digits and separators from a digit on. -/
theorem reads_digits {l : Lexer} {c : Char} {rest : List Char} (left : l.rest = c :: rest)
    (first : c.isDigit = true) : ∃ text digits,
      Reads l (l.bumpWhile isDigitOrSeparator) (c :: text) [] ∧
        DigitsText 10 (c :: text) digits := by
  have pass : isDigitOrSeparator c = true := by rw [isDigitOrSeparator, first, Bool.true_or]
  have read := Reads.bumpWhile isDigitOrSeparator l
  have all : ∀ d ∈ l.rest.takeWhile isDigitOrSeparator, d = '_' ∨ ∃ n, toDigit 10 d = some n :=
    fun d member => toDigit_of_isDigitOrSeparator (mem_takeWhile d member)
  rw [left, List.takeWhile_cons_of_pos pass] at read all
  obtain ⟨digits, shape, -⟩ := digitsText_of_all all
  exact ⟨_, digits, read, shape⟩

/-- The next characters, from whether they are there. -/
theorem rest_of_peek {l : Lexer} {c : Char} (here : l.peek = some c) :
    ∃ rest, l.rest = c :: rest := by
  cases left : l.rest with
  | nil => simp [peek, left] at here
  | cons d rest =>
    have same : d = c := by simpa [peek, left] using here
    exact ⟨rest, by rw [same]⟩

/-- The fraction of a number is read. -/
theorem fraction_reads (l : Lexer) : ∃ front digits, Reads l l.fraction.2 front [] ∧
    FractionText front digits ∧ (l.fraction.1 = true ↔ front ≠ []) := by
  rw [fraction]
  split_ifs with here
  · obtain ⟨point, after⟩ := here
    obtain ⟨rest, left⟩ := rest_of_peek point
    cases rest with
    | nil => simp [nth, left] at after
    | cons c rest =>
      have digit : c.isDigit = true := by simpa [nth, left] using after
      obtain ⟨text, digits, read, shape⟩ := reads_digits (rest_bump left) digit
      exact ⟨_, digits, (Reads.bump point).trans read, .present digit shape, by simp⟩
  · exact ⟨[], [], .refl l, .absent, by simp⟩

/-- One of two characters that is next is there. -/
theorem exists_of_peek {l : Lexer} {c d : Char} (here : l.peek = some c ∨ l.peek = some d) :
    ∃ e, l.peek = some e ∧ (e = c ∨ e = d) := by
  rcases here with here | here
  · exact ⟨_, here, .inl rfl⟩
  · exact ⟨_, here, .inr rfl⟩

/-- The exponent of a number is read. -/
theorem exponent_reads (l : Lexer) : ∃ front e, Reads l l.exponent.2 front [] ∧
    ExponentText front e ∧ (l.exponent.1 = true ↔ front ≠ []) := by
  have absent : ∃ front e, Reads l l front [] ∧ ExponentText front e ∧
      (false = true ↔ front ≠ []) := ⟨[], 0, .refl l, .absent, by simp⟩
  rw [exponent]
  by_cases letter : l.peek = some 'e' ∨ l.peek = some 'E'
  · rw [if_pos letter]
    simp only
    by_cases power : l.bump.eatSign.peek.any Char.isDigit = true
    · rw [if_pos power]
      obtain ⟨e, here, which⟩ := exists_of_peek letter
      obtain ⟨c, after, digit⟩ := (Option.any_eq_true _ _).mp power
      obtain ⟨rest, left⟩ := rest_of_peek after
      obtain ⟨text, digits, read, shape⟩ := reads_digits left digit
      by_cases signed : l.bump.peek = some '+' ∨ l.bump.peek = some '-'
      · rw [eatSign, if_pos signed] at read ⊢
        obtain ⟨sign, next, either⟩ := exists_of_peek signed
        have first := (Reads.bump here).trans (Reads.bump next)
        rcases either with rfl | rfl
        · exact ⟨_, _, first.trans read, .positive which digit shape, by simp⟩
        · exact ⟨_, _, first.trans read, .negative which digit shape, by simp⟩
      · rw [eatSign, if_neg signed] at read ⊢
        exact ⟨_, _, (Reads.bump here).trans read, .unsigned which digit shape, by simp⟩
    · rw [if_neg power]
      exact absent
  · rw [if_neg letter]
    exact absent

/-- What the digits of a number are, when there are any. -/
def NumberText (isFloat : Bool) (text : List Char) : Prop :=
  if isFloat then ∃ q, FloatDenotes text q else ∃ radix digits, IntText text radix digits

/-- A decimal number is read. -/
theorem decimalNumber_reads {l : Lexer} {c : Char} {rest : List Char} (left : l.rest = c :: rest)
    (first : c.isDigit = true) : ∃ front, Reads l l.decimalNumber.2 front [] ∧
      NumberText l.decimalNumber.1 front := by
  obtain ⟨whole, wholes, before, shape⟩ := reads_digits left first
  obtain ⟨fraction, fractions, middle, point, marked⟩ :=
    fraction_reads (l.bumpWhile isDigitOrSeparator)
  obtain ⟨power, e, last, exponent, raised⟩ :=
    exponent_reads (l.bumpWhile isDigitOrSeparator).fraction.2
  refine ⟨_, (before.trans middle).trans last, ?_⟩
  have flag : l.decimalNumber.1 = ((l.bumpWhile isDigitOrSeparator).fraction.1 ||
      (l.bumpWhile isDigitOrSeparator).fraction.2.exponent.1) := rfl
  rw [flag, NumberText]
  split_ifs with either
  · rw [Bool.or_eq_true, marked, raised] at either
    exact ⟨_, .float first shape point exponent either⟩
  · rw [Bool.or_eq_true, marked, raised, not_or, not_not, not_not] at either
    rw [either.1, either.2, List.append_nil, List.append_nil]
    exact ⟨10, wholes, .decimal first shape⟩

/-- A letter after a zero says a radix, and what its digits are. -/
theorem radixLetter_of_hasBase {c : Char}
    (listed : ['x', 'X', 'o', 'O', 'b', 'B'].contains c = true) : ∃ radix, RadixLetter c radix ∧
      ∀ d, isBaseDigit c.toLower d = true → d = '_' ∨ ∃ n, toDigit radix d = some n := by
  have hexadecimal : ∀ d, isBaseDigit 'x' d = true → d = '_' ∨ ∃ n, toDigit 16 d = some n := by
    intro d pass
    simp only [isBaseDigit, if_true, Bool.or_eq_true, beq_iff_eq, Option.isSome_iff_exists] at pass
    exact pass.symm
  have octal : ∀ d, isBaseDigit 'o' d = true → d = '_' ∨ ∃ n, toDigit 8 d = some n := by
    intro d pass
    simp only [isBaseDigit, if_neg (show 'o' ≠ 'x' by decide), if_true, Bool.or_eq_true,
      Bool.and_eq_true, decide_eq_true_eq, beq_iff_eq, char_le_iff] at pass
    rcases pass with number | separator
    · have seven : '7'.toNat = 55 := rfl
      have zero : '0'.toNat = 48 := rfl
      have digit : d.isDigit = true := (Integers.isDigit_iff d).mpr (by omega)
      exact .inr ⟨_, toDigit_of_isDigit digit (by omega)⟩
    · exact .inl separator
  have binary : ∀ d, isBaseDigit 'b' d = true → d = '_' ∨ ∃ n, toDigit 2 d = some n := by
    intro d pass
    simp only [isBaseDigit, if_neg (show 'b' ≠ 'x' by decide), if_neg (show 'b' ≠ 'o' by decide),
      Bool.or_eq_true, beq_iff_eq, or_assoc] at pass
    rcases pass with rfl | rfl | separator
    · exact .inr ⟨0, rfl⟩
    · exact .inr ⟨1, rfl⟩
    · exact .inl separator
  simp only [List.contains_eq_mem, List.mem_cons, List.not_mem_nil, or_false,
    decide_eq_true_eq] at listed
  rcases listed with rfl | rfl | rfl | rfl | rfl | rfl
  · exact ⟨16, .hexadecimal _ (.inl rfl), hexadecimal⟩
  · exact ⟨16, .hexadecimal _ (.inr rfl), hexadecimal⟩
  · exact ⟨8, .octal _ (.inl rfl), octal⟩
  · exact ⟨8, .octal _ (.inr rfl), octal⟩
  · exact ⟨2, .binary _ (.inl rfl), binary⟩
  · exact ⟨2, .binary _ (.inr rfl), binary⟩

/-- A number in a base is read. -/
theorem baseNumber_reads {l : Lexer} (based : l.hasBase = true) : ∃ front,
    Reads l l.baseNumber.2 front [] ∧ front ≠ [] ∧
      (l.baseNumber.1 = true → NumberText false front) := by
  rw [hasBase, Bool.and_eq_true, beq_iff_eq] at based
  obtain ⟨zero, after⟩ := based
  obtain ⟨rest, left⟩ := rest_of_peek zero
  cases rest with
  | nil => simp [nth, left] at after
  | cons c rest =>
    have listed : ['x', 'X', 'o', 'O', 'b', 'B'].contains c = true := by
      simpa [nth, left] using after
    obtain ⟨radix, letter, each⟩ := radixLetter_of_hasBase listed
    have base : (l.bump.peek.getD 'x').toLower = c.toLower := by
      rw [peek_of_rest (rest_bump left)]
      rfl
    have read := (reads_two left).trans (Reads.bumpWhile (isBaseDigit c.toLower) l.bump.bump)
    refine ⟨_, by rw [baseNumber, base]; exact read, by simp, ?_⟩
    intro present
    rw [baseNumber, base] at present
    obtain ⟨d, member, other⟩ := List.any_eq_true.mp present
    obtain ⟨digits, shape, some_digit⟩ := digitsText_of_all fun d member =>
      each d (mem_takeWhile d member)
    exact ⟨radix, digits, .based letter shape
      (some_digit ⟨d, member, by simpa using other⟩)⟩

/-- The digits of a number are read. -/
theorem numberBody_reads {l : Lexer} {c : Char} {rest : List Char} (left : l.rest = c :: rest)
    (first : c.isDigit = true) : ∃ front, Reads l l.numberBody.2.2 front [] ∧ front ≠ [] ∧
      (l.numberBody.2.1 = true → NumberText l.numberBody.1 front) := by
  rw [numberBody]
  split_ifs with based
  · exact baseNumber_reads based
  · obtain ⟨front, read, shape⟩ := decimalNumber_reads left first
    refine ⟨front, read, ?_, fun _ => shape⟩
    rintro rfl
    rw [NumberText] at shape
    split_ifs at shape
    · obtain ⟨q, ⟨⟩⟩ := shape
    · obtain ⟨radix, digits, ⟨⟩⟩ := shape

/-- A number is a lexeme. -/
theorem number_hands {l : Lexer} {c : Char} {rest : List Char} (left : l.rest = c :: rest)
    (first : c.isDigit = true) : Hands l (l.number l.pos) := by
  obtain ⟨front, body, some_char, shape⟩ := numberBody_reads left first
  rw [number]
  generalize l.numberBody = parts at body shape
  obtain ⟨isFloat, ok, middle⟩ := parts
  simp only at body shape ⊢
  obtain ⟨suffix, read, longer, plain⟩ : ∃ suffix, Reads l (if middle.peek.any isIdentContinue
      then middle.bumpWhile isIdentContinue else middle) (front ++ suffix) [] ∧
        front ++ suffix ≠ [] ∧ (middle.peek.any isIdentContinue = false → suffix = []) := by
    split_ifs with more
    · exact ⟨_, body.trans (.bumpWhile _ _), by simp [some_char], fun other => by
        rw [more] at other; cases other⟩
    · exact ⟨[], by rw [List.append_nil]; exact body, by simpa using some_char, fun _ => rfl⟩
  generalize (if middle.peek.any isIdentContinue then middle.bumpWhile isIdentContinue
    else middle) = last at read
  have real (isFloat : Bool) : ∀ kind, Found.token (if isFloat then TokenKind.float else .int) =
      .token kind → kind.IsVirtual = false ∧ kind ≠ .eof := by
    rintro kind ⟨⟩
    cases isFloat <;> decide
  have wrong (message : String) : Hands l ((last.error .invalidNumber (last.rangeFrom l.pos)
      message).push (if isFloat then .float else .int) (last.rangeFrom l.pos)) := by
    refine (read.error _ _ _).push _ (.reported longer (by simp) ?_ (real isFloat) ?_)
    · intro d member
      rw [List.nil_append, List.mem_singleton] at member
      subst member
      exact ⟨rfl, Nat.le_refl _, read.le, Nat.le_refl _⟩
    · intro kind same none_reported
      cases none_reported
  by_cases malformed : (!ok || middle.peek.any isIdentContinue) = true
  · rw [if_pos malformed]
    exact wrong _
  rw [if_neg malformed]
  simp only [Bool.or_eq_true, Bool.not_eq_true', not_or, Bool.not_eq_false,
    Bool.not_eq_true] at malformed
  have text := shape malformed.1
  rw [plain malformed.2, List.append_nil] at read longer
  by_cases large : (!isFloat && (decodeIntLiteral (TextRange.text (last.rangeFrom l.pos)
      last.text)).isNone) = true
  · rw [if_pos large]
    exact wrong _
  rw [if_neg large]
  refine read.push _ (.clean longer (real isFloat _ rfl) fun placed => ?_)
  cases isFloat with
  | true =>
    exact ⟨fun other => (by cases other), fun _ => text, fun other => (by cases other),
      fun other => (by cases other)⟩
  | false =>
    obtain ⟨radix, digits, integer⟩ := text
    have decoded : (decodeIntLiteral front).isSome := by
      rw [← read.range_text placed]
      simpa [Option.isNone_iff_eq_none, Option.isSome_iff_ne_none, rangeFrom] using large
    exact ⟨fun _ => integer.denotes decoded, fun other => (by cases other),
      fun other => (by cases other), fun other => (by cases other)⟩

/-! ### Identifiers, operators and punctuation -/

/-- A keyword is a token of the text, and no literal. -/
theorem keyword_real {text : List Char} {kind : TokenKind}
    (keyword : TokenKind.keyword text = some kind) :
    (kind.IsVirtual = false ∧ kind ≠ .eof) ∧ kind.IsLiteral = false := by
  obtain ⟨entry, found, rfl⟩ := Option.map_eq_some_iff.mp keyword
  have every : ∀ entry ∈ TokenKind.keywords, (entry.2.IsVirtual = false ∧ entry.2 ≠ .eof) ∧
      entry.2.IsLiteral = false := by decide
  exact every entry (List.mem_of_find?_eq_some found)

/-- A word is a token of the text, and no literal. -/
theorem wordKind_real (text : List Char) :
    ((wordKind text).IsVirtual = false ∧ wordKind text ≠ .eof) ∧
      (wordKind text).IsLiteral = false := by
  rw [wordKind]
  by_cases underscore : text = ['_']
  · rw [if_pos underscore]
    decide
  · rw [if_neg underscore]
    cases known : TokenKind.keyword text with
    | some kind => exact keyword_real known
    | none =>
      simp only
      split_ifs <;> decide

/-- An identifier is a lexeme. -/
theorem ident_hands {l : Lexer} {c : Char} {rest : List Char} (left : l.rest = c :: rest)
    (starts : isIdentStart c = true) : Hands l (l.ident l.pos) := by
  have read := Reads.bumpWhile isIdentContinue l
  have continues : isIdentContinue c = true := by
    simp only [isIdentStart, isIdentContinue, Char.isAlphanum, Bool.or_eq_true] at starts ⊢
    tauto
  have some_char : l.rest.takeWhile isIdentContinue ≠ [] := by
    rw [left, List.takeWhile_cons_of_pos continues]
    exact List.cons_ne_nil _ _
  obtain ⟨real, other⟩ := wordKind_real
    (((l.bumpWhile isIdentContinue).rangeFrom l.pos).text (l.bumpWhile isIdentContinue).text)
  exact read.push _ (.plain some_char real other)

/-- Punctuation is a token of the text, and no literal. -/
theorem punctuation_real {c : Char} {kind : TokenKind} (known : punctuation c = some kind) :
    (kind.IsVirtual = false ∧ kind ≠ .eof) ∧ kind.IsLiteral = false := by
  obtain ⟨entry, found, rfl⟩ := Option.map_eq_some_iff.mp known
  have every : ∀ entry ∈ punctuations, (entry.2.IsVirtual = false ∧ entry.2 ≠ .eof) ∧
      entry.2.IsLiteral = false := by decide
  exact every entry (List.mem_of_find?_eq_some found)

/-- An operator is a token of the text, and no literal. -/
theorem operatorKind_real (lexeme : List Char) :
    ((operatorKind lexeme).IsVirtual = false ∧ operatorKind lexeme ≠ .eof) ∧
      (operatorKind lexeme).IsLiteral = false := by
  rw [operatorKind]
  split_ifs <;> decide

/-- An operator, punctuation, or a character that is neither is a lexeme. -/
theorem operatorOrUnknown_hands {l : Lexer} {c : Char} {rest : List Char}
    (left : l.rest = c :: rest) : Hands l (l.operatorOrUnknown l.pos) := by
  have here := peek_of_rest left
  have first := Reads.bump here
  rw [operatorOrUnknown, here]
  simp only
  by_cases opens : c = '[' ∧ l.bump.peek = some '|'
  · rw [if_pos opens]
    have read := first.trans (Reads.bump opens.2)
    exact read.push .lArrayBracket (.plain (by simp) (by decide) rfl)
  rw [if_neg opens]
  by_cases closes : c = '|' ∧ l.bump.peek = some ']'
  · rw [if_pos closes]
    have read := first.trans (Reads.bump closes.2)
    exact read.push .rArrayBracket (.plain (by simp) (by decide) rfl)
  · rw [if_neg closes]
    split
    · next kind known =>
      obtain ⟨real, other⟩ := punctuation_real known
      exact first.push kind (.plain (by simp) real other)
    · split_ifs
      · have read := first.trans (Reads.bumpWhile isOperatorChar l.bump)
        obtain ⟨real, other⟩ := operatorKind_real
          ((l.bump.bumpWhile isOperatorChar).rangeFrom l.pos |>.text
            (l.bump.bumpWhile isOperatorChar).text)
        exact read.push _ (.plain (by simp) real other)
      · exact first.stray (by simp) (fun _ member => absurd member List.not_mem_nil) (.inl rfl) _

/-- What a character starts is a lexeme. -/
theorem lexeme_hands {l : Lexer} {c : Char} {rest : List Char} (left : l.rest = c :: rest) :
    Hands l (l.lexeme c) := by
  rw [lexeme]
  split_ifs with line block string quote number ident
  · exact lineComment_hands line.2
  · exact blockComment_hands block.2
  · exact string_hands (by rw [peek_of_rest left, string])
  · exact quote_hands (by rw [left, quote])
  · exact number_hands left number
  · exact ident_hands left ident
  · exact operatorOrUnknown_hands left

end Lexer

end Fai.Syntax
