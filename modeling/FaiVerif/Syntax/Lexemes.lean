import FaiVerif.Syntax.Lexer
import FaiVerif.Syntax.LiteralText

/-!
# What the lexer reads at once

From a character on the lexer reads one lexeme: a token, a comment, or text that is neither and is
reported. It reports errors inside the lexeme only, and a literal without them is one of the
grammar.
-/

namespace Fai.Syntax

open Scan

/-- A lexer further on has read a text and reported some diagnostics. -/
structure Reads (l further : Lexer) (front : List Char) (reports : List Diagnostic) : Prop where
  takes : Cursor.Takes l.toCursor further.toCursor front
  text : further.text = l.text
  out : further.out = { l.out with diagnostics := l.out.diagnostics ++ reports }

namespace Reads

variable {a b c l : Lexer} {first second front : List Char} {reports more : List Diagnostic}

/-- A lexer has read nothing yet. -/
theorem refl (l : Lexer) : Reads l l [] [] := ⟨.refl _, rfl, by simp⟩

/-- One text is read after another. -/
theorem trans (one : Reads a b first reports) (two : Reads b c second more) :
    Reads a c (first ++ second) (reports ++ more) :=
  ⟨one.takes.trans two.takes, two.text.trans one.text, by rw [two.out, one.out]; simp⟩

/-- The next character is read. -/
theorem bump {c : Char} (here : l.peek = some c) : Reads l l.bump [c] [] := by
  cases left : l.rest with
  | nil => simp [Lexer.peek, left] at here
  | cons d rest =>
    have same : d = c := by simpa [Lexer.peek, left] using here
    subst same
    exact ⟨(Cursor.takes_next left).1, rfl, by simp [Lexer.bump]⟩

/-- The characters that pass a test are read. -/
theorem bumpWhile (test : Char → Bool) (l : Lexer) :
    Reads l (l.bumpWhile test) (l.rest.takeWhile test) [] :=
  ⟨(Cursor.takes_skipWhile test l.toCursor).1, rfl, by simp [Lexer.bumpWhile]⟩

/-- An error is reported. -/
theorem error (read : Reads a b front reports) (code : DiagnosticCode) (range : TextRange)
    (message : String) : Reads a (b.error code range message) front
      (reports ++ [⟨code, message, b.source, range⟩]) :=
  ⟨read.takes, read.text, by simp [Lexer.error, read.out]⟩

/-- Nothing is read backwards. -/
theorem le (read : Reads a b front reports) : a.pos ≤ b.pos := by
  have moved := read.takes.pos
  omega

end Reads

/-- A character that may be next is read if it is. -/
theorem Lexer.reads_eat {l taken : Lexer} {c : Char} (eaten : l.eat c = some taken) :
    Reads l taken [c] [] := by
  rw [eat] at eaten
  split_ifs at eaten with here
  cases eaten
  exact .bump here

/-! ### Escapes -/

/-- A hexadecimal digit is one byte. -/
theorem utf8Size_of_toDigit {c : Char} {d : Nat} (digit : toDigit 16 c = some d) :
    c.utf8Size = 1 := by
  have nine : '9'.toNat = 57 := rfl
  have f : 'f'.toNat = 102 := rfl
  have F : 'F'.toNat = 70 := rfl
  have hex := (hexDigit_of_toDigit (by decide) digit).1
  have ascii : c.toNat ≤ 127 := by
    simp only [hexDigit, char_le_iff, nine, f, F] at hex
    split_ifs at hex
    · omega
    · omega
    · omega
  have encoded := congrArg List.length (Utf8.utf8EncodeChar_ascii ascii)
  rwa [String.length_utf8EncodeChar] at encoded

/-- A number with a further hexadecimal digit, within thirty-two bits. -/
def shiftIn (value : Option Nat) (digit : Nat) : Option Nat :=
  value.bind fun n => (checkedMul 32 n 16).bind fun product => checkedAdd 32 product digit

/-- Past an overflow there is no number. -/
theorem foldl_shiftIn_none (digits : List Nat) : digits.foldl shiftIn none = none := by
  induction digits with
  | nil => rfl
  | cons d digits ih => exact ih

/-- Digits that do not overflow write their number. -/
theorem foldl_shiftIn {digits : List Nat} {n m : Nat}
    (fits : digits.foldl shiftIn (some n) = some m) :
    m = n * 16 ^ digits.length + Radix.value 16 digits := by
  induction digits generalizing n with
  | nil =>
    cases fits
    simp
  | cons d digits ih =>
    rw [List.foldl_cons, shiftIn, Option.bind_some, checkedMul] at fits
    split_ifs at fits
    · rw [Option.bind_some, checkedAdd] at fits
      split_ifs at fits
      · rw [ih fits, Radix.value_cons, List.length_cons, Nat.pow_succ]
        ring
      · rw [foldl_shiftIn_none] at fits
        cases fits
    · rw [Option.bind_none, foldl_shiftIn_none] at fits
      cases fits

/-- The digits of an escape are taken up to what is none. -/
theorem hexFrom_spec (present : Bool) (value : Option Nat) (pos : Nat) (rest : List Char) :
    ∃ (text : List Char) (digits : List Nat),
      Cursor.Takes ⟨pos, rest⟩ (Lexer.hexFrom present value pos rest).2.2 text ∧
      text.map (toDigit 16) = digits.map some ∧
      (Lexer.hexFrom present value pos rest).1 = (present || !text.isEmpty) ∧
      (Lexer.hexFrom present value pos rest).2.1 = digits.foldl shiftIn value := by
  induction rest generalizing present value pos with
  | nil => exact ⟨[], [], .refl _, rfl, by simp [Lexer.hexFrom], rfl⟩
  | cons c rest ih =>
    cases digit : toDigit 16 c with
    | none =>
      refine ⟨[], [], ?_, rfl, ?_, ?_⟩
      · simp only [Lexer.hexFrom, digit]
        exact .refl _
      · simp [Lexer.hexFrom, digit]
      · simp [Lexer.hexFrom, digit]
    | some d =>
      obtain ⟨text, digits, taken, each, flag, number⟩ := ih true (shiftIn value d) (pos + 1)
      have first : Cursor.Takes ⟨pos, c :: rest⟩ ⟨pos + 1, rest⟩ [c] :=
        ⟨rfl, by rw [size_cons, utf8Size_of_toDigit digit]; rfl⟩
      have step : Lexer.hexFrom present value pos (c :: rest) =
          Lexer.hexFrom true (shiftIn value d) (pos + 1) rest := by
        rw [Lexer.hexFrom, digit]
        rfl
      refine ⟨c :: text, d :: digits, ?_, ?_, ?_, ?_⟩
      · rw [step]
        exact first.trans taken
      · rw [List.map_cons, List.map_cons, digit, each]
      · rw [step, flag]
        simp
      · rw [step, number, List.foldl_cons]

/-- The body of a Unicode escape is read, and is one of the grammar if it is valid. -/
theorem unicodeEscapeBody_spec (l : Lexer) : ∃ front,
    Reads l l.unicodeEscapeBody.2 front [] ∧
      (l.unicodeEscapeBody.1 = true → ∃ value, EscapeDenotes ('u' :: front) value) := by
  cases opened : l.eat '{' with
  | none =>
    refine ⟨[], ?_, ?_⟩
    · rw [Lexer.unicodeEscapeBody, opened]
      exact .refl l
    · rw [Lexer.unicodeEscapeBody, opened]
      intro valid
      cases valid
  | some inside =>
    have first := Lexer.reads_eat opened
    obtain ⟨text, digits, taken, each, flag, number⟩ :=
      hexFrom_spec false (some 0) inside.pos inside.rest
    have middle : Reads inside { inside with toCursor :=
        (Lexer.hexFrom false (some 0) inside.pos inside.rest).2.2 } text [] :=
      ⟨taken, rfl, by simp⟩
    rw [Lexer.unicodeEscapeBody, opened]
    simp only
    cases closed : Lexer.eat { inside with toCursor :=
        (Lexer.hexFrom false (some 0) inside.pos inside.rest).2.2 } '}' with
    | none =>
      refine ⟨['{'] ++ text, first.trans middle, ?_⟩
      intro valid
      cases valid
    | some after =>
      refine ⟨['{'] ++ text ++ ['}'], (first.trans middle).trans (Lexer.reads_eat closed), ?_⟩
      intro valid
      simp only [flag, number, Bool.false_or, Bool.and_eq_true, Bool.not_eq_true',
        List.isEmpty_eq_false_iff] at valid
      obtain ⟨present, scalar⟩ := valid
      cases value : digits.foldl shiftIn (some 0) with
      | none =>
        rw [value] at scalar
        cases scalar
      | some n =>
        have same := foldl_shiftIn value
        rw [Nat.zero_mul, Nat.zero_add] at same
        rw [value, Option.bind_some, same] at scalar
        by_cases inRange : (Radix.value 16 digits).isValidChar
        · exact ⟨_, .unicode present each inRange⟩
        · rw [charFromU32, dif_neg inRange] at scalar
          cases scalar

/-- A simple escape is listed. -/
theorem listed_of_isSimpleEscape {c : Char} (simple : Lexer.isSimpleEscape c = true) :
    ∃ value, (c, value) ∈ simpleEscapes := by
  simp only [Lexer.isSimpleEscape, List.contains_eq_mem, List.mem_cons, List.not_mem_nil, or_false,
    decide_eq_true_eq] at simple
  rcases simple with rfl | rfl | rfl | rfl | rfl | rfl | rfl
  · exact ⟨'\n', by decide⟩
  · exact ⟨'\t', by decide⟩
  · exact ⟨'\r', by decide⟩
  · exact ⟨Char.ofNat 0, by decide⟩
  · exact ⟨'\\', by decide⟩
  · exact ⟨'"', by decide⟩
  · exact ⟨'\'', by decide⟩

/-- What an escape reports: nothing when it is one of the grammar, and otherwise an error from the
backslash on. -/
def EscapeReports (l : Lexer) (front : List Char) (reports : List Diagnostic) : Prop :=
  (reports = [] ∧ ∃ value, EscapeDenotes front value) ∨
    ∃ report, reports = [report] ∧ report.code = .invalidEscape ∧
      report.range = ⟨l.pos - 1, l.escape.pos⟩

/-- An escape is read. -/
theorem escape_spec (l : Lexer) : ∃ front reports,
    Reads l l.escape front reports ∧ EscapeReports l front reports := by
  cases here : l.peek with
  | none =>
    have same : l.escape = l.error .invalidEscape (l.rangeFrom (l.pos - 1))
        "unterminated escape sequence" := by
      rw [Lexer.escape, here]
    refine ⟨[], _, by rw [same]; exact (Reads.refl l).error _ _ _, .inr ⟨_, rfl, rfl, ?_⟩⟩
    rw [same]
    rfl
  | some c =>
    have first := Reads.bump here
    by_cases simple : Lexer.isSimpleEscape c = true
    · have same : l.escape = l.bump := by rw [Lexer.escape, here]; exact if_pos simple
      obtain ⟨value, listed⟩ := listed_of_isSimpleEscape simple
      exact ⟨[c], [], by rw [same]; exact first, .inl ⟨rfl, value, .simple listed⟩⟩
    by_cases unicode : c = 'u'
    · subst unicode
      obtain ⟨front, body, valid⟩ := unicodeEscapeBody_spec l.bump
      by_cases good : l.bump.unicodeEscapeBody.1 = true
      · have same : l.escape = l.bump.unicodeEscapeBody.2 := by
          rw [Lexer.escape, here]
          simp only [if_neg simple, if_pos, good]
        refine ⟨['u'] ++ front, [], ?_, .inl ⟨rfl, valid good⟩⟩
        rw [same]
        exact first.trans body
      · have same : l.escape = l.bump.unicodeEscapeBody.2.error .invalidEscape
            (l.bump.unicodeEscapeBody.2.rangeFrom (l.pos - 1))
            ("invalid unicode escape; expected `\\u\x7b...\x7d` " ++
              "containing a Unicode scalar value") := by
          rw [Lexer.escape, here]
          simp only [if_neg simple, if_pos, if_neg good]
          rfl
        refine ⟨['u'] ++ front, _, by rw [same]; exact (first.trans body).error _ _ _,
          .inr ⟨_, rfl, rfl, ?_⟩⟩
        rw [same]
        rfl
    · have same : l.escape = l.bump.error .invalidEscape (l.bump.rangeFrom (l.pos - 1))
          "unknown escape sequence" := by
        rw [Lexer.escape, here]
        simp only [if_neg simple, if_neg unicode]
      refine ⟨[c], _, by rw [same]; exact first.error _ _ _, .inr ⟨_, rfl, rfl, ?_⟩⟩
      rw [same]
      rfl

/-! ### Lexemes -/

/-- What a lexeme is. -/
inductive Found where
  | token (kind : TokenKind)
  | comment (kind : CommentKind)
  | stray
  deriving DecidableEq

namespace Found

/-- The token that a lexeme is, if it is one. -/
def tokens (range : TextRange) : Found → List Token
  | token kind => [⟨kind, range⟩]
  | _ => []

/-- The comment that a lexeme is, if it is one. -/
def comments (range : TextRange) : Found → List Comment
  | comment kind => [⟨kind, range⟩]
  | _ => []

/-- The range of text that is no token and no comment. -/
def strays (range : TextRange) : Found → List TextRange
  | stray => [range]
  | _ => []

end Found

/-- Whether a diagnostic is about text that is no token and no comment. -/
def Diagnostic.Lone (d : Diagnostic) : Bool :=
  d.code = .unexpectedChar || d.code = .invalidCharLiteral

/-- Whether a text is a literal of a kind of tokens. The other kinds have no literals. -/
def Literal (kind : TokenKind) (text : List Char) : Prop :=
  (kind = .int → ∃ value, IntDenotes text value) ∧
    (kind = .float → ∃ q, FloatDenotes text q) ∧
    (kind = .char → ∃ value, CharDenotes text value) ∧
    (kind = .string → ∃ bytes, StringDenotes text bytes)

/-- Whether a kind of tokens is one of literals. -/
def TokenKind.IsLiteral (kind : TokenKind) : Bool :=
  [TokenKind.int, .float, .char, .string].contains kind

/-- Whether a kind of tokens is one that the layout inserts. -/
def TokenKind.IsVirtual (kind : TokenKind) : Bool :=
  [TokenKind.layoutOpen, .layoutSep, .layoutClose].contains kind

/-- A kind that is none of literals has no literals. -/
theorem literal_of_not {kind : TokenKind} (other : kind.IsLiteral = false) (text : List Char) :
    Literal kind text := by
  refine ⟨?_, ?_, ?_, ?_⟩
  all_goals
    rintro rfl
    cases other

/-- A lexer is at the place in its text that it says. -/
def Placed (l : Lexer) : Prop := ∃ behind, l.text = behind ++ l.rest ∧ l.pos = size behind

/-- A lexeme of a text at a range with the diagnostics about it. The lexer reads the text of a
number at its range, so the literals are those of the grammar when it is placed. -/
structure Sound (placed : Prop) (found : Found) (text : List Char) (range : TextRange)
    (reports : List Diagnostic) : Prop where
  some_char : text ≠ []
  within : ∀ d ∈ reports, d.range.Within range
  lone : (reports.filter Diagnostic.Lone).map Diagnostic.range = found.strays range
  real : ∀ kind, found = .token kind → kind.IsVirtual = false ∧ kind ≠ .eof
  literal : placed → ∀ kind, found = .token kind → reports = [] → Literal kind text

/-- A lexer further on has read a lexeme. -/
def Hands (l further : Lexer) : Prop :=
  ∃ (found : Found) (text : List Char) (reports : List Diagnostic),
    Cursor.Takes l.toCursor further.toCursor text ∧ further.text = l.text ∧
      further.out = ⟨l.out.tokens ++ found.tokens ⟨l.pos, further.pos⟩,
        l.out.comments ++ found.comments ⟨l.pos, further.pos⟩, l.out.diagnostics ++ reports⟩ ∧
      Sound (Placed l) found text ⟨l.pos, further.pos⟩ reports

namespace Reads

variable {l further : Lexer} {front : List Char} {reports : List Diagnostic}

/-- The text that is read is at its range. -/
theorem range_text (read : Reads l further front reports) (placed : Placed l) :
    TextRange.text ⟨l.pos, further.pos⟩ further.text = front := by
  obtain ⟨behind, whole, offset⟩ := placed
  rw [TextRange.text, read.text, read.takes.pos, whole, read.takes.rest, offset,
    ← List.append_assoc, slice_part]

/-- A token is handed out. -/
theorem push (read : Reads l further front reports) (kind : TokenKind)
    (sound : Sound (Placed l) (.token kind) front ⟨l.pos, further.pos⟩ reports) :
    Hands l (further.push kind (further.rangeFrom l.pos)) := by
  refine ⟨.token kind, front, reports, read.takes, read.text, ?_, sound⟩
  simp [Lexer.push, read.out, Found.tokens, Found.comments, Lexer.rangeFrom]

/-- A comment is handed out. -/
theorem comment (read : Reads l further front reports) (kind : CommentKind)
    (sound : Sound (Placed l) (.comment kind) front ⟨l.pos, further.pos⟩ reports) :
    Hands l (further.comment kind (further.rangeFrom l.pos)) := by
  refine ⟨.comment kind, front, reports, read.takes, read.text, ?_, sound⟩
  simp [Lexer.comment, read.out, Found.tokens, Found.comments, Lexer.rangeFrom]

/-- Text that is no token and no comment is reported. -/
theorem stray (read : Reads l further front reports) (some_char : front ≠ [])
    (inside : ∀ d ∈ reports, d.Lone = false ∧ d.range.Within ⟨l.pos, further.pos⟩)
    {code : DiagnosticCode} (lone : code = .unexpectedChar ∨ code = .invalidCharLiteral)
    (message : String) : Hands l (further.error code (further.rangeFrom l.pos) message) := by
  have reported := read.error code (further.rangeFrom l.pos) message
  refine ⟨.stray, front, reports ++ [⟨code, message, further.source, further.rangeFrom l.pos⟩],
    reported.takes, reported.text, ?_, some_char, ?_, ?_, ?_, ?_⟩
  · rw [reported.out]
    simp [Found.tokens, Found.comments]
  · intro d member
    rcases List.mem_append.mp member with before | last
    · exact (inside d before).2
    · rw [List.mem_singleton.mp last]
      exact ⟨Nat.le_refl _, read.le, Nat.le_refl _⟩
  · have others : reports.filter Diagnostic.Lone = [] :=
      List.filter_eq_nil_iff.mpr fun d member => by simp [(inside d member).1]
    have last :
        Diagnostic.Lone ⟨code, message, further.source, further.rangeFrom l.pos⟩ = true := by
      rcases lone with rfl | rfl <;> rfl
    rw [List.filter_append, others, List.filter_cons_of_pos last]
    rfl
  · exact fun kind same => nomatch same
  · exact fun _ kind same => nomatch same

end Reads

section Sound

variable {placed : Prop} {text : List Char} {range : TextRange}

/-- A token with no diagnostics about it. -/
theorem Sound.clean {kind : TokenKind} (some_char : text ≠ [])
    (real : kind.IsVirtual = false ∧ kind ≠ .eof) (literal : placed → Literal kind text) :
    Sound placed (.token kind) text range [] :=
  ⟨some_char, fun d member => (nomatch member), rfl, fun kind same => by cases same; exact real,
    fun here kind same _ => by cases same; exact literal here⟩

/-- A token that is no literal, with no diagnostics about it. -/
theorem Sound.plain {kind : TokenKind} (some_char : text ≠ [])
    (real : kind.IsVirtual = false ∧ kind ≠ .eof) (other : kind.IsLiteral = false) :
    Sound placed (.token kind) text range [] :=
  .clean some_char real fun _ => literal_of_not other text

/-- A token or a comment with diagnostics inside it. -/
theorem Sound.reported {found : Found} {reports : List Diagnostic} (some_char : text ≠ [])
    (read : found ≠ .stray) (inside : ∀ d ∈ reports, d.Lone = false ∧ d.range.Within range)
    (real : ∀ kind, found = .token kind → kind.IsVirtual = false ∧ kind ≠ .eof)
    (literal : ∀ kind, found = .token kind → reports = [] → Literal kind text) :
    Sound placed found text range reports := by
  refine ⟨some_char, fun d member => (inside d member).2, ?_, real, fun _ => literal⟩
  have others : reports.filter Diagnostic.Lone = [] :=
    List.filter_eq_nil_iff.mpr fun d member => by simp [(inside d member).1]
  rw [others]
  cases found with
  | stray => exact absurd rfl read
  | token kind => rfl
  | comment kind => rfl

end Sound

end Fai.Syntax
