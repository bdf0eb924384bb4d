import FaiVerif.Syntax.Literal

/-!
# The lexer

The lexer walks over a text by characters (`fai-syntax/src/lexer.rs`). Where the source adds one
or two bytes to its position it has seen as many characters of ASCII there, and takes these.
-/

namespace Fai.Syntax

open Scan

/-- A lexer: a place in a text, and what it has read so far. -/
structure Lexer extends Cursor where
  source : SourceId
  text : List Char
  out : Lexed

/-- Whether a character starts an identifier. -/
def isIdentStart (c : Char) : Bool := c.isAlpha || c == '_'

/-- Whether a character continues an identifier. -/
def isIdentContinue (c : Char) : Bool := c.isAlphanum || c == '_'

/-- Whether a character is one of operators. -/
def isOperatorChar (c : Char) : Bool :=
  ['!', '$', '%', '&', '*', '+', '-', '/', ':', '<', '=', '>', '?', '@', '^', '|', '~'].contains c

/-- Whether a character is white space. -/
def isBlank (c : Char) : Bool := [' ', '\t', '\n', '\r'].contains c

/-- Whether a character is one of decimal digits and separators. -/
def isDigitOrSeparator (c : Char) : Bool := c.isDigit || c == '_'

namespace Lexer

/-- Whether a text is next. -/
def startsWith (l : Lexer) (front : List Char) : Bool := front.isPrefixOf l.rest

/-- A character further on. -/
def nth (l : Lexer) (n : Nat) : Option Char := l.rest[n]?

/-- The next character. -/
def peek (l : Lexer) : Option Char := l.rest.head?

/-- Takes the next character. -/
def bump (l : Lexer) : Lexer := { l with toCursor := l.next }

/-- Takes the characters that pass a test. -/
def bumpWhile (test : Char → Bool) (l : Lexer) : Lexer :=
  { l with toCursor := l.skipWhile test }

/-- Takes a character, if it is next. -/
def eat (l : Lexer) (c : Char) : Option Lexer := if l.peek = some c then some l.bump else none

/-- The range from an offset on. -/
def rangeFrom (l : Lexer) (start : Nat) : TextRange := ⟨start, l.pos⟩

/-- Takes white space. -/
def skipWhitespace (l : Lexer) : Lexer := l.bumpWhile isBlank

/-- Hands out a token. -/
def push (l : Lexer) (kind : TokenKind) (range : TextRange) : Lexer :=
  { l with out := { l.out with tokens := l.out.tokens ++ [⟨kind, range⟩] } }

/-- Hands out a comment. -/
def comment (l : Lexer) (kind : CommentKind) (range : TextRange) : Lexer :=
  { l with out := { l.out with comments := l.out.comments ++ [⟨kind, range⟩] } }

/-- Reports an error. -/
def error (l : Lexer) (code : DiagnosticCode) (range : TextRange) (message : String) : Lexer :=
  { l with out := { l.out with
    diagnostics := l.out.diagnostics ++ [⟨code, message, l.source, range⟩] } }

/-- Taking a character leaves no more. -/
theorem length_bump_le (l : Lexer) : l.bump.rest.length ≤ l.rest.length := by
  cases left : l.rest with
  | nil => rw [bump, Cursor.next, left]; exact Nat.le_of_eq (congrArg _ left)
  | cons c rest =>
    have after := (Cursor.takes_next left).2
    rw [bump, after]
    exact Nat.le_succ _

/-- Taking a character that is there leaves one less. -/
theorem length_bump_lt {l : Lexer} {c : Char} (here : l.peek = some c) :
    l.bump.rest.length < l.rest.length := by
  cases left : l.rest with
  | nil => simp [peek, left] at here
  | cons d rest =>
    have after := (Cursor.takes_next left).2
    rw [bump, after]
    exact Nat.lt_succ_self _

/-! ### Comments -/

/-- Reads a comment up to the end of its line. -/
def lineComment (l : Lexer) (start : Nat) : Lexer :=
  let doc := l.startsWith ['/', '/', '/'] && !l.startsWith ['/', '/', '/', '/']
  let l := l.bumpWhile fun c => c != '\n' && c != '\r'
  l.comment (if doc then .doc else .line) (l.rangeFrom start)

/-- Reads a comment of a nesting depth to its end. -/
def blockLoop (start depth : Nat) (l : Lexer) : Lexer :=
  if depth = 0 then l
  else
    match _here : l.peek with
    | none =>
      l.error .unterminatedBlockComment (l.rangeFrom start) "unterminated block comment"
    | some _ =>
      if l.startsWith ['(', '*'] then blockLoop start (depth + 1) l.bump.bump
      else if l.startsWith ['*', ')'] then blockLoop start (depth - 1) l.bump.bump
      else blockLoop start depth l.bump
termination_by l.rest.length
decreasing_by
  · exact Nat.lt_of_le_of_lt (length_bump_le _) (length_bump_lt _here)
  · exact Nat.lt_of_le_of_lt (length_bump_le _) (length_bump_lt _here)
  · exact length_bump_lt _here

/-- Reads a comment in parentheses and stars. -/
def blockComment (l : Lexer) (start : Nat) : Lexer :=
  let l := blockLoop start 1 l.bump.bump
  l.comment .block (l.rangeFrom start)

/-! ### Strings and escapes -/

/-- Takes hexadecimal digits, and says whether there are any and their number, within thirty-two
bits. -/
def hexFrom (present : Bool) (value : Option Nat) (pos : Nat) :
    List Char → Bool × Option Nat × Cursor
  | [] => (present, value, ⟨pos, []⟩)
  | c :: rest =>
    match toDigit 16 c with
    | some digit =>
      hexFrom true
        (value.bind fun n => (checkedMul 32 n 16).bind fun product => checkedAdd 32 product digit)
        (pos + 1) rest
    | none => (present, value, ⟨pos, c :: rest⟩)

/-- Takes the braces of a Unicode escape and the digits in them, and says whether they are one of
a Unicode scalar value. -/
def unicodeEscapeBody (l : Lexer) : Bool × Lexer :=
  match l.eat '{' with
  | none => (false, l)
  | some l =>
    let (present, value, place) := hexFrom false (some 0) l.pos l.rest
    let l := { l with toCursor := place }
    match l.eat '}' with
    | none => (false, l)
    | some l => (present && (value.bind charFromU32).isSome, l)

/-- Whether an escape is the character after the backslash. -/
def isSimpleEscape (c : Char) : Bool := ['n', 't', 'r', '0', '\\', '"', '\''].contains c

/-- Takes an escape. The backslash is taken. -/
def escape (l : Lexer) : Lexer :=
  let backslash := l.pos - 1
  match l.peek with
  | some c =>
    if isSimpleEscape c then l.bump
    else if c = 'u' then
      let (valid, l) := l.bump.unicodeEscapeBody
      if valid then l
      else
        l.error .invalidEscape (l.rangeFrom backslash)
          "invalid unicode escape; expected `\\u\x7b...\x7d` containing a Unicode scalar value"
    else
      let l := l.bump
      l.error .invalidEscape (l.rangeFrom backslash) "unknown escape sequence"
  | none => l.error .invalidEscape (l.rangeFrom backslash) "unterminated escape sequence"

/-- Taking a character that may be next leaves no more. -/
theorem length_eat {l taken : Lexer} {c : Char} (eaten : l.eat c = some taken) :
    taken.rest.length ≤ l.rest.length := by
  rw [eat] at eaten
  split_ifs at eaten
  cases eaten
  exact length_bump_le l

/-- Taking digits leaves no more. -/
theorem length_hexFrom (present : Bool) (value : Option Nat) (pos : Nat) (rest : List Char) :
    (hexFrom present value pos rest).2.2.rest.length ≤ rest.length := by
  induction rest generalizing present value pos with
  | nil => exact Nat.le_refl _
  | cons c rest ih =>
    rw [hexFrom]
    split
    · exact Nat.le_succ_of_le (ih ..)
    · exact Nat.le_refl _

/-- Taking the body of a Unicode escape leaves no more. -/
theorem length_unicodeEscapeBody (l : Lexer) :
    l.unicodeEscapeBody.2.rest.length ≤ l.rest.length := by
  rw [unicodeEscapeBody]
  split
  · exact Nat.le_refl _
  · next opened eaten =>
    have fewer := length_hexFrom false (some 0) opened.pos opened.rest
    have first := length_eat eaten
    simp only
    split
    · exact fewer.trans first
    · next closed last => exact ((length_eat last).trans fewer).trans first

/-- Taking an escape leaves no more. -/
theorem length_escape (l : Lexer) : l.escape.rest.length ≤ l.rest.length := by
  rw [escape]
  split
  · next c _ =>
    simp only
    split_ifs
    · exact length_bump_le l
    · exact (length_unicodeEscapeBody _).trans (length_bump_le l)
    · exact (length_unicodeEscapeBody _).trans (length_bump_le l)
    · exact length_bump_le l
  · exact Nat.le_refl _

/-- Reads a string to its end. -/
def stringLoop (start : Nat) (l : Lexer) : Lexer :=
  match _here : l.peek with
  | none => l.error .unterminatedString (l.rangeFrom start) "unterminated string literal"
  | some c =>
    if c = '\n' then
      l.error .unterminatedString (l.rangeFrom start) "unterminated string literal"
    else if c = '"' then l.bump
    else if c = '\\' then stringLoop start l.bump.escape
    else stringLoop start l.bump
termination_by l.rest.length
decreasing_by
  · exact Nat.lt_of_le_of_lt (length_escape _) (length_bump_lt _here)
  · exact length_bump_lt _here

/-- Reads a string. -/
def string (l : Lexer) (start : Nat) : Lexer :=
  let l := stringLoop start l.bump
  l.push .string (l.rangeFrom start)

/-! ### Characters and type variables -/

/-- Takes what is between the quotes of a character. -/
def charBody (l : Lexer) : Lexer :=
  match l.peek with
  | some c => if c = '\\' then l.bump.escape else if c ≠ '\'' ∧ c ≠ '\n' then l.bump else l
  | none => l

/-- Reads a character in quotes. -/
def charLiteral (l : Lexer) (start : Nat) : Lexer :=
  let l := l.bump.charBody
  match l.eat '\'' with
  | some l => l.push .char (l.rangeFrom start)
  | none =>
    l.error .invalidCharLiteral (l.rangeFrom start)
      "unterminated character literal; expected closing `'`"

/-- Reads a type variable. -/
def typeVar (l : Lexer) (start : Nat) : Lexer :=
  let l := l.bump
  if l.peek.any isIdentStart then
    let l := l.bumpWhile isIdentContinue
    l.push .typeVar (l.rangeFrom start)
  else
    l.error .invalidCharLiteral (l.rangeFrom start)
      "expected a type-variable name or a character literal after `'`"

/-- Reads what a quote starts. -/
def quote (l : Lexer) (start : Nat) : Lexer :=
  match l.nth 1, l.nth 2 with
  | some c, after =>
    if c = '\\' then l.charLiteral start
    else if c = '\'' then
      let l := l.bump.bump
      l.error .invalidCharLiteral (l.rangeFrom start) "empty character literal"
    else if after = some '\'' ∧ c ≠ '\n' then l.charLiteral start
    else l.typeVar start
  | none, _ => l.typeVar start

/-! ### Numbers -/

/-- Whether a character is one of digits in a base, or a separator. -/
def isBaseDigit (base c : Char) : Bool :=
  if base = 'x' then (toDigit 16 c).isSome || c == '_'
  else if base = 'o' then ('0' ≤ c && c ≤ '7') || c == '_'
  else c == '0' || c == '1' || c == '_'

/-- Takes the digits of a number in a base, and says whether there are any. -/
def baseNumber (l : Lexer) : Bool × Lexer :=
  let l := l.bump
  let base := (l.peek.getD 'x').toLower
  let l := l.bump
  let present := (l.rest.takeWhile (isBaseDigit base)).any (· != '_')
  (present, l.bumpWhile (isBaseDigit base))

/-- Takes a fraction, if one is next, and says whether it was. -/
def fraction (l : Lexer) : Bool × Lexer :=
  if l.peek = some '.' ∧ (l.nth 1).any Char.isDigit then
    (true, l.bump.bumpWhile isDigitOrSeparator)
  else (false, l)

/-- Takes a sign, if one is next. -/
def eatSign (l : Lexer) : Lexer :=
  if l.peek = some '+' ∨ l.peek = some '-' then l.bump else l

/-- Takes an exponent, if one is next, and says whether it was. -/
def exponent (l : Lexer) : Bool × Lexer :=
  if l.peek = some 'e' ∨ l.peek = some 'E' then
    let ahead := l.bump.eatSign
    if ahead.peek.any Char.isDigit then (true, ahead.bumpWhile isDigitOrSeparator)
    else (false, l)
  else (false, l)

/-- Takes the digits of a decimal number, and says whether it is one with a point. -/
def decimalNumber (l : Lexer) : Bool × Lexer :=
  let l := l.bumpWhile isDigitOrSeparator
  let (point, l) := l.fraction
  let (power, l) := l.exponent
  (point || power, l)

/-- Whether a number in a base is next. -/
def hasBase (l : Lexer) : Bool :=
  l.peek == some '0' && (l.nth 1).any fun c => ['x', 'X', 'o', 'O', 'b', 'B'].contains c

/-- Takes a number, and says whether it is one with a point and whether it has digits. -/
def numberBody (l : Lexer) : Bool × Bool × Lexer :=
  if l.hasBase then (false, l.baseNumber) else (l.decimalNumber.1, true, l.decimalNumber.2)

/-- Reads a number. Characters of identifiers after it are a wrong suffix. -/
def number (l : Lexer) (start : Nat) : Lexer :=
  let (isFloat, ok, l) := l.numberBody
  let suffix := l.peek.any isIdentContinue
  let l := if suffix then l.bumpWhile isIdentContinue else l
  let range := l.rangeFrom start
  let l :=
    if !ok || suffix then l.error .invalidNumber range "invalid numeric literal"
    else if !isFloat && (decodeIntLiteral (range.text l.text)).isNone then
      l.error .invalidNumber range "integer literal magnitude exceeds 64 bits"
    else l
  l.push (if isFloat then .float else .int) range

/-! ### Identifiers, operators and punctuation -/

/-- The token of a word. -/
def wordKind (text : List Char) : TokenKind :=
  if text = ['_'] then .underscore
  else
    match TokenKind.keyword text with
    | some keyword => keyword
    | none => if text.head?.any Char.isUpper then .upperIdent else .lowerIdent

/-- Reads an identifier or a keyword. -/
def ident (l : Lexer) (start : Nat) : Lexer :=
  let l := l.bumpWhile isIdentContinue
  let range := l.rangeFrom start
  l.push (wordKind (range.text l.text)) range

/-- The tokens of single characters of grouping or punctuation. -/
def punctuations : List (Char × TokenKind) :=
  [('(', .lParen), (')', .rParen), ('[', .lBracket), (']', .rBracket), ('{', .lBrace),
    ('}', .rBrace), (',', .comma), ('.', .dot)]

/-- The token of a single character of grouping or punctuation, if it is one. -/
def punctuation (c : Char) : Option TokenKind :=
  (punctuations.find? fun entry => entry.1 = c).map Prod.snd

/-- The token of a run of operator characters. -/
def operatorKind (lexeme : List Char) : TokenKind :=
  if lexeme = ['='] then .equals
  else if lexeme = ['|'] then .pipe
  else if lexeme = [':'] then .colon
  else if lexeme = [':', ':'] then .colonColon
  else if lexeme = ['-', '>'] then .arrow
  else .operator

/-- Reads an operator or punctuation, or reports a character that is neither. -/
def operatorOrUnknown (l : Lexer) (start : Nat) : Lexer :=
  match l.peek with
  | none => l
  | some c =>
    let l := l.bump
    if c = '[' ∧ l.peek = some '|' then
      let l := l.bump
      l.push .lArrayBracket (l.rangeFrom start)
    else if c = '|' ∧ l.peek = some ']' then
      let l := l.bump
      l.push .rArrayBracket (l.rangeFrom start)
    else
      match punctuation c with
      | some kind => l.push kind (l.rangeFrom start)
      | none =>
        if isOperatorChar c then
          let l := l.bumpWhile isOperatorChar
          let range := l.rangeFrom start
          l.push (operatorKind (range.text l.text)) range
        else
          l.error .unexpectedChar (l.rangeFrom start)
            ("unexpected character `" ++ String.singleton c ++ "`")

/-- Reads what a character starts. -/
def lexeme (l : Lexer) (c : Char) : Lexer :=
  let start := l.pos
  if c = '/' ∧ l.startsWith ['/', '/'] then l.lineComment start
  else if c = '(' ∧ l.startsWith ['(', '*'] then l.blockComment start
  else if c = '"' then l.string start
  else if c = '\'' then l.quote start
  else if c.isDigit then l.number start
  else if isIdentStart c then l.ident start
  else l.operatorOrUnknown start

end Lexer

end Fai.Syntax
