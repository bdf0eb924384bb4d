import FaiVerif.Lib.Scan

/-!
# Tokens and comments

The lexer reads a text into tokens and comments (`fai-syntax/src/token.rs`), each with its range of
bytes, and reports diagnostics on ranges of it.
-/

namespace Fai.Syntax

/-- A range of the bytes of a file. -/
structure TextRange where
  start : Nat
  finish : Nat
  deriving DecidableEq, Repr

namespace TextRange

/-- The empty range at an offset. -/
def empty (offset : Nat) : TextRange := ⟨offset, offset⟩

/-- One range inside another. -/
def Within (inner outer : TextRange) : Prop :=
  outer.start ≤ inner.start ∧ inner.start ≤ inner.finish ∧ inner.finish ≤ outer.finish

instance (inner outer : TextRange) : Decidable (Within inner outer) :=
  inferInstanceAs (Decidable (_ ∧ _ ∧ _))

/-- The text of a range. -/
def text (range : TextRange) (source : List Char) : List Char :=
  Scan.slice range.start range.finish source

end TextRange

/-- The kind of a token. -/
inductive TokenKind where
  | lowerIdent | upperIdent | typeVar | underscore
  | int | float | string | char
  | module_ | let_ | type_ | interface_ | match_ | with_ | if_ | then_ | else_ | fun_ | public_
  | internal_ | opaque_ | example_ | forall_ | as_ | foreign_ | import_
  | lParen | rParen | lBracket | rBracket | lArrayBracket | rArrayBracket | lBrace | rBrace
  | comma | dot | colon | arrow | equals | pipe | colonColon
  | operator
  | layoutOpen | layoutSep | layoutClose
  | eof
  deriving DecidableEq, Repr

namespace TokenKind

/-- The keywords. -/
def keywords : List (List Char × TokenKind) :=
  [(['m', 'o', 'd', 'u', 'l', 'e'], .module_),
    (['l', 'e', 't'], .let_),
    (['t', 'y', 'p', 'e'], .type_),
    (['i', 'n', 't', 'e', 'r', 'f', 'a', 'c', 'e'], .interface_),
    (['m', 'a', 't', 'c', 'h'], .match_),
    (['w', 'i', 't', 'h'], .with_),
    (['i', 'f'], .if_),
    (['t', 'h', 'e', 'n'], .then_),
    (['e', 'l', 's', 'e'], .else_),
    (['f', 'u', 'n'], .fun_),
    (['p', 'u', 'b', 'l', 'i', 'c'], .public_),
    (['i', 'n', 't', 'e', 'r', 'n', 'a', 'l'], .internal_),
    (['o', 'p', 'a', 'q', 'u', 'e'], .opaque_),
    (['e', 'x', 'a', 'm', 'p', 'l', 'e'], .example_),
    (['f', 'o', 'r', 'a', 'l', 'l'], .forall_),
    (['a', 's'], .as_),
    (['f', 'o', 'r', 'e', 'i', 'g', 'n'], .foreign_),
    (['i', 'm', 'p', 'o', 'r', 't'], .import_)]

/-- The keyword that a word is, if it is one. -/
def keyword (text : List Char) : Option TokenKind :=
  (keywords.find? fun entry => entry.1 = text).map Prod.snd

end TokenKind

/-- A token: its kind and its range. -/
structure Token where
  kind : TokenKind
  range : TextRange
  deriving DecidableEq, Repr

/-- The kind of a comment. -/
inductive CommentKind where
  | line | block | doc
  deriving DecidableEq, Repr

/-- A comment: its kind and its range. -/
structure Comment where
  kind : CommentKind
  range : TextRange
  deriving DecidableEq, Repr

/-- The codes of the diagnostics of lexing and layout. -/
inductive DiagnosticCode where
  /-- `FAI1001` -/
  | unexpectedChar
  /-- `FAI1002` -/
  | unterminatedString
  /-- `FAI1003` -/
  | unterminatedBlockComment
  /-- `FAI1004` -/
  | invalidCharLiteral
  /-- `FAI1005` -/
  | invalidNumber
  /-- `FAI1006` -/
  | invalidEscape
  /-- `FAI1021` -/
  | layoutError
  deriving DecidableEq, Repr

/-- A file of a program. -/
abbrev SourceId := Nat

/-- A diagnostic: its code, its message, and where it points at. -/
structure Diagnostic where
  code : DiagnosticCode
  message : String
  source : SourceId
  range : TextRange
  deriving DecidableEq, Repr

/-- What the lexer reads from a file. -/
structure Lexed where
  tokens : List Token
  comments : List Comment
  diagnostics : List Diagnostic
  deriving DecidableEq

end Fai.Syntax
