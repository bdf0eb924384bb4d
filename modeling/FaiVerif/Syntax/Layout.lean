import FaiVerif.Syntax.Lexer

/-!
# Layout

The layout inserts tokens that make the blocks of indented lines explicit
(`fai-syntax/src/layout.rs`).
-/

namespace Fai.Syntax

open Scan

/-- A place in a text as a line and a column. The column is that of an offset before the place, and
is counted on from there when it is asked for. -/
structure PositionCursor where
  offset : Nat
  line : Nat
  column : Nat
  columnOffset : Nat
  deriving DecidableEq

namespace PositionCursor

/-- The start of a text. -/
def new : PositionCursor := ⟨0, 1, 1, 0⟩

/-- Counts the lines of a text at an offset. -/
def walk : Nat → List Char → PositionCursor → PositionCursor
  | _, [], p => p
  | offset, c :: text, p =>
    walk (offset + c.utf8Size) text
      (if c = '\n' then { p with line := p.line + 1, column := 1, columnOffset := offset + 1 }
      else p)

/-- Moves on to an offset. -/
def advance (text : List Char) (next : Nat) (p : PositionCursor) : PositionCursor :=
  { walk p.offset (slice p.offset next text) p with offset := next }

/-- Counts the column on. -/
def count (text : List Char) (p : PositionCursor) : PositionCursor :=
  { p with
    column := p.column + (slice p.columnOffset p.offset text).length
    columnOffset := p.offset }

end PositionCursor

/-- What the layout hands out. -/
structure Layout where
  tokens : List Token
  diagnostics : List Diagnostic

/-- The state of the layout. The reference columns of the open blocks are the innermost first; the
last is that of the top level. -/
structure Layouter where
  source : SourceId
  text : List Char
  position : PositionCursor
  out : List Token
  diagnostics : List Diagnostic
  contexts : List Nat
  bracketDepth : Nat
  pendingOpen : Bool
  prevLine : Nat
  first : Bool

/-- Tokens that open a block when an indented line follows. -/
def isOpener (kind : TokenKind) : Bool :=
  [TokenKind.equals, .arrow, .then_, .else_].contains kind

/-- Tokens that continue an item at its column. -/
def isContinuation (kind : TokenKind) : Bool :=
  [TokenKind.operator, .colonColon, .equals, .arrow, .then_, .else_, .pipe].contains kind

/-- Whether a token at a column starts a new item of the block with a reference column. A token
left of the top level does too. -/
def NewItem (column : Nat) (kind : TokenKind) (reference : Nat) : Prop :=
  column < reference ∨ (column = reference ∧ isContinuation kind = false)

instance (column : Nat) (kind : TokenKind) (reference : Nat) :
    Decidable (NewItem column kind reference) := inferInstanceAs (Decidable (_ ∨ _ ∧ _))

/-- Tokens that open brackets. -/
def opensBracket (kind : TokenKind) : Bool :=
  [TokenKind.lParen, .lBracket, .lArrayBracket, .lBrace].contains kind

/-- Tokens that close brackets. -/
def closesBracket (kind : TokenKind) : Bool :=
  [TokenKind.rParen, .rBracket, .rArrayBracket, .rBrace].contains kind

/-- The depth of brackets after a token. A bracket that closes none is passed over. -/
def bracketsAfter (depth : Nat) (kind : TokenKind) : Nat :=
  if opensBracket kind then depth + 1 else if closesBracket kind then depth - 1 else depth

namespace Layouter

/-- Hands out a token of the layout. -/
def pushVirtual (kind : TokenKind) (offset : Nat) (l : Layouter) : Layouter :=
  { l with out := l.out ++ [⟨kind, .empty offset⟩] }

/-- Closes the blocks that a test of their columns names, but not the top level. -/
def closeWhile (test : Nat → Bool) (offset : Nat) (l : Layouter) : List Nat → Layouter
  | column :: next :: more =>
    if test column then
      closeWhile test offset
        { l.pushVirtual .layoutClose offset with contexts := next :: more } (next :: more)
    else l
  | _ => l

/-- The reference column of the innermost block. -/
def reference (l : Layouter) : Nat := l.contexts.headD 0

/-- Handles a token that starts a line. -/
def lineTransition (column : Nat) (kind : TokenKind) (offset : Nat) (l : Layouter) : Layouter :=
  let l := l.closeWhile (column < ·) offset l.contexts
  if NewItem column kind l.reference then l.pushVirtual .layoutSep offset
  else l

/-- Reports an error. -/
def error (range : TextRange) (message : String) (l : Layouter) : Layouter :=
  { l with diagnostics := l.diagnostics ++ [⟨.layoutError, message, l.source, range⟩] }

/-- Handles a token that starts a line after one that opens a block. -/
def openBlock (column : Nat) (token : Token) (offset : Nat) (l : Layouter) : Layouter :=
  if l.reference < column then
    let l := l.pushVirtual .layoutOpen offset
    { l with contexts := column :: l.contexts }
  else
    (l.error token.range "expected the block body to be indented further").lineTransition column
      token.kind offset

/-- Inserts the tokens of the layout before a token. -/
def before (token : Token) (l : Layouter) : Layouter :=
  let offset := token.range.start
  if l.first then
    let l := { l with position := l.position.count l.text }
    { l with contexts := l.position.column :: l.contexts, first := false }
  else if l.bracketDepth = 0 ∧ l.prevLine < l.position.line then
    let l := { l with position := l.position.count l.text }
    if l.pendingOpen then l.openBlock l.position.column token offset
    else l.lineTransition l.position.column token.kind offset
  else l

/-- Handles a token. -/
def step (token : Token) (l : Layouter) : Layouter :=
  let l := { l with position := l.position.advance l.text token.range.start }
  let line := l.position.line
  let l := l.before token
  let depth := bracketsAfter l.bracketDepth token.kind
  { l with
    bracketDepth := depth
    pendingOpen := depth = 0 && isOpener token.kind
    out := l.out ++ [token]
    prevLine := line }

/-- Handles tokens up to the end of the file, where every block is closed. -/
def run (l : Layouter) : List Token → Layouter
  | [] => l
  | token :: tokens =>
    if token.kind = .eof then
      let l := l.closeWhile (fun _ => true) token.range.start l.contexts
      { l with out := l.out ++ [token] }
    else (l.step token).run tokens

end Layouter

/-- Inserts the tokens of the layout into those of a text. -/
def layout (source : SourceId) (text : List Char) (tokens : List Token) : Layout :=
  let l := Layouter.run ⟨source, text, .new, [], [], [], 0, false, 0, true⟩ tokens
  ⟨l.out, l.diagnostics⟩

end Fai.Syntax
