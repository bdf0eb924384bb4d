import FaiVerif.Syntax.LexemeKinds
import Mathlib.Data.List.Perm.Basic

/-!
# Lexing

A text is read lexeme after lexeme, with white space between them. The literals among the tokens
are those of the grammar or have diagnostics about them, and the lexemes cover the text.
-/

namespace Fai.Syntax

open Scan

namespace Lexer

/-- A lexeme takes something. -/
theorem length_lexeme {l : Lexer} {c : Char} (here : l.peek = some c) :
    (l.lexeme c).rest.length < l.rest.length := by
  obtain ⟨rest, left⟩ := rest_of_peek here
  obtain ⟨found, text, reports, taken, -, -, sound⟩ := lexeme_hands left
  have shorter := taken.length
  have some_char := List.length_pos_of_ne_nil sound.some_char
  omega

/-- White space is read. -/
theorem reads_skipWhitespace (l : Lexer) :
    Reads l l.skipWhitespace (l.rest.takeWhile isBlank) [] := Reads.bumpWhile isBlank l

/-- Reads lexemes up to the end of the text. -/
def run (l : Lexer) : Lexer :=
  match _here : l.skipWhitespace.peek with
  | none => l.skipWhitespace.push .eof (.empty l.skipWhitespace.pos)
  | some c => (l.skipWhitespace.lexeme c).run
termination_by l.rest.length
decreasing_by
  have shorter := (reads_skipWhitespace l).takes.length
  have lexeme := length_lexeme _here
  omega

end Lexer

/-- Reads a text into tokens, comments and diagnostics. -/
def lex (source : SourceId) (text : List Char) : Lexed :=
  (Lexer.run ⟨⟨0, text⟩, source, text, ⟨[], [], []⟩⟩).out

/-- What is handed out of the rest of a text: of lexeme after lexeme, with white space before each
and at the end. -/
inductive Lexes : List Char → List Char → Lexed → Prop where
  | ended {behind gap : List Char} (blank : gap.all isBlank = true) :
      Lexes behind gap ⟨[⟨.eof, .empty (size (behind ++ gap))⟩], [], []⟩
  | lexeme {behind gap text rest : List Char} {found : Found} {range : TextRange}
      {reports : List Diagnostic} {out : Lexed} (blank : gap.all isBlank = true)
      (place : range = ⟨size (behind ++ gap), size (behind ++ gap ++ text)⟩)
      (sound : Sound True found text range reports)
      (more : Lexes (behind ++ gap ++ text) rest out) :
      Lexes behind (gap ++ text ++ rest)
        ⟨found.tokens range ++ out.tokens, found.comments range ++ out.comments,
          reports ++ out.diagnostics⟩

/-- The lexer reads the rest of its text lexeme after lexeme. -/
theorem run_lexes (l : Lexer) (behind : List Char) (whole : l.text = behind ++ l.rest)
    (placed : l.pos = size behind) : ∃ out, Lexes behind l.rest out ∧
      l.run.out = ⟨l.out.tokens ++ out.tokens, l.out.comments ++ out.comments,
        l.out.diagnostics ++ out.diagnostics⟩ := by
  fun_induction Lexer.run l generalizing behind with
  | case1 l here =>
    have read := Lexer.reads_skipWhitespace l
    have ended : l.skipWhitespace.rest = [] := by
      rw [Lexer.peek, List.head?_eq_none_iff] at here
      exact here
    have gap : l.rest = l.rest.takeWhile isBlank := by
      have left := read.takes.rest
      rwa [ended, List.append_nil] at left
    have blank : l.rest.all isBlank = true := by
      rw [gap]
      exact List.all_takeWhile
    refine ⟨⟨[⟨.eof, .empty (size (behind ++ l.rest))⟩], [], []⟩, .ended blank, ?_⟩
    · rw [Lexer.push, read.out, read.takes.pos, placed, ← gap, size_append]
      simp
  | case2 l c here ih =>
    have read := Lexer.reads_skipWhitespace l
    obtain ⟨rest, left⟩ := Lexer.rest_of_peek here
    obtain ⟨found, text, reports, taken, same, out, sound⟩ := Lexer.lexeme_hands left
    have blank : (l.rest.takeWhile isBlank).all isBlank = true := List.all_takeWhile
    generalize l.rest.takeWhile isBlank = gap at read blank
    have start : l.skipWhitespace.pos = size (behind ++ gap) := by
      rw [read.takes.pos, placed, size_append]
    have start_text : l.skipWhitespace.text = behind ++ gap ++ l.skipWhitespace.rest := by
      rw [read.text, whole, read.takes.rest, List.append_assoc]
    have after : (l.skipWhitespace.lexeme c).pos = size (behind ++ gap ++ text) := by
      rw [taken.pos, start, size_append _ text]
    have after_text : (l.skipWhitespace.lexeme c).text =
        behind ++ gap ++ text ++ (l.skipWhitespace.lexeme c).rest := by
      rw [same, start_text, taken.rest, List.append_assoc _ text]
    obtain ⟨later, lexes, done⟩ := ih _ after_text after
    have literals : Sound True found text
        ⟨l.skipWhitespace.pos, (l.skipWhitespace.lexeme c).pos⟩ reports :=
      ⟨sound.some_char, sound.within, sound.lone, sound.real, fun _ =>
        sound.literal ⟨_, start_text, start⟩⟩
    have range : (⟨l.skipWhitespace.pos, (l.skipWhitespace.lexeme c).pos⟩ : TextRange) =
        ⟨size (behind ++ gap), size (behind ++ gap ++ text)⟩ := by rw [start, after]
    have left_all : l.rest = gap ++ text ++ (l.skipWhitespace.lexeme c).rest := by
      rw [read.takes.rest, taken.rest, List.append_assoc]
    refine ⟨_, by rw [left_all]; exact .lexeme blank range literals lexes, ?_⟩
    rw [done, out, read.out]
    simp

/-- The lexer reads a text lexeme after lexeme. -/
theorem lex_lexes (source : SourceId) (text : List Char) : Lexes [] text (lex source text) := by
  obtain ⟨out, lexes, same⟩ := run_lexes ⟨⟨0, text⟩, source, text, ⟨[], [], []⟩⟩ [] rfl rfl
  rw [lex, same]
  exact lexes

namespace Lexes

variable {behind rest : List Char} {out : Lexed}

/-- The last token is the end of the text, and it is the only one. -/
theorem ends (lexes : Lexes behind rest out) : ∃ tokens,
    out.tokens = tokens ++ [⟨.eof, .empty (size (behind ++ rest))⟩] ∧
      ∀ token ∈ tokens, token.kind.IsVirtual = false ∧ token.kind ≠ .eof := by
  induction lexes with
  | ended blank => exact ⟨[], rfl, fun token member => nomatch member⟩
  | @lexeme behind gap text rest found range reports out blank place sound more ih =>
    obtain ⟨tokens, same, real⟩ := ih
    refine ⟨found.tokens range ++ tokens, ?_, ?_⟩
    · simp only [same, List.append_assoc]
    · intro token member
      rcases List.mem_append.mp member with first | later
      · cases found with
        | token kind =>
          rw [List.mem_singleton.mp first]
          exact sound.real kind rfl
        | comment kind => cases first
        | stray => cases first
      · exact real token later

/-- A token is a literal of the grammar, unless a diagnostic is inside it. -/
theorem literal (lexes : Lexes behind rest out) : ∀ token ∈ out.tokens,
    Literal token.kind (token.range.text (behind ++ rest)) ∨
      ∃ d ∈ out.diagnostics, d.range.Within token.range := by
  induction lexes with
  | ended blank =>
    intro token member
    rw [List.mem_singleton.mp member]
    exact .inl (literal_of_not rfl _)
  | @lexeme behind gap text rest found range reports out blank place sound more ih =>
    have whole : behind ++ (gap ++ text ++ rest) = behind ++ gap ++ text ++ rest := by simp
    intro token member
    rcases List.mem_append.mp member with first | later
    · cases found with
      | token kind =>
        rw [List.mem_singleton.mp first]
        by_cases clean : reports = []
        · have here : range.text (behind ++ gap ++ text ++ rest) = text := by
            rw [place, TextRange.text, size_append _ text, slice_part]
          rw [whole, here]
          exact .inl (sound.literal trivial kind rfl clean)
        · obtain ⟨d, some_report⟩ := List.exists_mem_of_ne_nil _ clean
          exact .inr ⟨d, List.mem_append_left _ some_report, sound.within d some_report⟩
      | comment kind => cases first
      | stray => cases first
    · rw [whole]
      rcases ih token later with plain | ⟨d, reported, inside⟩
      · exact .inl plain
      · exact .inr ⟨d, List.mem_append_right _ reported, inside⟩

end Lexes

/-- Pieces of a text one after the other, with white space between them. -/
inductive Tiles : List Char → List Char → List TextRange → Prop where
  | ended {behind gap : List Char} (blank : gap.all isBlank = true) : Tiles behind gap []
  | piece {behind gap text rest : List Char} {pieces : List TextRange}
      (blank : gap.all isBlank = true) (some_char : text ≠ [])
      (more : Tiles (behind ++ gap ++ text) rest pieces) :
      Tiles behind (gap ++ text ++ rest)
        (⟨size (behind ++ gap), size (behind ++ gap ++ text)⟩ :: pieces)

/-- The ranges of tokens, of comments, and of text that is neither. -/
def Lexed.ranges (out : Lexed) : List TextRange :=
  out.tokens.dropLast.map Token.range ++ out.comments.map Comment.range ++
    (out.diagnostics.filter Diagnostic.Lone).map Diagnostic.range

/-- The lexemes cover the text, and every diagnostic is inside one. -/
theorem Lexes.covers {behind rest : List Char} {out : Lexed} (lexes : Lexes behind rest out) :
    ∃ pieces, out.ranges.Perm pieces ∧ Tiles behind rest pieces ∧
      ∀ d ∈ out.diagnostics, ∃ piece ∈ pieces, d.range.Within piece := by
  induction lexes with
  | ended blank => exact ⟨[], .refl _, .ended blank, fun d member => nomatch member⟩
  | @lexeme behind gap text rest found range reports out blank place sound more ih =>
    obtain ⟨pieces, permuted, tiles, inside⟩ := ih
    subst place
    refine ⟨_, ?_, .piece blank sound.some_char tiles, ?_⟩
    · obtain ⟨tokens, last, -⟩ := more.ends
      have some_token : out.tokens ≠ [] := by rw [last]; simp
      rw [Lexed.ranges] at permuted
      simp only [Lexed.ranges, List.filter_append, List.map_append, sound.lone,
        List.dropLast_append_of_ne_nil some_token]
      cases found with
      | token kind => exact permuted.cons _
      | comment kind =>
        refine List.Perm.trans ?_ (permuted.cons _)
        simp only [Found.tokens, Found.comments, Found.strays, List.map_nil, List.nil_append,
          List.map_cons, List.cons_append, List.append_assoc]
        exact List.perm_middle
      | stray =>
        refine List.Perm.trans ?_ (permuted.cons _)
        simp only [Found.tokens, Found.comments, Found.strays, List.map_nil, List.nil_append,
          List.cons_append]
        exact List.perm_middle
    · intro d member
      rcases List.mem_append.mp member with early | late
      · exact ⟨_, List.mem_cons_self, sound.within d early⟩
      · obtain ⟨piece, listed, within⟩ := inside d late
        exact ⟨piece, List.mem_cons_of_mem _ listed, within⟩

/-- The decoders read the text of a literal of a kind of tokens as what it denotes, and a number
with a point or an exponent as the bits of the one floating-point number nearest to it. -/
def Decoded (kind : TokenKind) (text : List Char) : Prop :=
  (kind = .int → ∃ value, IntDenotes text value ∧ decodeIntLiteral text = some value) ∧
    (kind = .float → ∃ q, FloatDenotes text q ∧
      ∃ bits, (∀ other, Binary64.Nearest q other ↔ other = bits) ∧
        decodeFloatLiteral text = some bits) ∧
    (kind = .char → ∃ value, CharDenotes text value ∧ decodeCharLiteral text = some value) ∧
    (kind = .string → ∃ bytes, StringDenotes text bytes ∧ decodeStringLiteral text = some bytes)

/-- Literals are decoded as what they denote. -/
theorem Literal.decoded {kind : TokenKind} {text : List Char} (literal : Literal kind text) :
    Decoded kind text :=
  ⟨fun int => (literal.1 int).imp fun _ denotes => ⟨denotes, denotes.decode⟩,
    fun float => (literal.2.1 float).imp fun q denotes =>
      ⟨denotes, Binary64.bits q, fun _ => Binary64.nearest_iff denotes.nonneg, denotes.decode⟩,
    fun char => (literal.2.2.1 char).imp fun _ denotes => ⟨denotes, denotes.decode⟩,
    fun string => (literal.2.2.2 string).imp fun _ denotes => ⟨denotes, denotes.decode⟩⟩

/-- A literal without a diagnostic inside it is decoded to what it denotes. One that is not of the
grammar has a diagnostic inside it. The tokens, the comments, and the ranges reported of text that
is neither cover the text with the white space, without overlap, and every diagnostic is inside
one of them. -/
theorem literals_agree (source : SourceId) (text : List Char) :
    (∀ token ∈ (lex source text).tokens,
      (∀ d ∈ (lex source text).diagnostics, ¬ d.range.Within token.range) →
        Decoded token.kind (token.range.text text)) ∧
    (∀ token ∈ (lex source text).tokens, ¬ Literal token.kind (token.range.text text) →
      ∃ d ∈ (lex source text).diagnostics, d.range.Within token.range) ∧
    (lex source text).tokens.getLast? = some ⟨.eof, .empty (size text)⟩ ∧
    ∃ pieces, (lex source text).ranges.Perm pieces ∧ Tiles [] text pieces ∧
      ∀ d ∈ (lex source text).diagnostics, ∃ piece ∈ pieces, d.range.Within piece := by
  have lexes := lex_lexes source text
  refine ⟨?_, ?_, ?_, lexes.covers⟩
  · intro token member clean
    rcases lexes.literal token member with literal | ⟨d, reported, inside⟩
    · exact literal.decoded
    · exact absurd inside (clean d reported)
  · intro token member malformed
    rcases lexes.literal token member with literal | reported
    · exact absurd literal malformed
    · exact reported
  · obtain ⟨tokens, same, -⟩ := lexes.ends
    rw [same, List.getLast?_append]
    rfl

/-- Two ranges without a byte in common. -/
def TextRange.Apart (a b : TextRange) : Prop := a.finish ≤ b.start ∨ b.finish ≤ a.start

instance (a b : TextRange) : Decidable (a.Apart b) := inferInstanceAs (Decidable (_ ∨ _))

/-- The ranges of diagnostics overlap those of tokens: that of a number without digits is its
token's. -/
theorem diagnostics_overlap_tokens : ¬ ∀ (source : SourceId) (text : List Char),
    ((lex source text).tokens.map Token.range ++ (lex source text).comments.map Comment.range ++
      (lex source text).diagnostics.map Diagnostic.range).Pairwise TextRange.Apart := by
  intro apart
  have ranges := apart 0 ['0', 'x']
  revert ranges
  decide +kernel

end Fai.Syntax
