import FaiVerif.Syntax.Layout
import FaiVerif.Syntax.Lexing

/-!
# Lines and columns

The cursor of the layout moves over the offsets of tokens. At each it has the line and the column
that are counted from the start of the text.
-/

namespace Fai.Syntax

open Scan

/-- The line after a text. -/
def lineOf (front : List Char) : Nat := front.count '\n' + 1

/-- The column after a text, in characters. -/
def columnOf (front : List Char) : Nat := (front.reverse.takeWhile (· ≠ '\n')).length + 1

/-- The line of an offset, counted from the start of the text. -/
def lineAt (text : List Char) (offset : Nat) : Nat := lineOf (takeBytes offset text)

/-- The column of an offset, counted from the start of the text. -/
def columnAt (text : List Char) (offset : Nat) : Nat := columnOf (takeBytes offset text)

/-- After a newline the line is the next and the column the first. -/
theorem position_newline (front : List Char) :
    lineOf (front ++ ['\n']) = lineOf front + 1 ∧ columnOf (front ++ ['\n']) = 1 := by
  simp [lineOf, columnOf]

/-- Without a newline the line is the same and the column is further by the characters. -/
theorem position_append (front more : List Char) (same : '\n' ∉ more) :
    lineOf (front ++ more) = lineOf front ∧
      columnOf (front ++ more) = columnOf front + more.length := by
  have all : ∀ c ∈ more.reverse, decide (c ≠ '\n') = true := by
    intro c member
    have other : c ≠ '\n' := by
      rintro rfl
      exact same (List.mem_reverse.mp member)
    simpa using other
  constructor
  · rw [lineOf, lineOf, List.count_append, List.count_eq_zero_of_not_mem same, Nat.add_zero]
  · rw [columnOf, columnOf, List.reverse_append, List.takeWhile_append_of_pos all,
      List.length_append, List.length_reverse]
    omega

/-- A cursor is after a text: its line is that, and its column is that of a place on the line. -/
structure PositionCursor.Tracks (p : PositionCursor) (behind : List Char) : Prop where
  line : p.line = lineOf behind
  column : ∃ before since, behind = before ++ since ∧ '\n' ∉ since ∧
    p.columnOffset = size before ∧ p.column = columnOf before

namespace PositionCursor

variable {p : PositionCursor} {behind gap ahead text : List Char}

/-- At the start nothing is behind. -/
theorem tracks_new : new.Tracks [] := ⟨rfl, [], [], rfl, List.not_mem_nil, rfl, rfl⟩

/-- Counting lines follows the text. -/
theorem Tracks.walk (tracks : p.Tracks behind) (gap : List Char) :
    (PositionCursor.walk (size behind) gap p).Tracks (behind ++ gap) := by
  induction gap generalizing behind p with
  | nil => rwa [List.append_nil]
  | cons c gap ih =>
    have regroup : behind ++ c :: gap = behind ++ [c] ++ gap := by simp
    have offset : size behind + c.utf8Size = size (behind ++ [c]) := by simp
    rw [regroup, PositionCursor.walk, offset]
    apply ih
    by_cases newline : c = '\n'
    · rw [if_pos newline, newline]
      obtain ⟨line, column⟩ := position_newline behind
      refine ⟨by rw [line, tracks.line], behind ++ ['\n'], [], by simp,
        List.not_mem_nil, ?_, column.symm⟩
      simp only [size_append, size_cons, size_nil]
      rfl
    · rw [if_neg newline]
      obtain ⟨before, since, rfl, plain, columnOffset, column⟩ := tracks.column
      have still : '\n' ∉ since ++ [c] := by
        rw [List.mem_append, List.mem_singleton, not_or]
        exact ⟨plain, Ne.symm newline⟩
      refine ⟨?_, before, since ++ [c], by simp, still, columnOffset, column⟩
      rw [tracks.line, (position_append _ [c] (by simpa using Ne.symm newline)).1]

/-- A cursor that moves on is after the text up to there. -/
theorem Tracks.advance (tracks : p.Tracks behind) (offset : p.offset = size behind)
    (whole : text = behind ++ gap ++ ahead) :
    (p.advance text (size (behind ++ gap))).Tracks (behind ++ gap) := by
  have between : slice p.offset (size (behind ++ gap)) text = gap := by
    rw [offset, whole, size_append, slice_part]
  have walked := tracks.walk gap
  rw [PositionCursor.advance, between, offset]
  exact ⟨walked.line, walked.column⟩

/-- Counting the column on gives that of the place. -/
theorem Tracks.count (tracks : p.Tracks behind) (offset : p.offset = size behind)
    (whole : text = behind ++ ahead) :
    (p.count text).column = columnOf behind ∧ (p.count text).Tracks behind := by
  obtain ⟨before, since, rfl, plain, columnOffset, column⟩ := tracks.column
  have between : slice p.columnOffset p.offset text = since := by
    rw [columnOffset, offset, whole, size_append, slice_part]
  have counted : (p.count text).column = columnOf (before ++ since) := by
    rw [PositionCursor.count, between, column, (position_append before since plain).2]
  refine ⟨counted, tracks.line, before ++ since, [], by simp, List.not_mem_nil,
    offset, counted⟩

/-- Moves on over offsets, and counts the column at those where it is asked for. -/
def follow (text : List Char) : PositionCursor → List (Nat × Bool) → PositionCursor
  | p, [] => p
  | p, (offset, asked) :: more =>
    let p := p.advance text offset
    follow text (if asked then p.count text else p) more

end PositionCursor

/-- Offsets that stand one after the other in a text. -/
inductive Along : List Char → List Char → List Nat → Prop where
  | nil {behind rest : List Char} : Along behind rest []
  | cons {behind gap rest : List Char} {offset : Nat} {more : List Nat}
      (place : offset = size (behind ++ gap)) (along : Along (behind ++ gap) rest more) :
      Along behind (gap ++ rest) (offset :: more)

/-- Offsets of a text whose front is left out. -/
theorem Along.skip {behind rest : List Char} {offsets : List Nat} (front : List Char)
    (along : Along (behind ++ front) rest offsets) : Along behind (front ++ rest) offsets := by
  cases along with
  | nil => exact .nil
  | @cons _ gap rest offset more place along =>
    rw [← List.append_assoc]
    rw [List.append_assoc] at place along
    exact .cons place along

/-- The tokens of a text start one after the other. -/
theorem Lexes.along {behind rest : List Char} {out : Lexed} (lexes : Lexes behind rest out) :
    Along behind rest (out.tokens.map fun token => token.range.start) := by
  induction lexes with
  | @ended behind gap blank =>
    have at_end : Along behind (gap ++ []) [size (behind ++ gap)] := .cons rfl .nil
    rwa [List.append_nil] at at_end
  | @lexeme behind gap text rest found range reports out blank place sound more ih =>
    cases found with
    | token kind =>
      subst place
      rw [List.append_assoc gap]
      exact .cons rfl (.skip text ih)
    | comment kind =>
      rw [List.append_assoc behind] at ih
      exact .skip _ ih
    | stray =>
      rw [List.append_assoc behind] at ih
      exact .skip _ ih

namespace PositionCursor

/-- A cursor that follows offsets has the line and the column of each. -/
theorem Tracks.follow {p : PositionCursor} {behind rest text : List Char}
    (tracks : p.Tracks behind) (place : p.offset = size behind) (whole : text = behind ++ rest)
    {before : List (Nat × Bool)} {offset : Nat} {after : List Nat}
    (along : Along behind rest (before.map Prod.fst ++ offset :: after)) :
    ((p.follow text before).advance text offset).line = lineAt text offset ∧
      (((p.follow text before).advance text offset).count text).column = columnAt text offset := by
  induction before generalizing p behind rest with
  | nil =>
    cases along with
    | @cons _ gap rest _ _ here along =>
      subst here
      have whole' : text = behind ++ gap ++ rest := by rw [whole, List.append_assoc]
      have moved := tracks.advance place whole'
      have front : takeBytes (size (behind ++ gap)) text = behind ++ gap := by
        rw [whole', takeBytes_append]
      rw [lineAt, columnAt, front]
      exact ⟨moved.line, (moved.count rfl whole').1⟩
  | cons first before ih =>
    obtain ⟨next, asked⟩ := first
    cases along with
    | @cons _ gap rest _ _ here along =>
      have here : next = size (behind ++ gap) := here
      subst here
      have whole' : text = behind ++ gap ++ rest := by rw [whole, List.append_assoc]
      have moved := tracks.advance place whole'
      rw [PositionCursor.follow]
      split_ifs
      · exact ih (moved.count rfl whole').2 rfl whole' along
      · exact ih moved rfl whole' along

end PositionCursor

end Fai.Syntax
