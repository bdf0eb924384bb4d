import FaiVerif.Syntax.Positions

/-!
# Blocks

The tokens of the layout open and close blocks. A block is known by its reference column, that of
its first token. The blocks that are open at a place are read off the tokens before it.
-/

namespace Fai.Syntax

open Scan

/-- Whether a token is one of the text. -/
def Token.Real (token : Token) : Bool := !token.kind.IsVirtual

/-- The open blocks past a token, the innermost first. A token that closes none is wrong. -/
def blockStep (text : List Char) (inner : List Nat) (token : Token) : Option (List Nat) :=
  if token.kind = .layoutOpen then some (columnAt text token.range.start :: inner)
  else if token.kind = .layoutClose then inner.tail?
  else some inner

/-- The open blocks past tokens, the innermost first. -/
def openBlocks (text : List Char) (tokens : List Token) : Option (List Nat) :=
  tokens.foldlM (blockStep text) []

/-- The depth of brackets past tokens. -/
def bracketDepth (tokens : List Token) : Nat :=
  tokens.foldl (fun depth token => bracketsAfter depth token.kind) 0

/-- The token that closes a block at an offset. -/
def closeAt (offset : Nat) : Token := ⟨.layoutClose, .empty offset⟩

/-- The token that separates items at an offset. -/
def sepAt (offset : Nat) : Token := ⟨.layoutSep, .empty offset⟩

/-- The token that opens a block at an offset. -/
def openAt (offset : Nat) : Token := ⟨.layoutOpen, .empty offset⟩

/-- The blocks past one more token. -/
theorem openBlocks_snoc (text : List Char) (tokens : List Token) (token : Token) :
    openBlocks text (tokens ++ [token]) =
      (openBlocks text tokens).bind fun inner => blockStep text inner token := by
  rw [openBlocks, List.foldlM_append, openBlocks]
  cases List.foldlM (blockStep text) [] tokens with
  | none => rfl
  | some inner =>
    simp only [Option.bind_eq_bind, Option.bind_some, List.foldlM_cons, List.foldlM_nil]
    cases blockStep text inner token <;> rfl

/-- A token of the text, or one that separates items, leaves the blocks. -/
theorem blockStep_other {text : List Char} {inner : List Nat} {token : Token}
    (opens : token.kind ≠ .layoutOpen) (closes : token.kind ≠ .layoutClose) :
    blockStep text inner token = some inner := by rw [blockStep, if_neg opens, if_neg closes]

/-- At every place among tokens no block is closed that is not open, and the reference columns of
the open blocks strictly increase from that of the top level on. -/
def Nested (text : List Char) (top : Nat) (tokens : List Token) : Prop :=
  ∀ front, front <+: tokens →
    ∃ inner, openBlocks text front = some inner ∧ (inner ++ [top]).Pairwise (· > ·)

/-- Without tokens no block is open. -/
theorem nested_nil (text : List Char) (top : Nat) : Nested text top [] := by
  intro front before
  rw [List.prefix_nil.mp before]
  exact ⟨[], rfl, List.pairwise_singleton _ _⟩

/-- One more token keeps the blocks nested if it does after all the others. -/
theorem Nested.snoc {text : List Char} {top : Nat} {tokens : List Token}
    (nested : Nested text top tokens) {token : Token} {inner : List Nat}
    (blocks : openBlocks text (tokens ++ [token]) = some inner)
    (increasing : (inner ++ [top]).Pairwise (· > ·)) : Nested text top (tokens ++ [token]) := by
  intro front before
  rcases List.prefix_concat_iff.mp before with rfl | earlier
  · exact ⟨inner, blocks, increasing⟩
  · exact nested front earlier

/-- Columns that decrease are split at a column by a test of each. -/
theorem split_columns {inner : List Nat} {top : Nat}
    (decreasing : (inner ++ [top]).Pairwise (· > ·))
    (column : Nat) : inner.takeWhile (column < ·) = inner.filter (column < ·) ∧
      inner.dropWhile (column < ·) = inner.filter (· ≤ column) := by
  induction inner with
  | nil => exact ⟨rfl, rfl⟩
  | cons c inner ih =>
    rw [List.cons_append, List.pairwise_cons] at decreasing
    obtain ⟨least, decreasing⟩ := decreasing
    obtain ⟨taken, left⟩ := ih decreasing
    by_cases further : column < c
    · simp [further, taken, left, Nat.not_le.mpr further]
    · have later : ∀ d ∈ inner, ¬ column < d := by
        intro d member
        have smaller := least d (List.mem_append_left _ member)
        omega
      have none_later : inner.filter (column < ·) = [] :=
        List.filter_eq_nil_iff.mpr fun d member => by simpa using later d member
      have all_later : inner.filter (· ≤ column) = inner :=
        List.filter_eq_self.mpr fun d member => by simpa using later d member
      simp [further, none_later, all_later, Nat.not_lt.mp further]

/-- Closing tokens, one for each block that ends. -/
theorem close_blocks {text : List Char} {top : Nat} {tokens : List Token}
    {ended left : List Nat} (offset : Nat) (nested : Nested text top tokens)
    (blocks : openBlocks text tokens = some (ended ++ left))
    (decreasing : (ended ++ left ++ [top]).Pairwise (· > ·)) :
    openBlocks text (tokens ++ List.replicate ended.length (closeAt offset)) = some left ∧
      Nested text top (tokens ++ List.replicate ended.length (closeAt offset)) ∧
      (left ++ [top]).Pairwise (· > ·) := by
  induction ended generalizing tokens with
  | nil => exact ⟨by simpa using blocks, by simpa using nested, by simpa using decreasing⟩
  | cons c ended ih =>
    have fewer : (ended ++ left ++ [top]).Pairwise (· > ·) := by
      rw [List.cons_append, List.cons_append, List.pairwise_cons] at decreasing
      exact decreasing.2
    have closed : openBlocks text (tokens ++ [closeAt offset]) = some (ended ++ left) := by
      rw [openBlocks_snoc, blocks]
      rfl
    have regroup : tokens ++ List.replicate (c :: ended).length (closeAt offset) =
        tokens ++ [closeAt offset] ++ List.replicate ended.length (closeAt offset) := by
      rw [List.length_cons, List.replicate_succ, List.append_assoc, List.singleton_append]
    rw [regroup]
    exact ih (nested.snoc closed fewer) closed fewer

namespace Layouter

/-- Closing blocks hands out a token for each, and leaves the rest of the state. -/
theorem closeWhile_eq (test : Nat → Bool) (offset : Nat) (l : Layouter) {inner : List Nat}
    {top : Nat} (contexts : l.contexts = inner ++ [top]) :
    l.closeWhile test offset l.contexts =
      { l with
        out := l.out ++ List.replicate (inner.takeWhile test).length (closeAt offset)
        contexts := inner.dropWhile test ++ [top] } := by
  induction inner generalizing l with
  | nil =>
    rw [contexts, List.nil_append, closeWhile]
    · simp [← contexts]
    · simp
  | cons c inner ih =>
    obtain ⟨next, more, same⟩ : ∃ next more, inner ++ [top] = next :: more := by
      cases inner with
      | nil => exact ⟨top, [], rfl⟩
      | cons d inner => exact ⟨d, inner ++ [top], rfl⟩
    rw [contexts, List.cons_append, same, closeWhile]
    by_cases pass : test c = true
    · have inside :=
        ih { l.pushVirtual .layoutClose offset with contexts := next :: more } same.symm
      rw [if_pos pass, inside, List.takeWhile_cons_of_pos pass, List.dropWhile_cons_of_pos pass]
      simp only [pushVirtual, List.length_cons, List.replicate_succ, List.append_assoc,
        List.singleton_append]
      rfl
    · rw [if_neg pass, List.takeWhile_cons_of_neg pass, List.dropWhile_cons_of_neg pass]
      simp [← contexts]

end Layouter

namespace Layouter

/-- A token that starts a line ends the blocks whose columns exceed its own, and separates items if
it starts a new one. -/
theorem lineTransition_eq (column : Nat) (kind : TokenKind) (offset : Nat) (l : Layouter)
    {inner : List Nat} {top : Nat} (contexts : l.contexts = inner ++ [top])
    (decreasing : (inner ++ [top]).Pairwise (· > ·)) :
    l.lineTransition column kind offset =
      { l with
        out := l.out ++ List.replicate (inner.filter (column < ·)).length (closeAt offset) ++
          if NewItem column kind ((inner.filter (· ≤ column) ++ [top]).headD 0) then
            [sepAt offset]
          else []
        contexts := inner.filter (· ≤ column) ++ [top] } := by
  obtain ⟨taken, left⟩ := split_columns decreasing column
  rw [lineTransition, closeWhile_eq _ _ _ contexts, taken, left]
  by_cases separates : NewItem column kind ((inner.filter (· ≤ column) ++ [top]).headD 0)
  · rw [if_pos separates]
    exact if_pos separates
  · rw [if_neg separates, List.append_nil]
    exact if_neg separates

end Layouter

/-- Whether a token is on a line after that on which the last of other tokens starts. -/
def StartsLine (text : List Char) (front : List Token) (token : Token) : Prop :=
  ∃ last, front.getLast? = some last ∧
    lineAt text last.range.start < lineAt text token.range.start

/-- What the layout inserts before a token that starts a line: a token that closes it for each open
block whose column exceeds its own, and after them one that opens a block if the token is further
than the block that it ends up in after one that opens blocks, and otherwise one that separates
items exactly if the token starts a new item. -/
structure LineStart (text : List Char) (top : Nat) (front virtuals : List Token) (token : Token)
    (inner : List Nat) (lead : List Token) : Prop where
  blocks : openBlocks text front = some inner
  inserted : virtuals = List.replicate
    (inner.filter (columnAt text token.range.start < ·)).length (closeAt token.range.start) ++ lead
  left : openBlocks text (front ++ List.replicate
    (inner.filter (columnAt text token.range.start < ·)).length (closeAt token.range.start)) =
      some (inner.filter (· ≤ columnAt text token.range.start))
  lead : lead =
    if (∃ last, front.getLast? = some last ∧ isOpener last.kind = true) ∧
        (inner ++ [top]).headD 0 < columnAt text token.range.start then [openAt token.range.start]
    else if NewItem (columnAt text token.range.start) token.kind
        ((inner.filter (· ≤ columnAt text token.range.start) ++ [top]).headD 0) then
      [sepAt token.range.start]
    else []

end Fai.Syntax
