import FaiVerif.Syntax.Blocks
import Mathlib.Data.List.TakeWhile

/-!
# The offside rule

What holds of the layout before a token holds after it, and what is inserted before the token is
known from the tokens before it and from the lines and columns of the text.
-/

namespace Fai.Syntax

open Scan

/-- What the layout inserts before a token, after the tokens that it has handed out. -/
structure Introduces (text : List Char) (top : Nat) (done front virtuals : List Token)
    (token : Token) : Prop where
  only_virtual : ∀ inserted ∈ virtuals, inserted.kind.IsVirtual = true
  line : StartsLine text done token → bracketDepth done = 0 →
    ∃ inner lead, LineStart text top front virtuals token inner lead
  within : ¬ (StartsLine text done token ∧ bracketDepth done = 0) → virtuals = []

/-- The layout has handled some tokens of a text, the last of which starts after a front of it. -/
structure Laid (text : List Char) (top : Nat) (done : List Token) (behind : List Char)
    (l : Layouter) : Prop where
  sourced : l.text = text
  tracks : l.position.Tracks behind
  offset : l.position.offset = size behind
  erased : l.out.filter Token.Real = done
  last : l.out.getLast? = done.getLast?
  depth : l.bracketDepth = bracketDepth done
  started : (done = [] ∧ l.first = true ∧ l.contexts = [] ∧ l.out = []) ∨
    (done ≠ [] ∧ l.first = false ∧
      ∃ inner, l.contexts = inner ++ [top] ∧ openBlocks text l.out = some inner)
  nested : Nested text top l.out
  previous : ∀ last, done.getLast? = some last →
    l.prevLine = lineAt text last.range.start ∧
      l.pendingOpen = (bracketDepth done = 0 && isOpener last.kind)

/-- The layout has inserted tokens before one that starts after a front of the text. -/
structure Inserted (text : List Char) (top : Nat) (done : List Token) (behind : List Char)
    (l m : Layouter) (token : Token) (virtuals : List Token) : Prop where
  sourced : m.text = text
  tracks : m.position.Tracks behind
  offset : m.position.offset = size behind
  out : m.out = l.out ++ virtuals
  depth : m.bracketDepth = l.bracketDepth
  first : m.first = false
  contexts : ∃ after, m.contexts = after ++ [top] ∧ openBlocks text m.out = some after
  nested : Nested text top m.out
  introduces : Introduces text top done l.out virtuals token

/-- The columns of open blocks decrease from the innermost on. -/
theorem Nested.decreasing {text : List Char} {top : Nat} {tokens : List Token}
    (nested : Nested text top tokens) {inner : List Nat}
    (blocks : openBlocks text tokens = some inner) : (inner ++ [top]).Pairwise (· > ·) := by
  obtain ⟨found, same, decreasing⟩ := nested tokens (List.prefix_refl _)
  rw [blocks] at same
  cases same
  exact decreasing

/-- The blocks whose columns do not exceed one are left when those that exceed it are closed. -/
theorem close_exceeding {text : List Char} {top : Nat} {tokens : List Token}
    {inner : List Nat} (offset : Nat) (nested : Nested text top tokens)
    (blocks : openBlocks text tokens = some inner) (column : Nat) :
    openBlocks text (tokens ++ List.replicate (inner.filter (column < ·)).length
        (closeAt offset)) = some (inner.filter (· ≤ column)) ∧
      Nested text top (tokens ++ List.replicate (inner.filter (column < ·)).length
        (closeAt offset)) ∧
      (inner.filter (· ≤ column) ++ [top]).Pairwise (· > ·) := by
  have decreasing := nested.decreasing blocks
  obtain ⟨taken, left⟩ := split_columns decreasing column
  have whole : inner.filter (column < ·) ++ inner.filter (· ≤ column) = inner := by
    rw [← taken, ← left, List.takeWhile_append_dropWhile]
  refine close_blocks offset nested ?_ ?_
  · rw [whole, blocks]
  · rwa [whole]

/-- The tokens that close blocks are those of the layout. -/
theorem replicate_closeAt_virtual (n offset : Nat) :
    ∀ token ∈ List.replicate n (closeAt offset), token.kind.IsVirtual = true := by
  intro token member
  rw [List.eq_of_mem_replicate member]
  rfl

/-- A token that separates items leaves the blocks. -/
theorem openBlocks_sepAt {text : List Char} {tokens : List Token} {inner : List Nat} (offset : Nat)
    (blocks : openBlocks text tokens = some inner) :
    openBlocks text (tokens ++ [sepAt offset]) = some inner := by
  rw [openBlocks_snoc, blocks]
  rfl

section Step

variable {text behind gap ahead : List Char} {top : Nat} {done : List Token} {l : Layouter}
  {token : Token}

/-- Before a token that starts a line outside brackets the layout closes blocks and separates items,
unless the token before opens a block. -/
theorem inserted_lineTransition {m : Layouter} {inner : List Nat} (sourced : m.text = text)
    (tracks : m.position.Tracks behind) (offset : m.position.offset = size behind)
    (out : m.out = l.out) (depth : m.bracketDepth = l.bracketDepth) (first : m.first = false)
    (contexts : m.contexts = inner ++ [top]) (blocks : openBlocks text l.out = some inner)
    (nested : Nested text top l.out) (starts : StartsLine text done token)
    (outside : bracketDepth done = 0)
    (none_opens : ¬ ((∃ last, l.out.getLast? = some last ∧ isOpener last.kind = true) ∧
      (inner ++ [top]).headD 0 < columnAt text token.range.start)) :
    ∃ virtuals, Inserted text top done behind l
      (m.lineTransition (columnAt text token.range.start) token.kind token.range.start)
      token virtuals := by
  have decreasing := nested.decreasing blocks
  obtain ⟨closed, still, ordered⟩ := close_exceeding token.range.start nested blocks
    (columnAt text token.range.start)
  rw [Layouter.lineTransition_eq _ _ _ m contexts decreasing]
  refine ⟨_, ⟨sourced, tracks, offset, by simp only [out, List.append_assoc]; rfl, depth, first,
    ⟨_, rfl, ?_⟩, ?_, ⟨?_, ?_, ?_⟩⟩⟩
  · simp only [out]
    split_ifs
    · exact openBlocks_sepAt _ closed
    · rwa [List.append_nil]
  · simp only [out]
    split_ifs
    · exact still.snoc (openBlocks_sepAt _ closed) ordered
    · rwa [List.append_nil]
  · intro inserted member
    rcases List.mem_append.mp member with close | sep
    · exact replicate_closeAt_virtual _ _ _ close
    · split_ifs at sep
      · rw [List.mem_singleton.mp sep]
        rfl
      · cases sep
  · intro _ _
    exact ⟨inner, _, blocks, rfl, closed, (if_neg none_opens).symm⟩
  · intro other
    exact absurd ⟨starts, outside⟩ other

/-- Before a token that starts a line outside brackets after one that opens a block, the layout
opens one, or closes blocks and separates items if the token is not further than the innermost. -/
theorem inserted_openBlock {m : Layouter} {inner : List Nat} (sourced : m.text = text)
    (tracks : m.position.Tracks behind) (offset : m.position.offset = size behind)
    (out : m.out = l.out) (depth : m.bracketDepth = l.bracketDepth) (first : m.first = false)
    (contexts : m.contexts = inner ++ [top]) (blocks : openBlocks text l.out = some inner)
    (nested : Nested text top l.out) (starts : StartsLine text done token)
    (outside : bracketDepth done = 0)
    (opener : ∃ last, l.out.getLast? = some last ∧ isOpener last.kind = true) :
    ∃ virtuals, Inserted text top done behind l
      (m.openBlock (columnAt text token.range.start) token token.range.start) token virtuals := by
  have decreasing := nested.decreasing blocks
  rw [Layouter.openBlock]
  have reference : m.reference = (inner ++ [top]).headD 0 := by rw [Layouter.reference, contexts]
  by_cases further : m.reference < columnAt text token.range.start
  · rw [if_pos further]
    rw [reference] at further
    have opened : openBlocks text (l.out ++ [openAt token.range.start]) =
        some (columnAt text token.range.start :: inner) := by
      rw [openBlocks_snoc, blocks]
      rfl
    have least : ∀ c ∈ inner ++ [top], c < columnAt text token.range.start := by
      intro c member
      cases inner with
      | nil =>
        rw [List.mem_singleton.mp member]
        exact further
      | cons d inner =>
        rw [List.cons_append, List.headD_cons] at further
        rw [List.cons_append, List.pairwise_cons] at decreasing
        rcases List.mem_cons.mp member with rfl | later
        · exact further
        · exact Nat.lt_trans (decreasing.1 c later) further
    have ordered : (columnAt text token.range.start :: inner ++ [top]).Pairwise (· > ·) := by
      rw [List.cons_append, List.pairwise_cons]
      exact ⟨least, decreasing⟩
    have none_exceeds : inner.filter (columnAt text token.range.start < ·) = [] :=
      List.filter_eq_nil_iff.mpr fun c member => by
        have smaller := least c (List.mem_append_left _ member)
        simp only [decide_eq_true_eq]
        omega
    have all_left : inner.filter (· ≤ columnAt text token.range.start) = inner :=
      List.filter_eq_self.mpr fun c member => by
        have smaller := least c (List.mem_append_left _ member)
        simp only [decide_eq_true_eq]
        omega
    refine ⟨[openAt token.range.start], ⟨sourced, tracks, offset, ?_, depth, first,
      ⟨columnAt text token.range.start :: inner, ?_, ?_⟩, ?_, ⟨?_, ?_, ?_⟩⟩⟩
    · simp only [Layouter.pushVirtual, out]
      rfl
    · simp only [Layouter.pushVirtual, contexts]
      rfl
    · simp only [Layouter.pushVirtual, out]
      exact opened
    · simp only [Layouter.pushVirtual, out]
      exact nested.snoc opened ordered
    · intro inserted member
      rw [List.mem_singleton.mp member]
      rfl
    · intro _ _
      refine ⟨inner, [openAt token.range.start], blocks, ?_, ?_, ?_⟩
      · rw [none_exceeds]
        rfl
      · rw [none_exceeds, all_left, List.length_nil, List.replicate_zero, List.append_nil, blocks]
      · exact (if_pos ⟨opener, further⟩).symm
    · intro other
      exact absurd ⟨starts, outside⟩ other
  · rw [if_neg further]
    rw [reference] at further
    exact inserted_lineTransition (m := m.error token.range _) sourced tracks offset out depth first
      contexts blocks nested starts outside fun both => further both.2

/-- The depth of brackets past one more token. -/
theorem bracketDepth_snoc (tokens : List Token) (token : Token) :
    bracketDepth (tokens ++ [token]) = bracketsAfter (bracketDepth tokens) token.kind := by
  rw [bracketDepth, List.foldl_append]
  rfl

/-- The layout moves on in the text. -/
theorem Laid.advance (laid : Laid text top done behind l)
    (whole : text = behind ++ gap ++ ahead) :
    Laid text top done (behind ++ gap)
      { l with position := l.position.advance l.text (size (behind ++ gap)) } :=
  ⟨laid.sourced, laid.tracks.advance laid.offset (by rw [laid.sourced, whole]), rfl, laid.erased,
    laid.last, laid.depth, laid.started, laid.nested, laid.previous⟩

/-- What the layout inserts before a token at its place. -/
theorem Laid.before (laid : Laid text top done behind l) (whole : text = behind ++ ahead)
    (place : token.range.start = size behind)
    (head : done = [] → top = columnAt text token.range.start) :
    ∃ virtuals, Inserted text top done behind l (l.before token) token virtuals := by
  have front : takeBytes (size behind) text = behind := by rw [whole, takeBytes_append]
  have here : l.text = behind ++ ahead := by rw [laid.sourced, whole]
  obtain ⟨counted, tracks⟩ := laid.tracks.count laid.offset here
  have column : (l.position.count l.text).column = columnAt text token.range.start := by
    rw [counted, columnAt, place, front]
  have line : l.position.line = lineAt text token.range.start := by
    rw [laid.tracks.line, lineAt, place, front]
  have none_start (unstarted : done = []) : ¬ (StartsLine text done token ∧
      bracketDepth done = 0) := by
    rintro ⟨⟨last, here, -⟩, -⟩
    rw [unstarted] at here
    cases here
  rw [Layouter.before]
  rcases laid.started with ⟨unstarted, first, contexts, out⟩ |
    ⟨some_done, first, inner, contexts, blocks⟩
  · rw [if_pos first]
    refine ⟨[], ⟨laid.sourced, tracks, laid.offset, ?_, rfl, rfl, ⟨[], ?_, ?_⟩, laid.nested,
      ⟨fun _ member => absurd member List.not_mem_nil, fun starts outside =>
        absurd ⟨starts, outside⟩ (none_start unstarted), fun _ => rfl⟩⟩⟩
    · exact (List.append_nil _).symm
    · simp only [contexts, column, head unstarted]
      rfl
    · simp only [out]
      rfl
  · have continues : ¬ l.first = true := by rw [first]; exact Bool.false_ne_true
    obtain ⟨last, final⟩ : ∃ last, done.getLast? = some last :=
      ⟨_, List.getLast?_eq_some_getLast some_done⟩
    obtain ⟨prevLine, pending⟩ := laid.previous last final
    rw [if_neg continues]
    by_cases starts : l.bracketDepth = 0 ∧ l.prevLine < l.position.line
    · rw [if_pos starts]
      obtain ⟨outside, later⟩ := starts
      rw [laid.depth] at outside
      rw [prevLine, line] at later
      rw [outside] at pending
      simp only [column]
      by_cases opener : l.pendingOpen = true
      · rw [if_pos opener]
        rw [pending] at opener
        exact inserted_openBlock (m := { l with position := l.position.count l.text }) laid.sourced
          tracks laid.offset rfl rfl first contexts blocks laid.nested ⟨last, final, later⟩ outside
          ⟨last, laid.last.trans final, by simpa using opener⟩
      · rw [if_neg opener]
        rw [pending] at opener
        refine inserted_lineTransition (m := { l with position := l.position.count l.text })
          laid.sourced tracks laid.offset rfl rfl first contexts blocks laid.nested
          ⟨last, final, later⟩ outside ?_
        rintro ⟨⟨other, here, opens⟩, -⟩
        rw [laid.last, final] at here
        cases here
        exact opener (by simpa using opens)
    · rw [if_neg starts]
      refine ⟨[], ⟨laid.sourced, laid.tracks, laid.offset, (List.append_nil _).symm, rfl, first,
        ⟨inner, contexts, blocks⟩, laid.nested, ⟨fun _ member => absurd member List.not_mem_nil, ?_,
          fun _ => rfl⟩⟩⟩
      rintro ⟨other, here, later⟩ outside
      rw [final] at here
      cases here
      exact absurd ⟨laid.depth.trans outside, by rw [prevLine, line]; exact later⟩ starts

/-- What the layout inserts is not of the text. -/
theorem filter_virtuals {virtuals : List Token}
    (only : ∀ inserted ∈ virtuals, inserted.kind.IsVirtual = true) :
    virtuals.filter Token.Real = [] :=
  List.filter_eq_nil_iff.mpr fun inserted member => by simp [Token.Real, only inserted member]

/-- A token of the text leaves the blocks. -/
theorem openBlocks_real {tokens : List Token} {inner : List Nat} (real : token.Real = true)
    (blocks : openBlocks text tokens = some inner) :
    openBlocks text (tokens ++ [token]) = some inner := by
  have opens : token.kind ≠ .layoutOpen := by
    intro kind
    rw [Token.Real, kind] at real
    cases real
  have closes : token.kind ≠ .layoutClose := by
    intro kind
    rw [Token.Real, kind] at real
    cases real
  rw [openBlocks_snoc, blocks, Option.bind_some, blockStep_other opens closes]

/-- What the layout does with a token that starts further in the text. -/
theorem Laid.step (laid : Laid text top done behind l)
    (whole : text = behind ++ gap ++ ahead) (place : token.range.start = size (behind ++ gap))
    (real : token.Real = true) (head : done = [] → top = columnAt text token.range.start) :
    ∃ virtuals, (l.step token).out = l.out ++ virtuals ++ [token] ∧
      Laid text top (done ++ [token]) (behind ++ gap) (l.step token) ∧
      Introduces text top done l.out virtuals token := by
  have front : takeBytes (size (behind ++ gap)) text = behind ++ gap := by
    rw [whole, takeBytes_append]
  have moved := laid.advance whole
  have line : (l.position.advance l.text (size (behind ++ gap))).line =
      lineAt text token.range.start := by
    rw [moved.tracks.line, lineAt, place, front]
  obtain ⟨virtuals, inserted⟩ := moved.before whole place head
  obtain ⟨after, contexts, blocks⟩ := inserted.contexts
  have same : l.step token =
      { Layouter.before token
          { l with position := l.position.advance l.text (size (behind ++ gap)) } with
        bracketDepth := bracketsAfter l.bracketDepth token.kind
        pendingOpen := bracketsAfter l.bracketDepth token.kind = 0 && isOpener token.kind
        out := l.out ++ virtuals ++ [token]
        prevLine := lineAt text token.range.start } := by
    rw [Layouter.step]
    simp only [place, inserted.out, inserted.depth, line]
  refine ⟨virtuals, by rw [same], ?_, inserted.introduces⟩
  have opened := openBlocks_real real blocks
  rw [inserted.out] at opened
  have nested := inserted.nested
  rw [same]
  refine ⟨inserted.sourced, inserted.tracks, inserted.offset, ?_, ?_, ?_, .inr ⟨by simp,
    inserted.first, after, contexts, opened⟩, ?_, ?_⟩
  · simp only [List.filter_append, laid.erased, filter_virtuals inserted.introduces.only_virtual,
      List.append_nil, List.filter_cons_of_pos real, List.filter_nil]
  · simp
  · rw [bracketDepth_snoc, ← laid.depth]
  · rw [inserted.out] at nested
    exact nested.snoc opened (inserted.nested.decreasing blocks)
  · intro last final
    rw [List.getLast?_append] at final
    cases final
    rw [bracketDepth_snoc, ← laid.depth]
    exact ⟨rfl, rfl⟩

/-- What holds of the layout of all the tokens of a text, from a place on: what has been handed out
is kept, without what is inserted it is the tokens, the blocks are closed before the end of the file
and are nested, and before each token what is inserted is as it should be. -/
structure Finished (text : List Char) (top : Nat) (done handed tokens out : List Token) : Prop where
  kept : handed <+: out
  erased : out.filter Token.Real = done ++ tokens
  closed : ∃ body last, out = body ++ [last] ∧ last.kind = .eof ∧ openBlocks text body = some []
  nested : Nested text top out
  each : ∀ front token back, tokens = front ++ token :: back → token.kind ≠ .eof →
    ∃ earlier virtuals later, out = earlier ++ virtuals ++ token :: later ∧
      earlier.filter Token.Real = done ++ front ∧
      earlier.getLast? = (done ++ front).getLast? ∧
      Introduces text top (done ++ front) earlier virtuals token

/-- At the end of the file every block is closed. -/
theorem Laid.ends (laid : Laid text top done behind l) (last : token.kind = .eof) :
    Finished text top done l.out [token] (l.run [token]).out := by
  have real : token.Real = true := by rw [Token.Real, last]; rfl
  have each : ∀ front other back, [token] = front ++ other :: back → other.kind ≠ .eof →
      ∃ earlier virtuals later, (l.run [token]).out = earlier ++ virtuals ++ other :: later ∧
        earlier.filter Token.Real = done ++ front ∧
        earlier.getLast? = (done ++ front).getLast? ∧
        Introduces text top (done ++ front) earlier virtuals other := by
    intro front other back split otherwise
    cases front with
    | nil =>
      cases split
      exact absurd last otherwise
    | cons first front =>
      have size := congrArg List.length split
      simp at size
  obtain ⟨virtuals, only, out, blocks, nested⟩ : ∃ virtuals : List Token,
      (∀ inserted ∈ virtuals, inserted.kind.IsVirtual = true) ∧
        (l.run [token]).out = l.out ++ virtuals ++ [token] ∧
        openBlocks text (l.out ++ virtuals) = some [] ∧ Nested text top (l.out ++ virtuals) := by
    rw [Layouter.run, if_pos last]
    rcases laid.started with ⟨-, -, contexts, out⟩ | ⟨-, -, inner, contexts, blocks⟩
    · refine ⟨[], fun _ member => absurd member List.not_mem_nil, ?_, ?_, ?_⟩
      · simp [contexts, Layouter.closeWhile]
      · rw [out]
        rfl
      · rw [List.append_nil]
        exact laid.nested
    · have decreasing := laid.nested.decreasing blocks
      have whole : openBlocks text l.out = some (inner ++ []) := by rwa [List.append_nil]
      obtain ⟨closed, still, -⟩ := close_blocks token.range.start laid.nested whole
        (by rwa [List.append_nil])
      refine ⟨_, replicate_closeAt_virtual _ _, ?_, closed, still⟩
      have all : inner.takeWhile (fun _ => true) = inner :=
        List.takeWhile_eq_self_iff.mpr fun _ _ => rfl
      rw [Layouter.closeWhile_eq _ _ _ contexts, all]
  rw [out] at each ⊢
  refine ⟨by rw [List.append_assoc]; exact List.prefix_append _ _, ?_,
    ⟨_, token, rfl, last, blocks⟩, ?_, each⟩
  · rw [List.filter_append, List.filter_append, laid.erased, filter_virtuals only,
      List.filter_cons_of_pos real]
    simp
  · exact nested.snoc (openBlocks_real real blocks) (nested.decreasing blocks)

/-- The layout of the tokens that are left. -/
theorem Laid.run (laid : Laid text top done behind l) {rest : List Char}
    (whole : text = behind ++ rest) {tokens : List Token} (last : token.kind = .eof)
    (along : Along behind rest ((tokens ++ [token]).map fun token => token.range.start))
    (real : ∀ other ∈ tokens, other.kind.IsVirtual = false ∧ other.kind ≠ .eof)
    (head : done = [] → ∀ first, tokens.head? = some first →
      top = columnAt text first.range.start) :
    Finished text top done l.out (tokens ++ [token]) (l.run (tokens ++ [token])).out := by
  induction tokens generalizing done behind rest l with
  | nil => exact laid.ends last
  | cons first tokens ih =>
    obtain ⟨kind, more⟩ := real first List.mem_cons_self
    have first_real : first.Real = true := by rw [Token.Real, kind]; rfl
    rw [List.cons_append, List.map_cons] at along
    cases along with
    | @cons _ gap rest _ _ place along =>
      have whole' : text = behind ++ gap ++ rest := by rw [whole, List.append_assoc]
      obtain ⟨virtuals, out, after, introduces⟩ :=
        laid.step whole' place first_real fun unstarted => head unstarted first rfl
      have finished := ih after whole' along
        (fun other member => real other (List.mem_cons_of_mem _ member))
        (fun unstarted => absurd unstarted (by simp))
      rw [List.cons_append, Layouter.run, if_neg more]
      refine ⟨?_, ?_, finished.closed, finished.nested, ?_⟩
      · refine List.IsPrefix.trans ?_ finished.kept
        rw [out, List.append_assoc]
        exact List.prefix_append _ _
      · rw [finished.erased]
        simp
      · intro front other back split otherwise
        cases front with
        | nil =>
          rw [List.nil_append, List.cons.injEq] at split
          obtain ⟨rfl, -⟩ := split
          obtain ⟨later, same⟩ := finished.kept
          rw [out] at same
          refine ⟨l.out, virtuals, later, ?_, ?_, ?_, ?_⟩
          · rw [← same]
            simp
          · rw [laid.erased, List.append_nil]
          · rw [laid.last, List.append_nil]
          · rwa [List.append_nil]
        | cons earliest front =>
          rw [List.cons_append, List.cons.injEq] at split
          obtain ⟨rfl, split⟩ := split
          obtain ⟨earlier, inserted, later, same, erased, final, known⟩ :=
            finished.each front other back split otherwise
          refine ⟨earlier, inserted, later, same, ?_, ?_, ?_⟩
          · simpa using erased
          · simpa using final
          · simpa using known

end Step

/-- At the start of a text the layout has handled no tokens. -/
theorem laid_start (source : SourceId) (text : List Char) (top : Nat) :
    Laid text top [] [] ⟨source, text, .new, [], [], [], 0, false, 0, true⟩ :=
  ⟨rfl, PositionCursor.tracks_new, rfl, rfl, rfl, rfl, .inl ⟨rfl, rfl, rfl, rfl⟩, nested_nil _ _,
    fun _ final => nomatch final⟩

/-- The layout of a text only inserts tokens. The blocks that they open and close are nested, with
columns that increase from that of the first token on, and are closed before the end of the file.
Before a token that starts a line outside brackets the blocks are closed whose columns exceed its
own, and items are separated when it starts one; before the others nothing is inserted. The cursor
has the line and the column of each token that it comes to, whatever columns it is asked for. -/
theorem offside (source : SourceId) (text : List Char) :
    (layout source text (lex source text).tokens).tokens.filter Token.Real =
      (lex source text).tokens ∧
    (∃ body last, (layout source text (lex source text).tokens).tokens = body ++ [last] ∧
      last.kind = .eof ∧ openBlocks text body = some []) ∧
    (∃ top, (∀ first, (lex source text).tokens.head? = some first → first.kind ≠ .eof →
        top = columnAt text first.range.start) ∧
      Nested text top (layout source text (lex source text).tokens).tokens ∧
      ∀ front token back, (lex source text).tokens = front ++ token :: back → token.kind ≠ .eof →
        ∃ earlier virtuals later,
          (layout source text (lex source text).tokens).tokens =
            earlier ++ virtuals ++ token :: later ∧
          earlier.filter Token.Real = front ∧ earlier.getLast? = front.getLast? ∧
          Introduces text top front earlier virtuals token) ∧
    ∀ (front : List (Token × Bool)) (token : Token) (back : List Token),
      (lex source text).tokens = front.map Prod.fst ++ token :: back →
      ((PositionCursor.new.follow text (front.map fun asked =>
        (asked.1.range.start, asked.2))).advance text token.range.start).line =
          lineAt text token.range.start ∧
      (((PositionCursor.new.follow text (front.map fun asked =>
        (asked.1.range.start, asked.2))).advance text token.range.start).count text).column =
          columnAt text token.range.start := by
  have lexes := lex_lexes source text
  have along := lexes.along
  obtain ⟨tokens, same, real⟩ := lexes.ends
  rw [same] at along ⊢
  obtain ⟨top, head⟩ : ∃ top, ∀ first, tokens.head? = some first →
      top = columnAt text first.range.start := by
    cases tokens with
    | nil => exact ⟨0, fun first here => nomatch here⟩
    | cons first tokens => exact ⟨_, fun other here => by cases here; rfl⟩
  have finished := (laid_start source text top).run rfl rfl along real fun _ => head
  refine ⟨finished.erased, finished.closed, ⟨top, ?_, finished.nested, finished.each⟩, ?_⟩
  · intro first here more
    cases tokens with
    | nil =>
      cases here
      exact absurd rfl more
    | cons other tokens => exact head first here
  · intro front token back split
    rw [split, List.map_append, List.map_map] at along
    have shape : Along [] text ((front.map fun asked => (asked.1.range.start, asked.2)).map
        Prod.fst ++ token.range.start :: back.map fun token => token.range.start) := by
      rw [List.map_map]
      exact along
    exact PositionCursor.tracks_new.follow rfl rfl shape

end Fai.Syntax
