import FaiVerif.Lib.Fueled
import FaiVerif.Regex.Internal

/-!
# Iteration

A cursor stands at a position of its source with the end of its last match. One call of `next` ends
the iteration when no match follows, hands out the first match that follows, or reports a limit.
Calls one after another hand out a chain of matches.
-/

namespace Fai.Regex

open Spans (First Chain)

/-- A span covers a piece of a source: its bytes, and in text the characters that these encode. -/
structure Covers (source : Source) (piece : Nat × Nat) (span : TextSpan) : Prop where
  startByte : span.startByte = piece.1
  endByte : span.endByte = piece.2
  forward : piece.1 ≤ piece.2 ∧ piece.2 ≤ source.bytes.length
  characters : ∀ text, source = .text text → ∃ front middle back,
    text = front ++ (middle ++ back) ∧ piece.1 = (Utf8.encode front).length ∧
      piece.2 = (Utf8.encode (front ++ middle)).length ∧ span.startChar = front.length ∧
        span.endChar = (front ++ middle).length

/-- The end of the last match as the cursor keeps it. -/
def lastByte : Option Nat → Int
  | none => -1
  | some e => e

/-- A cursor stands at a position, counts from a base, and has a last match. -/
structure Cursor.At (cursor : Cursor) (base start : Nat) (last : Option Nat) : Prop where
  mode : cursor.source.isBinary = cursor.regex.binary
  small : cursor.source.bytes.length ≤ cursor.limits.maxInputBytes
  size : cursor.size = cursor.source.bytes.length
  baseByte : cursor.baseByte = base
  nextByte : cursor.nextByte = start
  order : base ≤ start
  anchored : cursor.regex.program.Starts cursor.source.bytes base
  starts : cursor.regex.program.Starts cursor.source.bytes start
  baseChar : cursor.regex.program.binary = false →
    cursor.baseChar = Utf8.scalars (Spans.slice 0 base cursor.source.bytes)
  lastEnd : cursor.lastEnd = lastByte last
  ended : cursor.done = true → start = cursor.source.bytes.length ∧ last = some start

/-- The scalars before a cut are its characters in front. -/
theorem scalars_cut {text front back : List Char} {i : Nat} (cut : Utf8.Cut text i front back) :
    Utf8.scalars (Spans.slice 0 i (Utf8.encode text)) = front.length := by
  obtain ⟨rfl, rfl⟩ := cut
  rw [Spans.slice, List.drop_zero, Nat.sub_zero, Utf8.encode_append, List.take_left,
    Utf8.scalars_encode]

/-- A search of a source is a search of its bytes in its mode. -/
theorem search_ok {limits : Limits} {regex : Compiled} {source : Source} {start baseByte : Int}
    {captures : Bool} {spans : List Engine.Span} (mode : source.isBinary = regex.binary)
    (found : Engine.find regex.program source.bytes start captures baseByte limits.maxInputBytes
      regex.program.binary = .ok spans) (baseChar : Int) :
    search limits regex source start baseByte baseChar captures = if spans.isEmpty then .ok none
      else .ok (some ⟨spans.map (span baseChar), regex, source⟩) := by
  rw [regex.mode, ← mode] at found
  cases source with
  | text value =>
    have asked : Engine.findText regex.program value start captures baseByte limits.maxInputBytes =
        .ok spans := found
    rw [search, asked]
  | binary value =>
    have asked : Engine.findBytes regex.program value start captures baseByte
        limits.maxInputBytes = .ok spans := found
    rw [search, asked]

/-- The size of a source is that of its bytes. -/
theorem sourceSize_eq (source : Source) : sourceSize source = .ok (source.bytes.length : Int) := by
  cases source with
  | text value => rw [sourceSize, Engine.byteIndex_zero]; rfl
  | binary value => rfl

section Next

variable {matchAt : Nat → Option Nat} {cursor : Cursor} {base start : Nat} {last : Option Nat}

/-- A span on the wire, counted on from the base of the cursor, covers its piece. -/
theorem Cursor.At.covers (at_ : cursor.At base start last) {a b : Nat} (after : base ≤ a)
    (forward : a ≤ b) (first : cursor.regex.program.Starts cursor.source.bytes a)
    (second : cursor.regex.program.Starts cursor.source.bytes b) :
    ∃ covering, span cursor.baseChar (cursor.regex.program.wire cursor.source.bytes base
      (some (a, b))) = some covering ∧ Covers cursor.source (a, b) covering := by
  have nonneg : ¬ ((a : Int) < 0) := by omega
  refine ⟨_, if_neg nonneg, rfl, rfl, ⟨forward, second.1⟩, ?_⟩
  intro text isText
  have mode : cursor.regex.program.binary = false := by
    rw [cursor.regex.mode, ← at_.mode, isText]
    rfl
  have bytes : cursor.source.bytes = Utf8.encode text := by rw [isText]; rfl
  have atFirst := first.2 mode
  have atSecond := second.2 mode
  rw [bytes, Utf8.boundary_encode] at atFirst atSecond
  obtain ⟨front, behind, cutFirst⟩ := atFirst
  obtain ⟨front', back, cutSecond⟩ := atSecond
  obtain ⟨middle, rfl, rfl, -⟩ := cutFirst.between cutSecond forward
  have counted (i : Nat) (beyond : base ≤ i) :
      cursor.baseChar + (cursor.regex.program.charAt cursor.source.bytes base i : Nat) =
        Utf8.scalars (Spans.slice 0 i (Utf8.encode text)) := by
    have total := Engine.scalars_slice (Nat.zero_le base) beyond (Utf8.encode text)
    rw [Engine.Program.charAt, if_neg (by rw [mode]; exact Bool.false_ne_true), at_.baseChar mode,
      bytes]
    omega
  refine ⟨front, middle, back, cutFirst.1, cutFirst.2, cutSecond.2, ?_, ?_⟩
  · exact (counted a after).trans (congrArg Nat.cast (scalars_cut cutFirst))
  · exact (counted b (Nat.le_trans after forward)).trans (congrArg Nat.cast (scalars_cut cutSecond))

/-- The captures of a match: a covering span for each group that takes part, the match first. -/
structure Captures.Of (found : Captures) (regex : Compiled) (source : Source) (m : Nat × Nat) :
    Prop where
  regex_eq : found.regex = regex
  source_eq : found.source = source
  whole : Covers source m (whole found).span
  inside : ∀ group, some group ∈ found.groups →
    ∃ piece, Covers source piece group ∧ m.1 ≤ piece.1 ∧ piece.2 ≤ m.2

/-- The spans that the engine answers with are the captures of its match. -/
theorem Cursor.At.captures (at_ : cursor.At base start last) {m : Nat × Nat}
    {groups : List (Option (Nat × Nat))} (after : base ≤ m.1)
    (answers : Engine.Answers cursor.regex.program cursor.source.bytes m groups) :
    Captures.Of ⟨(groups.map (cursor.regex.program.wire cursor.source.bytes base)).map
      (span cursor.baseChar), cursor.regex, cursor.source⟩ cursor.regex cursor.source m := by
  refine ⟨rfl, rfl, ?_, ?_⟩
  · have head := answers.head
    cases groups with
    | nil => cases head
    | cons group groups =>
      rw [List.head?_cons, Option.some.injEq] at head
      subst head
      obtain ⟨-, forward, -, first, second⟩ := answers.inside m List.mem_cons_self
      obtain ⟨covering, spanned, covers⟩ := at_.covers after forward first second
      have here : (whole ⟨((some m :: groups).map (cursor.regex.program.wire
          cursor.source.bytes base)).map (span cursor.baseChar), cursor.regex,
          cursor.source⟩).span = covering := by
        rw [whole]
        simp only [List.map_cons, List.getElem?_cons_zero, Option.getD_some]
        rw [spanned, Option.getD_some]
      rw [here]
      exact covers
  · intro group listed
    simp only [List.map_map, List.mem_map, Function.comp_apply] at listed
    obtain ⟨piece, member, spanned⟩ := listed
    cases piece with
    | none =>
      rw [Engine.Program.wire, span, if_pos (by decide)] at spanned
      cases spanned
    | some piece =>
      obtain ⟨low, forward, high, first, second⟩ := answers.inside piece member
      obtain ⟨covering, other, covers⟩ :=
        at_.covers (Nat.le_trans after low) forward first second
      rw [spanned] at other
      obtain rfl := Option.some.inj other
      exact ⟨piece, covers, low, high⟩

/-- A search of the cursor finds the leftmost match from its position on. -/
theorem Cursor.At.search (at_ : cursor.At base start last)
    (sound : Engine.Leftmost cursor.regex.program cursor.source.bytes matchAt) :
    (cursor.regex.program.searchWith cursor.source.bytes start = none ∧
      search cursor.limits cursor.regex cursor.source cursor.nextByte cursor.baseByte
        cursor.baseChar cursor.captures = .ok none) ∨
    ∃ m found, cursor.regex.program.searchWith cursor.source.bytes start = some m ∧
      found.Of cursor.regex cursor.source m ∧
      search cursor.limits cursor.regex cursor.source cursor.nextByte cursor.baseByte
        cursor.baseChar cursor.captures = .ok (some found) := by
  rw [at_.nextByte, at_.baseByte]
  rcases Engine.find_spec sound at_.starts at_.anchored at_.order at_.small cursor.captures with
    ⟨absent, empty⟩ | ⟨m, groups, present, answers, spans⟩
  · exact Or.inl ⟨absent, search_ok at_.mode empty _⟩
  · obtain ⟨after, -, -⟩ := (sound.leftmost start at_.starts m.1 m.2).mp present
    have some_group : ¬ (groups.map
        (cursor.regex.program.wire cursor.source.bytes base)).isEmpty = true := by
      have head := answers.head
      cases groups with
      | nil => cases head
      | cons group groups => exact Bool.false_ne_true
    refine Or.inr ⟨m, _, present, at_.captures (Nat.le_trans at_.order after) answers, ?_⟩
    rw [search_ok at_.mode spans, if_neg some_group]

/-- One call hands out the captures of a match and stands behind it. -/
structure Hands (cursor : Cursor) (m : Nat × Nat) (found : Captures) (rest : Cursor) : Prop where
  captures : found.Of cursor.regex cursor.source m
  stands : rest.At m.2 m.2 (some m.2)
  regex_eq : rest.regex = cursor.regex
  source_eq : rest.source = cursor.source
  limits_eq : rest.limits = cursor.limits
  budget : 0 < cursor.remaining
  remaining : rest.remaining = cursor.remaining - 1
  crowd : found.groups.length ≤ cursor.slots
  slots : rest.slots = cursor.slots - found.groups.length

/-- What a call of `next` may give at a position: the end when no match follows, the first match
that follows, or the failure of a limit that this match would exceed. -/
inductive Outcome (matchAt : Nat → Option Nat) (cursor : Cursor) (last : Option Nat) (start : Nat) :
    Except Error (Option (Captures × Cursor)) → Prop where
  | ended (finished : ∀ a b, ¬ First matchAt last start a b) :
      Outcome matchAt cursor last start (.ok none)
  | spent {m : Nat × Nat} (first : First matchAt last start m.1 m.2)
      (budget : cursor.remaining ≤ 0) :
      Outcome matchAt cursor last start (.error ⟨.resultLimit, "match result limit exceeded"⟩)
  | crowded {m : Nat × Nat} {found : Captures} (first : First matchAt last start m.1 m.2)
      (captures : found.Of cursor.regex cursor.source m) (budget : 0 < cursor.remaining)
      (slots : found.groups.length > cursor.slots) :
      Outcome matchAt cursor last start (.error ⟨.captureLimit, "capture slot limit exceeded"⟩)
  | handed {m : Nat × Nat} {found : Captures} {rest : Cursor}
      (first : First matchAt last start m.1 m.2) (hands : Hands cursor m found rest) :
      Outcome matchAt cursor last start (.ok (some (found, rest)))

/-- A match that is handed out leaves the cursor behind it, unless a limit is exceeded. -/
theorem Cursor.At.hand (at_ : cursor.At base start last)
    (sound : Engine.Leftmost cursor.regex.program cursor.source.bytes matchAt) {m : Nat × Nat}
    {found : Captures} {from_ : Nat} (first : First matchAt last from_ m.1 m.2)
    (captures : found.Of cursor.regex cursor.source m) :
    Outcome matchAt cursor last from_ (cursor.hand found) := by
  rw [Cursor.hand]
  by_cases budget : cursor.remaining ≤ 0
  · rw [if_pos budget]
    exact .spent first budget
  rw [if_neg budget]
  by_cases slots : found.groups.length > cursor.slots
  · rw [if_pos slots]
    exact .crowded first captures (Int.not_le.mp budget) slots
  rw [if_neg slots]
  have covers := captures.whole
  obtain ⟨-, starts⟩ := sound.starts _ _ first.matched
  refine .handed first ⟨captures, ⟨at_.mode, at_.small, at_.size, covers.endByte, covers.endByte,
    Nat.le_refl _, starts, starts, ?_, covers.endByte, ?_⟩, rfl, rfl, rfl,
    Int.not_le.mp budget, rfl, Int.not_lt.mp slots, rfl⟩
  · intro mode
    show (whole found).span.endChar = _
    have text : ∃ text, cursor.source = .text text := by
      have textual := at_.mode
      rw [← cursor.regex.mode, mode] at textual
      cases isText : cursor.source with
      | text text => exact ⟨text, rfl⟩
      | binary bytes =>
        rw [isText] at textual
        cases textual
    obtain ⟨text, isText⟩ := text
    obtain ⟨front, middle, back, parts, -, finish, -, count⟩ := covers.characters text isText
    have cut : Utf8.Cut text m.2 (front ++ middle) back :=
      ⟨by rw [parts, List.append_assoc], finish⟩
    rw [count, isText]
    exact congrArg Nat.cast (scalars_cut cut).symm
  · intro done
    simp only [Bool.and_eq_true, decide_eq_true_eq] at done
    have final := done.2
    rw [covers.endByte, at_.size] at final
    exact ⟨by exact_mod_cast final, rfl⟩

/-- The boundary after so many positions is found within more attempts. -/
theorem nextBoundary_spec {text : List Char} {candidate k attempts : Nat} (short : k < attempts)
    (here : Utf8.boundary (Utf8.encode text) (candidate + k) = true)
    (before : ∀ l < k, Utf8.boundary (Utf8.encode text) (candidate + l) = false) :
    nextBoundary text candidate attempts = .ok (candidate + k : Nat) := by
  induction attempts generalizing candidate k with
  | zero => exact absurd short (Nat.not_lt_zero k)
  | succ attempts hypothesis =>
    have probe := Engine.slice_boundary text candidate
    cases k with
    | zero =>
      rw [Nat.add_zero] at here ⊢
      rw [if_pos here] at probe
      rw [nextBoundary, probe]
      rfl
    | succ k =>
      have inside := before 0 (Nat.succ_pos k)
      rw [Nat.add_zero] at inside
      rw [inside, if_neg Bool.false_ne_true] at probe
      obtain ⟨failed, refused⟩ := probe
      rw [nextBoundary, refused]
      have shift (l : Nat) : candidate + (l + 1) = candidate + 1 + l := by omega
      rw [shift] at here ⊢
      apply hypothesis (by omega) here
      intro l below
      rw [← shift]
      exact before (l + 1) (by omega)

/-- The position after another is the next one where a search may start. -/
theorem advance_spec {regex : Compiled} {source : Source} (mode : source.isBinary = regex.binary)
    {i : Nat} (starts : regex.program.Starts source.bytes i) (inside : i < source.bytes.length) :
    ∃ j : Nat, advance source i = .ok (j : Int) ∧ i < j ∧ regex.program.Starts source.bytes j ∧
      ∀ q, i < q → q < j → ¬ regex.program.Starts source.bytes q := by
  rw [← regex.mode] at mode
  cases source with
  | binary bytes =>
    refine ⟨i + 1, rfl, Nat.lt_succ_self i, ⟨inside, fun textual => ?_⟩, fun q above below => ?_⟩
    · rw [textual] at mode
      cases mode
    · omega
  | text text =>
    obtain ⟨front, back, cut⟩ := Utf8.boundary_encode.mp (starts.2 mode.symm)
    obtain ⟨rfl, rfl⟩ := cut
    cases back with
    | nil =>
      rw [List.append_nil] at inside
      exact absurd inside (Nat.lt_irrefl _)
    | cons char back =>
      have bytes := String.length_utf8EncodeChar char
      have present := Char.utf8Size_pos char
      have short := Char.utf8Size_le_four char
      have next : Utf8.Cut (front ++ char :: back)
          ((Utf8.encode front).length + 1 + (char.utf8Size - 1)) (front ++ [char]) back := by
        refine ⟨by simp, ?_⟩
        rw [Utf8.encode_append, List.length_append, Utf8.encode_cons, Utf8.encode_nil,
          List.append_nil, bytes]
        omega
      -- a boundary beyond the cut lies beyond the next character
      have beyond (q : Nat) (above : (Utf8.encode front).length < q)
          (boundary : Utf8.boundary (Utf8.encode (front ++ char :: back)) q = true) :
          (Utf8.encode front).length + char.utf8Size ≤ q := by
        obtain ⟨front', back', cut'⟩ := Utf8.boundary_encode.mp boundary
        obtain ⟨middle, ahead, behind, -⟩ :=
          Utf8.Cut.between ⟨rfl, rfl⟩ cut' (Nat.le_of_lt above)
        have place := cut'.2
        cases middle with
        | nil =>
          rw [ahead, List.append_nil] at place
          omega
        | cons first middle =>
          rw [List.cons_append, List.cons.injEq] at behind
          rw [ahead, Utf8.encode_append, List.length_append, Utf8.encode_cons, ← behind.1,
            List.length_append, bytes] at place
          omega
      have before (l : Nat) (below : l < char.utf8Size - 1) : Utf8.boundary
          (Utf8.encode (front ++ char :: back)) ((Utf8.encode front).length + 1 + l) = false := by
        rw [Bool.eq_false_iff]
        intro boundary
        have far := beyond _ (by omega) boundary
        omega
      have here := Utf8.boundary_encode.mpr ⟨_, _, next⟩
      refine ⟨(Utf8.encode front).length + 1 + (char.utf8Size - 1),
        nextBoundary_spec (by omega) here before, by omega, ⟨next.le, fun _ => here⟩, ?_⟩
      · intro q above below starts
        have far := beyond q above (starts.2 mode.symm)
        omega

/-- What a call gives does not depend on the position that it searches from. -/
theorem Outcome.moved {position : Int}
    {outcome : Except Error (Option (Captures × Cursor))}
    (given : Outcome matchAt { cursor with nextByte := position } last start outcome) :
    Outcome matchAt cursor last start outcome := by
  cases given with
  | ended finished => exact .ended finished
  | spent first budget => exact .spent first budget
  | crowded first captures budget slots => exact .crowded first captures budget slots
  | handed first hands =>
    exact .handed first ⟨hands.captures, hands.stands, hands.regex_eq, hands.source_eq,
      hands.limits_eq, hands.budget, hands.remaining, hands.crowd, hands.slots⟩

/-- A call that does not find the empty match at the end of the last one gives what it finds. -/
theorem Cursor.At.next_found (at_ : cursor.At base start last)
    (sound : Engine.Leftmost cursor.regex.program cursor.source.bytes matchAt)
    (going : ¬ cursor.done = true) (from_ : Nat)
    (first : ∀ m, cursor.regex.program.searchWith cursor.source.bytes start = some m →
      First matchAt last from_ m.1 m.2)
    (absent : cursor.regex.program.searchWith cursor.source.bytes start = none →
      ∀ a b, ¬ First matchAt last from_ a b) :
    ∃ outcome, (∀ fuel, next (fuel + 1) cursor = some outcome) ∧
      Outcome matchAt cursor last from_ outcome := by
  rcases at_.search sound with ⟨nothing, searched⟩ | ⟨m, found, present, captures, searched⟩
  · refine ⟨.ok none, fun fuel => ?_, .ended (absent nothing)⟩
    rw [next, if_neg going, searched]
  · have here := first m present
    have fresh : ¬ ((whole found).span.startByte = (whole found).span.endByte ∧
        cursor.lastEnd = (whole found).span.endByte) := by
      rw [captures.whole.startByte, captures.whole.endByte, at_.lastEnd]
      rintro ⟨empty, recent⟩
      have same : m.1 = m.2 := by exact_mod_cast empty
      cases last with
      | none =>
        rw [lastByte] at recent
        omega
      | some e =>
        have ends : e = m.2 := Int.ofNat_inj.mp recent
        exact here.fresh ⟨same, by rw [ends, same]⟩
    refine ⟨cursor.hand found, fun fuel => ?_, at_.hand sound here captures⟩
    rw [next, if_neg going, searched]
    simp only
    rw [if_neg fresh]

/-- Nothing follows the empty match at the end of the source. -/
theorem not_first_end (sound : Engine.Leftmost cursor.regex.program cursor.source.bytes matchAt)
    (final : start = cursor.source.bytes.length) (recent : last = some start) (a b : Nat) :
    ¬ First matchAt last start a b := by
  intro first
  obtain ⟨forward, bounded⟩ := sound.forward _ _ first.matched
  have after := first.after
  have place : a = start := by omega
  exact first.fresh ⟨by omega, by rw [recent, place]⟩

/-- A call of `next` returns: it ends when no match follows, hands out the first match that follows,
or reports a limit that this match exceeds. -/
theorem next_spec (at_ : cursor.At base start last)
    (sound : Engine.Leftmost cursor.regex.program cursor.source.bytes matchAt)
    (recent : ∀ e, last = some e → e = start) :
    ∃ outcome, (∀ fuel, next (fuel + 2) cursor = some outcome) ∧
      Outcome matchAt cursor last start outcome := by
  by_cases done : cursor.done = true
  · obtain ⟨final, ended⟩ := at_.ended done
    refine ⟨.ok none, fun fuel => ?_, .ended (not_first_end sound final ended)⟩
    rw [next, if_pos done]
  by_cases stuck : ∃ m, cursor.regex.program.searchWith cursor.source.bytes start = some m ∧
      m.1 = m.2 ∧ last = some m.2
  · obtain ⟨m, present, empty, ended⟩ := stuck
    have here : m.2 = start := recent _ ended
    rcases at_.search sound with ⟨nothing, -⟩ | ⟨m', found, present', captures, searched⟩
    · rw [present] at nothing
      cases nothing
    rw [present, Option.some.injEq] at present'
    subst present'
    have again : (whole found).span.startByte = (whole found).span.endByte ∧
        cursor.lastEnd = (whole found).span.endByte := by
      rw [captures.whole.startByte, captures.whole.endByte, at_.lastEnd, ended, empty]
      exact ⟨rfl, rfl⟩
    obtain ⟨-, matched, -⟩ := (sound.leftmost start at_.starts m.1 m.2).mp present
    rw [empty, here] at matched
    have inside := at_.starts.1
    by_cases final : start = cursor.source.bytes.length
    · refine ⟨.ok none, fun fuel => ?_, .ended (not_first_end sound final (by rw [ended, here]))⟩
      have limit : (whole found).span.endByte ≥ cursor.size := by
        have ends := captures.whole.endByte
        have size := at_.size
        omega
      rw [next, if_neg done, searched]
      simp only
      rw [if_pos again, if_pos limit]
    · obtain ⟨j, advanced, above, starts, none_between⟩ :=
        advance_spec at_.mode at_.starts (by omega)
      have going : ¬ (whole found).span.endByte ≥ cursor.size := by
        rw [captures.whole.endByte, at_.size, here]
        omega
      have moved : Cursor.At { cursor with nextByte := j } base j last :=
        ⟨at_.mode, at_.small, at_.size, at_.baseByte, rfl,
          Nat.le_trans at_.order (Nat.le_of_lt above), at_.anchored, starts, at_.baseChar,
          at_.lastEnd, fun ended => absurd ended done⟩
      -- from the position on, the matches beyond the empty one are those from the next position on
      have beyond {p e : Nat} (after : start ≤ p) (other : matchAt p = some e) :
          p = start ∧ e = start ∨ j ≤ p := by
        by_cases same : p = start
        · subst same
          exact Or.inl ⟨rfl, Option.some.inj (other.symm.trans matched)⟩
        · refine Or.inr (Nat.le_of_not_lt fun below => ?_)
          exact none_between p (by omega) below (sound.starts p e other).1
      obtain ⟨outcome, gives, given⟩ := moved.next_found sound done start
        (fun m' found' => by
          obtain ⟨after, matched', least⟩ := (sound.leftmost j starts m'.1 m'.2).mp found'
          refine ⟨by omega, matched', ?_, ?_⟩
          · rintro ⟨-, ended'⟩
            rw [ended, Option.some.injEq] at ended'
            omega
          · intro p from_start below e other
            rcases beyond from_start other with ⟨rfl, rfl⟩ | later
            · exact ⟨rfl, by rw [ended, here]⟩
            · rw [least p later below] at other
              cases other)
        (fun nothing a b first => by
          rcases beyond first.after first.matched with ⟨rfl, rfl⟩ | later
          · exact first.fresh ⟨rfl, by rw [ended, here]⟩
          · have absent := sound.none starts nothing later
            have other := first.matched
            rw [absent] at other
            cases other)
      refine ⟨outcome, fun fuel => ?_, given.moved⟩
      rw [next, if_neg done, searched]
      simp only
      rw [if_pos again, if_neg going, captures.whole.endByte, here, advanced]
      exact gives fuel
  · obtain ⟨outcome, gives, given⟩ := at_.next_found sound done start
      (fun m present => by
        obtain ⟨after, matched, least⟩ := (sound.leftmost start at_.starts m.1 m.2).mp present
        refine ⟨after, matched, ?_, fun p from_start below e other => ?_⟩
        · rintro ⟨empty, ended⟩
          exact stuck ⟨m, present, empty, by rw [ended, empty]⟩
        · rw [least p from_start below] at other
          cases other)
      (fun nothing a b first => by
        have absent := sound.none at_.starts nothing first.after
        have matched := first.matched
        rw [absent] at matched
        cases matched)
    exact ⟨outcome, fun fuel => gives (fuel + 1), given⟩

/-- A first match ends beyond the position, but for an empty one where nothing was found yet. -/
theorem first_advances (sound : Engine.Leftmost cursor.regex.program cursor.source.bytes matchAt)
    (recent : ∀ e, last = some e → e = start) {a b : Nat} (first : First matchAt last start a b) :
    start + (if last.isNone then 0 else 1) ≤ b ∧ b ≤ cursor.source.bytes.length := by
  obtain ⟨forward, bounded⟩ := sound.forward _ _ first.matched
  have after := first.after
  cases last with
  | none => exact ⟨by simpa using Nat.le_trans after forward, bounded⟩
  | some e =>
    obtain rfl := recent e rfl
    refine ⟨?_, bounded⟩
    by_contra stuck
    simp only [Option.isNone_some, Bool.false_eq_true, if_false] at stuck
    have place : a = e := by omega
    exact first.fresh ⟨by omega, by rw [place]⟩

/-- What each call keeps, when the calls after it do, holds from every cursor on: calls advance. -/
theorem Cursor.At.induction {motive : Cursor → Option Nat → Nat → Prop}
    (step : ∀ {cursor : Cursor} {base start : Nat} {last : Option Nat}
      {outcome : Except Error (Option (Captures × Cursor))}, cursor.At base start last →
      Engine.Leftmost cursor.regex.program cursor.source.bytes matchAt →
      (∀ fuel, next (fuel + 2) cursor = some outcome) → Outcome matchAt cursor last start outcome →
      (∀ m found rest, outcome = .ok (some (found, rest)) → First matchAt last start m.1 m.2 →
        Hands cursor m found rest → motive rest (some m.2) m.2) → motive cursor last start)
    (at_ : cursor.At base start last)
    (sound : Engine.Leftmost cursor.regex.program cursor.source.bytes matchAt)
    (recent : ∀ e, last = some e → e = start) : motive cursor last start := by
  generalize measured : cursor.source.bytes.length - start + (if last.isNone then 1 else 0) = left
  induction left using Nat.strongRecOn generalizing cursor base start last with
  | ind left hypothesis =>
    obtain ⟨outcome, gives, given⟩ := next_spec at_ sound recent
    apply step at_ sound gives given
    intro m found rest handed first hands
    have advances := first_advances sound recent first
    have sound' : Engine.Leftmost rest.regex.program rest.source.bytes matchAt := by
      rw [hands.regex_eq, hands.source_eq]
      exact sound
    refine hypothesis _ ?_ hands.stands sound' (fun e same => (Option.some.inj same).symm) rfl
    have inside := at_.starts.1
    rw [hands.source_eq]
    cases last with
    | none =>
      simp only [Option.isNone_none, Option.isNone_some, if_true, Bool.false_eq_true,
        if_false] at advances measured ⊢
      omega
    | some e =>
      simp only [Option.isNone_some, Bool.false_eq_true, if_false] at advances measured ⊢
      omega

end Next

end Fai.Regex
