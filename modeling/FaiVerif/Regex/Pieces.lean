import FaiVerif.Regex.Calls

/-!
# Replacement and splitting

Both are loops over a cursor that keep the pieces of the source between the matches. A replacement
joins these with what it puts for the matches; a split gives the pieces themselves.
-/

namespace Fai.Regex

open Spans (First fronts interleave)
open Fueled (Returns)

/-- A source of the mode of another, with the given bytes. -/
structure Holds (source piece : Source) (bytes : List UInt8) : Prop where
  mode : piece.isBinary = source.isBinary
  bytes_eq : piece.bytes = bytes

/-- Sources of one mode are the same when their bytes are. -/
theorem Holds.eq {source piece : Source} (holds : Holds source piece source.bytes) :
    piece = source := by
  obtain ⟨mode, bytes⟩ := holds
  cases source with
  | text value =>
    cases piece with
    | text other => exact congrArg Source.text (Utf8.encode_injective bytes)
    | binary other => cases mode
  | binary value =>
    cases piece with
    | text other => cases mode
    | binary other => exact congrArg Source.binary bytes

/-- The part of a source between two positions where a search may start. -/
theorem slice_spec {regex : Compiled} {source : Source} (mode : source.isBinary = regex.binary)
    {a b : Nat} (first : regex.program.Starts source.bytes a)
    (second : regex.program.Starts source.bytes b) (forward : a ≤ b) :
    ∃ piece, slice source a b = .ok piece ∧ Holds source piece (Spans.slice a b source.bytes) := by
  have range : ¬ ((a : Int) < 0 ∨ (b : Int) < a ∨ (b : Int) > source.bytes.length) := by
    have inside := second.1
    omega
  cases source with
  | binary bytes =>
    refine ⟨.binary (bytesSlice a b bytes), ?_, rfl, rfl⟩
    rw [slice, sourceSize_eq]
    simp only
    rw [if_neg range]
  | text text =>
    have textual : regex.program.binary = false := regex.mode.trans mode.symm
    obtain ⟨front, back, cut⟩ := Utf8.boundary_encode.mp (first.2 textual)
    obtain ⟨front', back', cut'⟩ := Utf8.boundary_encode.mp (second.2 textual)
    obtain ⟨piece, sliced, bytes⟩ := Engine.slice_cuts cut cut' forward
    refine ⟨.text piece, ?_, rfl, bytes⟩
    rw [slice, sourceSize_eq]
    simp only
    rw [if_neg range, sliced]

/-- Chunks joined two by two are the same bytes. -/
theorem flatten_bytePairsInto (chunks output : List (List UInt8)) :
    (bytePairsInto chunks output).flatten = output.reverse.flatten ++ chunks.flatten := by
  fun_induction bytePairsInto chunks output with
  | case1 a b rest output hypothesis => rw [hypothesis]; simp
  | case2 one output => simp
  | case3 output => simp

/-- Chunks are joined to their bytes. -/
theorem joinBytes_eq (chunks : List (List UInt8)) : joinBytes chunks = chunks.flatten := by
  fun_induction joinBytes chunks with
  | case1 => rfl
  | case2 one => simp
  | case3 a b rest hypothesis =>
    rw [hypothesis, bytePairs, flatten_bytePairsInto]
    rfl

/-- Pieces of the mode of a source are joined to a source of that mode with their bytes. -/
theorem join_holds {source : Source} {pieces : List Source}
    (modes : ∀ piece ∈ pieces, piece.isBinary = source.isBinary) :
    Holds source (join source pieces) (pieces.map Source.bytes).flatten := by
  cases source with
  | text value =>
    refine ⟨rfl, ?_⟩
    show Utf8.encode (pieces.map stringOf).flatten = _
    induction pieces with
    | nil => rfl
    | cons piece pieces hypothesis =>
      have first := modes piece List.mem_cons_self
      rw [List.map_cons, List.flatten_cons, Utf8.encode_append,
        hypothesis fun other member => modes other (List.mem_cons_of_mem _ member)]
      cases piece with
      | text text => rfl
      | binary bytes => cases first
  | binary value =>
    refine ⟨rfl, ?_⟩
    show joinBytes (pieces.map bytesOf) = _
    rw [joinBytes_eq]
    refine congrArg List.flatten (List.map_congr_left fun piece member => ?_)
    have same := modes piece member
    cases piece with
    | text text => cases same
    | binary bytes => rfl

/-- What a builder has built: pieces of the mode of a source, with the bytes that it counts. -/
structure Builder.Builds (builder : Builder) (source : Source) (built : List UInt8) : Prop where
  size : builder.bytes = built.length
  modes : ∀ piece ∈ builder.pieces, piece.isBinary = source.isBinary
  bytes_eq : (builder.pieces.reverse.map Source.bytes).flatten = built

/-- A builder with one more piece has built its bytes too. -/
theorem Builder.Builds.concat {builder : Builder} {source piece : Source}
    {built bytes : List UInt8} (builds : builder.Builds source built)
    (holds : Holds source piece bytes) :
    Builds ⟨builder.bytes + bytes.length, piece :: builder.pieces⟩ source (built ++ bytes) := by
  refine ⟨?_, ?_, ?_⟩
  · rw [builds.size, List.length_append]
    exact (Int.natCast_add _ _).symm
  · intro other member
    rcases List.mem_cons.mp member with rfl | member
    · exact holds.mode
    · exact builds.modes other member
  · rw [List.reverse_cons, List.map_append, List.flatten_append, builds.bytes_eq]
    simp only [List.map_cons, List.map_nil, List.flatten_cons, List.flatten_nil, List.append_nil,
      holds.bytes_eq]

/-- What is built is joined to a source with its bytes. -/
theorem Builder.Builds.join {builder : Builder} {source : Source} {built : List UInt8}
    (builds : builder.Builds source built) :
    Holds source (Regex.join source builder.pieces.reverse) built := by
  have joined := @join_holds source builder.pieces.reverse fun piece member =>
    builds.modes piece (List.mem_reverse.mp member)
  rw [builds.bytes_eq] at joined
  exact joined

/-- What an append gives: the failure of the limit when more would be built, and else a builder
that has built that. -/
inductive Appended (limit : Int) (source : Source) (built : List UInt8) :
    Except Error Builder → Prop where
  | beyond (large : limit < built.length) : Appended limit source built (.error outputLimit)
  | put {builder : Builder} (fits : built.length ≤ limit)
      (builds : builder.Builds source built) : Appended limit source built (.ok builder)

/-- A piece is appended, unless the output would exceed its limit. -/
theorem append_spec (limit : Int) {source piece : Source} {builder : Builder}
    {built bytes : List UInt8} (builds : builder.Builds source built)
    (holds : Holds source piece bytes) :
    Appended limit source (built ++ bytes) (append limit piece builder) := by
  rw [append, sourceSize_eq, holds.bytes_eq]
  simp only
  have size := builds.size
  split_ifs with large
  · exact .beyond (by rw [List.length_append]; omega)
  · exact .put (by rw [List.length_append]; omega) (builds.concat holds)

/-- A part of a source is appended, unless the output would exceed its limit. -/
theorem appendRange_spec {regex : Compiled} {source : Source}
    (mode : source.isBinary = regex.binary) {a b : Nat}
    (first : regex.program.Starts source.bytes a) (second : regex.program.Starts source.bytes b)
    (forward : a ≤ b) (limit : Int) {builder : Builder} {built : List UInt8}
    (builds : builder.Builds source built) :
    Appended limit source (built ++ Spans.slice a b source.bytes)
      (appendRange limit source a b builder) := by
  obtain ⟨piece, sliced, holds⟩ := slice_spec mode first second forward
  have size := builds.size
  have range := Spans.length_slice forward second.1
  rw [appendRange, sliced]
  split_ifs with large
  · exact .beyond (by rw [List.length_append]; omega)
  · exact append_spec limit builds holds

section

variable {matchAt : Nat → Option Nat} {cursor : Cursor} {base start : Nat} {last : Option Nat}

/-- A search may start at the end of the source. -/
theorem Cursor.size_starts (cursor : Cursor) :
    cursor.regex.program.Starts cursor.source.bytes cursor.source.bytes.length :=
  ⟨Nat.le_refl _, fun _ => Utf8.boundary_iff.mpr (Or.inl rfl)⟩

section Replace

variable {ε : Type}

/-- A replacement for each match, of the mode of the source. -/
def Replacements (replacement : Captures → Except ε Source) (source : Source)
    (founds : List Captures) (pieces : List Source) : Prop :=
  List.Forall₂ (fun found piece => replacement found = .ok piece ∧
    piece.isBinary = source.isBinary) founds pieces

/-- Where a match lies, as an error reports it. -/
def location (found : Captures) : Option ByteSpan := some ⟨found.place.2, found.place.1⟩

/-- Why a match does not give way to its replacement behind what is built: what is kept before it
exceeds the limit of the output, the replacement fails or is of the other mode, or it exceeds that
limit. -/
inductive Refused (replacement : Captures → Except ε Source) (limit : Int) (source : Source)
    (found : Captures) (start : Nat) (built : List UInt8) : ReplaceCause ε → Prop where
  | kept (beyond : limit < (built ++ Spans.slice start found.place.1 source.bytes).length) :
      Refused replacement limit source found start built (.regexFailure outputLimit)
  | failed {reason : ε}
      (fits : (built ++ Spans.slice start found.place.1 source.bytes).length ≤ limit)
      (given : replacement found = .error reason) :
      Refused replacement limit source found start built (.replacementFailure reason)
  | mode {piece : Source}
      (fits : (built ++ Spans.slice start found.place.1 source.bytes).length ≤ limit)
      (given : replacement found = .ok piece) (other : piece.isBinary ≠ source.isBinary) :
      Refused replacement limit source found start built
        (.regexFailure ⟨.wrongMode, "replacement mode mismatch"⟩)
  | put {piece : Source} (given : replacement found = .ok piece)
      (same : piece.isBinary = source.isBinary)
      (beyond : limit <
        (built ++ Spans.slice start found.place.1 source.bytes ++ piece.bytes).length) :
      Refused replacement limit source found start built (.regexFailure outputLimit)

/-- How a replacement ends at a cursor, behind what is built. Below the maximum it fails with the
iteration, or when the next match does not give way; at the maximum, or when no match follows, it
keeps the rest of the source, unless the output would exceed its limit. -/
inductive Finishes (replacement : Captures → Except ε Source) (maximum : Int)
    (matchAt : Nat → Option Nat) (cursor : Cursor) (last : Option Nat) (start : Nat)
    (completed : Int) (built : List UInt8) : Except (ReplaceError ε) Source → Prop where
  | stopped {reason : Error} (below : completed < maximum)
      (ends : Ends matchAt cursor last start (some reason)) :
      Finishes replacement maximum matchAt cursor last start completed built
        (.error ⟨.regexFailure reason, completed, none⟩)
  | refused {found : Captures} {rest : Cursor} {cause : ReplaceCause ε}
      (below : completed < maximum)
      (gives : Returns (fun fuel => next fuel cursor) (.ok (some (found, rest))))
      (refusal : Refused replacement cursor.limits.maxOutputBytes cursor.source found start built
        cause) :
      Finishes replacement maximum matchAt cursor last start completed built
        (.error ⟨cause, completed, location found⟩)
  | beyond (ends : completed < maximum → Ends matchAt cursor last start none)
      (large : cursor.limits.maxOutputBytes < (built ++ cursor.source.bytes.drop start).length) :
      Finishes replacement maximum matchAt cursor last start completed built
        (.error ⟨.regexFailure outputLimit, completed, none⟩)
  | done {output : Source} (ends : completed < maximum → Ends matchAt cursor last start none)
      (fits : (built ++ cursor.source.bytes.drop start).length ≤ cursor.limits.maxOutputBytes)
      (holds : Holds cursor.source output (built ++ cursor.source.bytes.drop start)) :
      Finishes replacement maximum matchAt cursor last start completed built (.ok output)

/-- A replacement from a cursor on, behind what is built: matches one after another, up to the
maximum, give way to their replacements, what lies between them is kept, and then it ends. -/
def Replaced (replacement : Captures → Except ε Source) (maximum : Int)
    (matchAt : Nat → Option Nat) (cursor : Cursor) (last : Option Nat) (start : Nat)
    (completed : Int) (built : List UInt8) (result : Except (ReplaceError ε) Source) : Prop :=
  ∃ founds final pieces, Calls cursor founds final ∧ completed + founds.length ≤ maximum ∧
    Replacements replacement cursor.source founds pieces ∧
    Finishes replacement maximum matchAt final (lastEnd last founds) (reached start founds)
      (completed + founds.length)
      (built ++ interleave (fronts cursor.source.bytes start (founds.map Captures.place))
        (pieces.map Source.bytes)) result

/-- A replacement that ends at once hands out nothing more. -/
theorem Finishes.replaced {replacement : Captures → Except ε Source} {maximum completed : Int}
    {built : List UInt8} {result : Except (ReplaceError ε) Source} (below : completed ≤ maximum)
    (finishes : Finishes replacement maximum matchAt cursor last start completed built result) :
    Replaced replacement maximum matchAt cursor last start completed built result := by
  refine ⟨[], cursor, [], .none cursor, ?_, .nil, ?_⟩
  · simpa using below
  · simpa [fronts, interleave, lastEnd, reached, Spans.behind] using finishes

/-- The end of a replacement keeps the rest of the source. -/
theorem finishReplacement_spec (replacement : Captures → Except ε Source) {maximum : Int}
    (at_ : cursor.At base start last) {completed : Int} {builder : Builder} {built : List UInt8}
    (builds : builder.Builds cursor.source built) (fresh : completed = 0 → built = [])
    (ends : completed < maximum → Ends matchAt cursor last start none) :
    Finishes replacement maximum matchAt cursor last start completed built
      (finishReplacement cursor completed start builder) := by
  rw [finishReplacement]
  split_ifs with untouched large
  · have zero : start = 0 := by exact_mod_cast untouched.2
    refine .beyond ends ?_
    rw [at_.size] at large
    rw [fresh untouched.1, zero]
    exact large
  · have zero : start = 0 := by exact_mod_cast untouched.2
    rw [at_.size] at large
    refine .done ends ?_ ⟨rfl, ?_⟩
    · rw [fresh untouched.1, zero]
      exact Int.not_lt.mp large
    · rw [fresh untouched.1, zero]
      rfl
  · have rest := appendRange_spec at_.mode at_.starts cursor.size_starts at_.starts.1
      cursor.limits.maxOutputBytes builds
    rw [at_.size]
    rw [Spans.slice_length] at rest
    generalize appendRange cursor.limits.maxOutputBytes cursor.source start
      cursor.source.bytes.length builder = appended at rest
    cases rest with
    | beyond large => exact .beyond ends large
    | put fits builds => exact .done ends fits builds.join

/-- One match gives way to its replacement, behind what lies before it. -/
theorem replaceOne_spec (replacement : Captures → Except ε Source) (at_ : cursor.At base start last)
    (sound : Engine.Leftmost cursor.regex.program cursor.source.bytes matchAt) {m : Nat × Nat}
    {found : Captures} (first : First matchAt last start m.1 m.2)
    (captures : found.Of cursor.regex cursor.source m) (completed : Int) {builder : Builder}
    {built : List UInt8} (builds : builder.Builds cursor.source built) :
    (∃ cause, replaceOne cursor found completed start builder replacement =
        .error ⟨cause, completed, location found⟩ ∧
      Refused replacement cursor.limits.maxOutputBytes cursor.source found start built cause) ∨
    ∃ piece after, replaceOne cursor found completed start builder replacement = .ok after ∧
      replacement found = .ok piece ∧ piece.isBinary = cursor.source.isBinary ∧
      after.Builds cursor.source
        (built ++ Spans.slice start m.1 cursor.source.bytes ++ piece.bytes) := by
  have starts := (sound.starts _ _ first.matched).1
  have kept := appendRange_spec at_.mode at_.starts starts first.after cursor.limits.maxOutputBytes
    builds
  have place := captures.place
  have here : location found = some ⟨(whole found).span.endByte, (whole found).span.startByte⟩ := by
    rw [location, place, captures.whole.startByte, captures.whole.endByte]
  rw [replaceOne, here, captures.whole.startByte]
  generalize appendRange cursor.limits.maxOutputBytes cursor.source start m.1 builder =
    appended at kept
  cases kept with
  | beyond large => exact Or.inl ⟨_, rfl, .kept (by rw [place]; exact large)⟩
  | put fits builds =>
    rw [← place] at fits
    simp only
    cases given : replacement found with
    | error reason => exact Or.inl ⟨_, rfl, .failed fits given⟩
    | ok piece =>
      simp only
      split_ifs with other
      · exact Or.inl ⟨_, rfl, .mode fits given (Ne.symm other)⟩
      · have same : piece.isBinary = cursor.source.isBinary := (not_not.mp other).symm
        have put := append_spec cursor.limits.maxOutputBytes builds ⟨same, rfl⟩
        generalize append cursor.limits.maxOutputBytes piece _ = appended at put
        cases put with
        | beyond large => exact Or.inl ⟨_, rfl, .put given same (by rw [place]; exact large)⟩
        | put _ builds => exact Or.inr ⟨piece, _, rfl, rfl, same, builds⟩

/-- A replacement that goes on behind a match has put its replacement for that match. -/
theorem Replaced.cons {replacement : Captures → Except ε Source} {maximum completed : Int}
    {built : List UInt8} {result : Except (ReplaceError ε) Source} {m : Nat × Nat}
    {found : Captures} {rest : Cursor} {piece : Source}
    (gives : Returns (fun fuel => next fuel cursor) (.ok (some (found, rest))))
    (hands : Hands cursor m found rest) (given : replacement found = .ok piece)
    (mode : piece.isBinary = cursor.source.isBinary)
    (replaced : Replaced replacement maximum matchAt rest (some m.2) m.2 (completed + 1)
      (built ++ Spans.slice start m.1 cursor.source.bytes ++ piece.bytes) result) :
    Replaced replacement maximum matchAt cursor last start completed built result := by
  obtain ⟨founds, final, pieces, calls, count, put_all, finishes⟩ := replaced
  rw [hands.source_eq] at put_all finishes
  have place := hands.captures.place
  refine ⟨found :: founds, final, piece :: pieces, .call gives calls, ?_, .cons ⟨given, mode⟩
    put_all, ?_⟩
  · rw [List.length_cons]
    omega
  · have counted : completed + ((found :: founds).length : Int) =
        completed + 1 + founds.length := by
      rw [List.length_cons]
      omega
    rw [lastEnd_cons, reached_cons, counted, List.map_cons, List.map_cons, fronts, interleave,
      place]
    simpa only [List.append_assoc] using finishes

/-- A replacement from a cursor on returns. -/
theorem replaceLoop_spec (replacement : Captures → Except ε Source) (maximum : Int)
    (at_ : cursor.At base start last)
    (sound : Engine.Leftmost cursor.regex.program cursor.source.bytes matchAt)
    (recent : ∀ e, last = some e → e = start) :
    ∀ completed builder built, builder.Builds cursor.source built → 0 ≤ completed →
      completed ≤ maximum → (completed = 0 → built = []) →
      ∃ result, Returns (fun fuel => replaceLoop replacement maximum fuel cursor completed start
          builder) result ∧
        Replaced replacement maximum matchAt cursor last start completed built result := by
  refine Cursor.At.induction (motive := fun cursor last start => ∀ completed builder built,
    builder.Builds cursor.source built → 0 ≤ completed → completed ≤ maximum →
      (completed = 0 → built = []) →
      ∃ result, Returns (fun fuel => replaceLoop replacement maximum fuel cursor completed start
          builder) result ∧
        Replaced replacement maximum matchAt cursor last start completed built result) ?_ at_ sound
    recent
  intro cursor base start last outcome at_ sound gives given later completed builder built builds
    nonneg below fresh
  have called (fuel : Nat) (enough : fuel ≥ 2) : next fuel cursor = some outcome := by
    obtain ⟨more, rfl⟩ := Nat.exists_eq_add_of_le' enough
    exact gives more
  by_cases complete : completed ≥ maximum
  · have finishes : Finishes replacement maximum matchAt cursor last start completed built
        (finishReplacement cursor completed start builder) :=
      finishReplacement_spec replacement at_ builds fresh fun less =>
        absurd complete (Int.not_le.mpr less)
    refine ⟨_, Returns.succ 0 (fun fuel _ => ?_) (Fueled.returns_const _),
      finishes.replaced below⟩
    rw [replaceLoop, if_pos complete]
  have less : completed < maximum := Int.not_le.mp complete
  have failing (reason : Error) (failed : outcome = .error reason) :
      ∃ result, Returns (fun fuel => replaceLoop replacement maximum fuel cursor completed start
          builder) result ∧
        Replaced replacement maximum matchAt cursor last start completed built result := by
    subst failed
    refine ⟨_, Returns.succ 2 (fun fuel enough => ?_) (Fueled.returns_const _),
      (Finishes.stopped less ⟨returns_next gives, given⟩).replaced below⟩
    rw [replaceLoop, if_neg complete, called fuel enough]
  cases given with
  | ended none_left =>
    have finishes : Finishes replacement maximum matchAt cursor last start completed built
        (finishReplacement cursor completed start builder) :=
      finishReplacement_spec replacement at_ builds fresh fun _ =>
        ⟨returns_next gives, .ended none_left⟩
    refine ⟨_, Returns.succ 2 (fun fuel enough => ?_) (Fueled.returns_const _),
      finishes.replaced below⟩
    rw [replaceLoop, if_neg complete, called fuel enough]
  | spent first budget => exact failing _ rfl
  | crowded first captures budget slots => exact failing _ rfl
  | @handed m found rest first hands =>
    rcases replaceOne_spec replacement at_ sound first hands.captures completed builds with
      ⟨cause, refused, refusal⟩ | ⟨piece, after, put, given, mode, builds'⟩
    · refine ⟨_, Returns.succ 2 (fun fuel enough => ?_) (Fueled.returns_const _),
        (Finishes.refused less (returns_next gives) refusal).replaced below⟩
      rw [replaceLoop, if_neg complete, called fuel enough]
      simp only
      rw [refused]
    · obtain ⟨result, returns, replaced⟩ := later m found rest rfl first hands (completed + 1)
        after _ (by rw [hands.source_eq]; exact builds') (by omega) (by omega)
        (fun impossible => by omega)
      refine ⟨result, Returns.succ 2 (fun fuel enough => ?_) returns,
        .cons (returns_next gives) hands given mode replaced⟩
      rw [replaceLoop, if_neg complete, called fuel enough]
      simp only
      rw [put, hands.captures.whole.endByte]

end Replace

section Split

variable {maximum : Int}

/-- Where the next piece of a split ends: at the end of the source, for the last piece that the
maximum leaves and when no match follows, and else at the start of the next match. -/
inductive Ahead (maximum : Int) (matchAt : Nat → Option Nat) (cursor : Cursor)
    (last : Option Nat) (start : Nat) (pieces : List Source) : Nat → Prop where
  | final (ends : (pieces.length : Int) + 1 < maximum → Ends matchAt cursor last start none) :
      Ahead maximum matchAt cursor last start pieces cursor.source.bytes.length
  | before {found : Captures} {rest : Cursor} (below : (pieces.length : Int) + 1 < maximum)
      (gives : Returns (fun fuel => next fuel cursor) (.ok (some (found, rest)))) :
      Ahead maximum matchAt cursor last start pieces found.place.1

/-- How a split ends at a cursor, behind pieces that are there: below the maximum it fails with
the iteration; it fails when the next piece is one too many or its bytes exceed the limit of the
output; and else it gives the rest of the source as its last piece. -/
inductive Halts (maximum : Int) (matchAt : Nat → Option Nat) (cursor : Cursor)
    (last : Option Nat) (start : Nat) (pieces : List Source) :
    Except Error (List Source) → Prop where
  | stopped {reason : Error} (below : (pieces.length : Int) + 1 < maximum)
      (ends : Ends matchAt cursor last start (some reason)) :
      Halts maximum matchAt cursor last start pieces (.error reason)
  | many {finish : Nat} (ahead : Ahead maximum matchAt cursor last start pieces finish)
      (spent : cursor.limits.maxResults ≤ pieces.length) :
      Halts maximum matchAt cursor last start pieces
        (.error ⟨.resultLimit, "split piece limit exceeded"⟩)
  | beyond {finish : Nat} (ahead : Ahead maximum matchAt cursor last start pieces finish)
      (room : (pieces.length : Int) < cursor.limits.maxResults)
      (large : cursor.limits.maxOutputBytes < ((pieces.map Source.bytes).flatten ++
        Spans.slice start finish cursor.source.bytes).length) :
      Halts maximum matchAt cursor last start pieces (.error outputLimit)
  | done {piece : Source}
      (ends : (pieces.length : Int) + 1 < maximum → Ends matchAt cursor last start none)
      (room : (pieces.length : Int) < cursor.limits.maxResults)
      (fits : ((pieces.map Source.bytes).flatten ++ cursor.source.bytes.drop start).length ≤
        cursor.limits.maxOutputBytes)
      (holds : Holds cursor.source piece (cursor.source.bytes.drop start)) :
      Halts maximum matchAt cursor last start pieces (.ok (pieces ++ [piece]))

/-- A split from a cursor on, behind pieces that are there: what lies before matches one after
another, fewer than the maximum, and then its end. -/
def Splits (maximum : Int) (matchAt : Nat → Option Nat) (cursor : Cursor) (last : Option Nat)
    (start : Nat) (pieces : List Source) (result : Except Error (List Source)) : Prop :=
  ∃ founds final more, Calls cursor founds final ∧
    ((pieces ++ more).length : Int) < maximum ∧
    List.Forall₂ (Holds cursor.source) more
      (fronts cursor.source.bytes start (founds.map Captures.place)) ∧
    Halts maximum matchAt final (lastEnd last founds) (reached start founds) (pieces ++ more)
      result

/-- A split that ends at once hands out nothing more. -/
theorem Halts.splits {pieces : List Source} {result : Except Error (List Source)}
    (below : (pieces.length : Int) < maximum)
    (halts : Halts maximum matchAt cursor last start pieces result) :
    Splits maximum matchAt cursor last start pieces result := by
  refine ⟨[], cursor, [], .none cursor, ?_, .nil, ?_⟩
  · rw [List.append_nil]
    exact below
  · rw [List.append_nil]
    exact halts

/-- What joining a piece up to a position gives: the failure of a limit, of the pieces or of their
bytes, and else the pieces with it and the bytes of them all. -/
inductive Joined (cursor : Cursor) (start finish : Nat) (pieces : List Source) :
    Except Error (Int × List Source) → Prop where
  | many (spent : cursor.limits.maxResults ≤ pieces.length) :
      Joined cursor start finish pieces (.error ⟨.resultLimit, "split piece limit exceeded"⟩)
  | beyond (room : (pieces.length : Int) < cursor.limits.maxResults)
      (large : cursor.limits.maxOutputBytes < ((pieces.map Source.bytes).flatten ++
        Spans.slice start finish cursor.source.bytes).length) :
      Joined cursor start finish pieces (.error outputLimit)
  | put {used : Int} {piece : Source} (room : (pieces.length : Int) < cursor.limits.maxResults)
      (fits : ((pieces.map Source.bytes).flatten ++
        Spans.slice start finish cursor.source.bytes).length ≤ cursor.limits.maxOutputBytes)
      (holds : Holds cursor.source piece (Spans.slice start finish cursor.source.bytes))
      (counted : used = ((pieces ++ [piece]).map Source.bytes).flatten.length) :
      Joined cursor start finish pieces (.ok (used, pieces ++ [piece]))

/-- A part of the source between two positions joins the pieces, unless a limit is exceeded. -/
theorem appendPiece_spec (at_ : cursor.At base start last) {finish : Nat}
    (second : cursor.regex.program.Starts cursor.source.bytes finish) (forward : start ≤ finish)
    {used : Int} {pieces : List Source}
    (counted : used = (pieces.map Source.bytes).flatten.length) :
    Joined cursor start finish pieces (appendPiece cursor start finish used pieces) := by
  obtain ⟨piece, sliced, holds⟩ := slice_spec at_.mode at_.starts second forward
  have range := Spans.length_slice forward second.1
  have length : ((pieces.map Source.bytes).flatten ++
      Spans.slice start finish cursor.source.bytes).length =
        (pieces.map Source.bytes).flatten.length +
          (Spans.slice start finish cursor.source.bytes).length := List.length_append
  rw [appendPiece]
  by_cases many : (pieces.length : Int) ≥ cursor.limits.maxResults
  · rw [if_pos many]
    exact .many many
  rw [if_neg many]
  by_cases large : (finish : Int) - start > cursor.limits.maxOutputBytes - used
  · rw [if_pos large]
    exact .beyond (Int.not_le.mp many) (by omega)
  rw [if_neg large]
  -- the bytes that are used are those of the pieces
  have total {other : Source}
      (same : Holds cursor.source other (Spans.slice start finish cursor.source.bytes)) :
      used + finish - start = ((pieces ++ [other]).map Source.bytes).flatten.length := by
    rw [List.map_append, List.flatten_append, List.length_append, List.map_singleton,
      List.flatten_singleton, same.bytes_eq]
    omega
  by_cases all : (start : Int) = 0 ∧ (finish : Int) = cursor.size
  · have zero : start = 0 := by exact_mod_cast all.1
    have size : finish = cursor.source.bytes.length := by
      have final := all.2
      rw [at_.size] at final
      exact_mod_cast final
    have here : Holds cursor.source cursor.source
        (Spans.slice start finish cursor.source.bytes) :=
      ⟨rfl, by rw [zero, size, Spans.slice_all]⟩
    simp only
    rw [if_pos all]
    exact .put (Int.not_le.mp many) (by omega) here (total here)
  · simp only
    rw [if_neg all, sliced]
    exact .put (Int.not_le.mp many) (by omega) holds (total holds)

/-- The last piece of a split is the rest of the source. -/
theorem lastPiece_spec (at_ : cursor.At base start last) {used : Int} {pieces : List Source}
    (counted : used = (pieces.map Source.bytes).flatten.length)
    (ends : (pieces.length : Int) + 1 < maximum → Ends matchAt cursor last start none) :
    Halts maximum matchAt cursor last start pieces
      ((appendPiece cursor start cursor.size used pieces).map Prod.snd) := by
  have joined := appendPiece_spec at_ cursor.size_starts at_.starts.1 counted
  rw [at_.size]
  generalize appendPiece cursor start cursor.source.bytes.length used pieces = appended at joined
  cases joined with
  | many spent => exact .many (.final ends) spent
  | beyond room large => exact .beyond (.final ends) room large
  | put room fits holds =>
    rw [Spans.slice_length] at fits holds
    exact .done ends room fits holds

/-- A split that goes on behind a match has kept what lies before it. -/
theorem Splits.cons {pieces : List Source} {result : Except Error (List Source)} {m : Nat × Nat}
    {found : Captures} {rest : Cursor} {piece : Source}
    (gives : Returns (fun fuel => next fuel cursor) (.ok (some (found, rest))))
    (hands : Hands cursor m found rest)
    (holds : Holds cursor.source piece (Spans.slice start m.1 cursor.source.bytes))
    (splits : Splits maximum matchAt rest (some m.2) m.2 (pieces ++ [piece]) result) :
    Splits maximum matchAt cursor last start pieces result := by
  obtain ⟨founds, final, more, calls, count, each, halts⟩ := splits
  rw [List.append_assoc, List.singleton_append] at count halts
  rw [hands.source_eq] at each
  have place := hands.captures.place
  refine ⟨found :: founds, final, piece :: more, .call gives calls, count, ?_, ?_⟩
  · rw [List.map_cons, place]
    exact .cons holds each
  · rw [lastEnd_cons, reached_cons, place]
    exact halts

/-- A split from a cursor on returns. -/
theorem splitLoop_spec (at_ : cursor.At base start last)
    (sound : Engine.Leftmost cursor.regex.program cursor.source.bytes matchAt)
    (recent : ∀ e, last = some e → e = start) :
    ∀ used pieces, used = ((pieces.map Source.bytes).flatten.length : Int) →
      (pieces.length : Int) < maximum →
      ∃ result, Returns (fun fuel => splitLoop maximum fuel cursor start used pieces) result ∧
        Splits maximum matchAt cursor last start pieces result := by
  refine Cursor.At.induction (motive := fun cursor last start => ∀ used pieces,
    used = ((pieces.map Source.bytes).flatten.length : Int) → (pieces.length : Int) < maximum →
      ∃ result, Returns (fun fuel => splitLoop maximum fuel cursor start used pieces) result ∧
        Splits maximum matchAt cursor last start pieces result) ?_ at_ sound recent
  intro cursor base start last outcome at_ sound gives given later used pieces counted below
  have called (fuel : Nat) (enough : fuel ≥ 2) : next fuel cursor = some outcome := by
    obtain ⟨more, rfl⟩ := Nat.exists_eq_add_of_le' enough
    exact gives more
  by_cases complete : (pieces.length : Int) ≥ maximum - 1
  · have halts : Halts maximum matchAt cursor last start pieces
        ((appendPiece cursor start cursor.size used pieces).map Prod.snd) :=
      lastPiece_spec at_ counted fun less => absurd complete (by omega)
    refine ⟨_, Returns.succ 0 (fun fuel _ => ?_) (Fueled.returns_const _), halts.splits below⟩
    rw [splitLoop, if_pos complete]
  have less : (pieces.length : Int) + 1 < maximum := by omega
  have failing (reason : Error) (failed : outcome = .error reason) :
      ∃ result, Returns (fun fuel => splitLoop maximum fuel cursor start used pieces) result ∧
        Splits maximum matchAt cursor last start pieces result := by
    subst failed
    refine ⟨_, Returns.succ 2 (fun fuel enough => ?_) (Fueled.returns_const _),
      (Halts.stopped less ⟨returns_next gives, given⟩).splits below⟩
    rw [splitLoop, if_neg complete, called fuel enough]
  cases given with
  | ended none_left =>
    have halts : Halts maximum matchAt cursor last start pieces
        ((appendPiece cursor start cursor.size used pieces).map Prod.snd) :=
      lastPiece_spec at_ counted fun _ => ⟨returns_next gives, .ended none_left⟩
    refine ⟨_, Returns.succ 2 (fun fuel enough => ?_) (Fueled.returns_const _),
      halts.splits below⟩
    rw [splitLoop, if_neg complete, called fuel enough]
  | spent first budget => exact failing _ rfl
  | crowded first captures budget slots => exact failing _ rfl
  | @handed m found rest first hands =>
    have starts := (sound.starts _ _ first.matched).1
    have ahead : Ahead maximum matchAt cursor last start pieces m.1 := by
      rw [← hands.captures.place]
      exact .before less (returns_next gives)
    have joined := appendPiece_spec at_ starts first.after counted
    have startByte := hands.captures.whole.startByte
    have endByte := hands.captures.whole.endByte
    -- what the loop does with the piece before the match
    have stops {failed : Error} (made : appendPiece cursor start m.1 used pieces = .error failed)
        (fuel : Nat) (enough : fuel ≥ 2) :
        splitLoop maximum (fuel + 1) cursor start used pieces = some (.error failed) := by
      rw [splitLoop, if_neg complete, called fuel enough]
      simp only [startByte, made]
    have goes {used' : Int} {pieces' : List Source}
        (made : appendPiece cursor start m.1 used pieces = .ok (used', pieces'))
        (fuel : Nat) (enough : fuel ≥ 2) :
        splitLoop maximum (fuel + 1) cursor start used pieces =
          splitLoop maximum fuel rest m.2 used' pieces' := by
      rw [splitLoop, if_neg complete, called fuel enough]
      simp only [startByte, endByte, made]
    generalize made : appendPiece cursor start m.1 used pieces = appended at joined
    cases joined with
    | many spent =>
      exact ⟨_, Returns.succ 2 (stops made) (Fueled.returns_const _),
        (Halts.many ahead spent).splits below⟩
    | beyond room large =>
      exact ⟨_, Returns.succ 2 (stops made) (Fueled.returns_const _),
        (Halts.beyond ahead room large).splits below⟩
    | @put more piece room fits holds total =>
      obtain ⟨result, returns, splits⟩ := later m found rest rfl first hands more
        (pieces ++ [piece]) total (by rw [List.length_append, List.length_singleton]; omega)
      exact ⟨result, Returns.succ 2 (goes made) returns,
        .cons (returns_next gives) hands holds splits⟩

end Split

end

end Fai.Regex
