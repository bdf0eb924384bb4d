import FaiVerif.Regex.Engine

/-!
# Iteration, replacement and splitting

The package's core (`packages/regex/src/RegexInternal.fai`) over texts and bytes alike. An immutable
cursor finds one match after another; replacement and splitting are loops over a cursor. Loops
without a bound of their own take fuel and give nothing when it is used up.
-/

namespace Fai.Regex

/-- The kinds of errors. -/
inductive ErrorKind where
  | invalidOptions
  | syntax_
  | unsupported
  | patternLimit
  | nestingLimit
  | compiledLimit
  | captureLimit
  | invalidOffset
  | wrongMode
  | inputLimit
  | resultLimit
  | outputLimit
  | unknownCapture
  | invalidTemplate
  | templateLimit
  | internalFailure

/-- An error: its kind and its message. -/
structure Error where
  kind : ErrorKind
  message : String

/-- The kind of a native error. -/
def kindOf (code : Int) : ErrorKind :=
  match code with
  | 1 => .invalidOptions
  | 2 => .syntax_
  | 3 => .unsupported
  | 4 => .patternLimit
  | 5 => .compiledLimit
  | 6 => .captureLimit
  | 7 => .invalidOffset
  | 8 => .wrongMode
  | 10 => .inputLimit
  | 11 => .nestingLimit
  | _ => .internalFailure

/-- A native error without a pattern. -/
def nativeError (native : Engine.Error) : Error := ⟨kindOf native.code, native.message⟩

/-- The limits of an operation. -/
structure Limits where
  maxCaptureSlots : Int
  maxInputBytes : Int
  maxOutputBytes : Int
  maxResults : Int

/-- The default limits. -/
def limits : Limits := ⟨1000000, 16777216, 16777216, 100000⟩

/-- Limits are not negative. -/
def validateLimits (limits : Limits) : Except Error Unit :=
  if limits.maxCaptureSlots < 0 ∨ limits.maxInputBytes < 0 ∨ limits.maxOutputBytes < 0 ∨
      limits.maxResults < 0 then
    .error ⟨.invalidOptions, "regex limits must be nonnegative"⟩
  else .ok ()

/-- A span with its scalars. -/
structure TextSpan where
  endByte : Int
  endChar : Int
  startByte : Int
  startChar : Int

/-- A span of bytes. -/
structure ByteSpan where
  endByte : Int
  startByte : Int

/-- Why a replacement failed: the search, or the replacement itself. -/
inductive ReplaceCause (ε : Type) where
  | regexFailure (reason : Error)
  | replacementFailure (reason : ε)

/-- A failed replacement, with the replacements before it and the match it was at. -/
structure ReplaceError (ε : Type) where
  cause : ReplaceCause ε
  completed : Int
  span : Option ByteSpan

/-- A compiled expression: its program, of its own mode. -/
structure Compiled where
  binary : Bool
  program : Engine.Program
  mode : program.binary = binary

/-- What is searched. -/
inductive Source where
  | text (value : List Char)
  | binary (value : List UInt8)

/-- A match of a source. -/
structure Match where
  source : Source
  span : TextSpan

/-- The groups of a match, the whole match first. -/
structure Captures where
  groups : List (Option TextSpan)
  regex : Compiled
  source : Source

/-- The bytes of a source. -/
def Source.bytes : Source → List UInt8
  | .text value => Utf8.encode value
  | .binary value => value

/-- Whether a source is binary. -/
def Source.isBinary : Source → Bool
  | .text _ => false
  | .binary _ => true

/-- The bytes between two positions, as many as there are. -/
def bytesSlice (start finish : Int) (bytes : List UInt8) : List UInt8 :=
  Spans.slice start.toNat finish.toNat bytes

/-- The size of a source. -/
def sourceSize : Source → Except Error Int
  | .binary bytes => .ok bytes.length
  | .text text =>
    match Engine.byteIndex text 0 with
    | .error failed => .error (nativeError failed)
    | .ok (_, size) => .ok size

/-- Checks a search, and gives the size of its source. -/
def validate (limits : Limits) (regex : Compiled) (source : Source) (start : Int) :
    Except Error Int :=
  match validateLimits limits with
  | .error failed => .error failed
  | .ok _ =>
    if source.isBinary ≠ regex.binary then
      .error ⟨.wrongMode, "text/binary regex mode mismatch"⟩
    else match sourceSize source with
      | .error failed => .error failed
      | .ok size =>
        if size > limits.maxInputBytes then .error ⟨.inputLimit, "input byte limit exceeded"⟩
        else if start < 0 ∨ start > size then
          .error ⟨.invalidOffset, "search offset is out of bounds"⟩
        else match source with
          | .binary _ => .ok size
          | .text text =>
            match Engine.slice text start start with
            | .error failed => .error (nativeError failed)
            | .ok _ => .ok size

/-- A span of the engine in the whole source, the scalars counted from a base. -/
def span (base : Int) (raw : Engine.Span) : Option TextSpan :=
  if raw.start < 0 then none
  else some ⟨raw.finish, base + raw.endChar, raw.start, base + raw.startChar⟩

/-- Searches a source from a position on, counting scalars from a checkpoint. -/
def search (limits : Limits) (regex : Compiled) (source : Source)
    (start baseByte baseChar : Int) (captures : Bool) : Except Error (Option Captures) :=
  let result := match source with
    | .binary bytes =>
      Engine.findBytes regex.program bytes start captures baseByte limits.maxInputBytes
    | .text text =>
      Engine.findText regex.program text start captures baseByte limits.maxInputBytes
  match result with
  | .error failed => .error (nativeError failed)
  | .ok spans =>
    if spans.isEmpty then .ok none else .ok (some ⟨spans.map (span baseChar), regex, source⟩)

/-- The whole match. -/
def whole (captures : Captures) : Match :=
  ⟨captures.source, ((captures.groups[0]?).getD none).getD ⟨0, 0, 0, 0⟩⟩

/-- The text of a match. -/
def text (found : Match) : List Char :=
  match found.source with
  | .text input => ((Engine.slice input found.span.startByte found.span.endByte).toOption).getD []
  | .binary _ => []

/-- The bytes of a match. -/
def bytes (found : Match) : List UInt8 :=
  match found.source with
  | .binary input => bytesSlice found.span.startByte found.span.endByte input
  | .text _ => []

/-- An immutable iterator. -/
structure Cursor where
  baseByte : Int
  baseChar : Int
  captures : Bool
  done : Bool
  lastEnd : Int
  limits : Limits
  nextByte : Int
  regex : Compiled
  remaining : Int
  size : Int
  slots : Int
  source : Source

/-- An iterator over the matches from a position on. -/
def cursor (limits : Limits) (regex : Compiled) (source : Source) (start : Int) (captures : Bool) :
    Except Error Cursor :=
  match validate limits regex source start with
  | .error failed => .error failed
  | .ok size => .ok
    { baseByte := 0
      baseChar := 0
      captures := captures
      done := false
      lastEnd := -1
      limits := limits
      nextByte := start
      regex := regex
      remaining := limits.maxResults
      size := size
      slots := limits.maxCaptureSlots
      source := source }

/-- The first boundary of a text from a candidate on, within so many attempts. -/
def nextBoundary (text : List Char) : Int → Nat → Except Error Int
  | _, 0 => .error ⟨.internalFailure, "missing UTF-8 boundary"⟩
  | candidate, attempts + 1 =>
    match Engine.slice text candidate candidate with
    | .ok _ => .ok candidate
    | .error _ => nextBoundary text (candidate + 1) attempts

/-- The position after another. -/
def advance (source : Source) (index : Int) : Except Error Int :=
  match source with
  | .binary _ => .ok (index + 1)
  | .text text => nextBoundary text (index + 1) 4

/-- Hands out a match, within the limits of the iterator. -/
def Cursor.hand (cursor : Cursor) (found : Captures) : Except Error (Option (Captures × Cursor)) :=
  let span := (whole found).span
  if cursor.remaining ≤ 0 then .error ⟨.resultLimit, "match result limit exceeded"⟩
  else if found.groups.length > cursor.slots then
    .error ⟨.captureLimit, "capture slot limit exceeded"⟩
  else .ok (some (found, { cursor with
    baseByte := span.endByte
    baseChar := span.endChar
    done := decide (span.startByte = span.endByte) && decide (span.endByte = cursor.size)
    lastEnd := span.endByte
    nextByte := span.endByte
    remaining := cursor.remaining - 1
    slots := cursor.slots - found.groups.length }))

/-- The next match, which is not the empty match at the end of the last one. -/
def next : Nat → Cursor → Option (Except Error (Option (Captures × Cursor)))
  | 0, _ => none
  | fuel + 1, cursor =>
    if cursor.done then some (.ok none)
    else match search cursor.limits cursor.regex cursor.source cursor.nextByte cursor.baseByte
        cursor.baseChar cursor.captures with
      | .error failed => some (.error failed)
      | .ok none => some (.ok none)
      | .ok (some found) =>
        let span := (whole found).span
        if span.startByte = span.endByte ∧ cursor.lastEnd = span.endByte then
          if span.endByte ≥ cursor.size then some (.ok none)
          else match advance cursor.source span.endByte with
            | .error failed => some (.error failed)
            | .ok position => next fuel { cursor with nextByte := position }
        else some (cursor.hand found)

/-- All matches, after those found before. -/
def collectInto : Nat → Cursor → List Captures → Option (Except Error (List Captures))
  | 0, _, _ => none
  | fuel + 1, cursor, values =>
    match next fuel cursor with
    | none => none
    | some (.error failed) => some (.error failed)
    | some (.ok none) => some (.ok values)
    | some (.ok (some (found, rest))) => collectInto fuel rest (values ++ [found])

/-- All matches of an iterator. -/
def collect (fuel : Nat) (cursor : Cursor) : Option (Except Error (List Captures)) :=
  collectInto fuel cursor []

/-- The part of a source between two positions. -/
def slice (source : Source) (start finish : Int) : Except Error Source :=
  match sourceSize source with
  | .error failed => .error failed
  | .ok size =>
    if start < 0 ∨ finish < start ∨ finish > size then
      .error ⟨.invalidOffset, "invalid source range"⟩
    else match source with
      | .binary bytes => .ok (.binary (bytesSlice start finish bytes))
      | .text text =>
        match Engine.slice text start finish with
        | .error failed => .error (nativeError failed)
        | .ok piece => .ok (.text piece)

/-- Joins chunks two by two, in front of what is joined in reverse. -/
def bytePairsInto : List (List UInt8) → List (List UInt8) → List (List UInt8)
  | a :: b :: rest, output => bytePairsInto rest ((a ++ b) :: output)
  | [one], output => (one :: output).reverse
  | [], output => output.reverse

/-- Joins chunks two by two. -/
def bytePairs (chunks : List (List UInt8)) : List (List UInt8) := bytePairsInto chunks []

/-- The text of a source. -/
def stringOf : Source → List Char
  | .text value => value
  | .binary _ => []

/-- The bytes of a binary source. -/
def bytesOf : Source → List UInt8
  | .binary value => value
  | .text _ => []

/-- Pairing makes two chunks or more fewer. -/
theorem length_bytePairsInto (chunks output : List (List UInt8)) :
    (bytePairsInto chunks output).length = output.length + (chunks.length + 1) / 2 := by
  fun_induction bytePairsInto chunks output with
  | case1 a b rest output hypothesis =>
    rw [hypothesis]
    simp only [List.length_cons]
    omega
  | case2 one output => simp
  | case3 output => simp

/-- Joins chunks. -/
def joinBytes : List (List UInt8) → List UInt8
  | [] => []
  | [one] => one
  | a :: b :: rest => joinBytes (bytePairs (a :: b :: rest))
termination_by chunks => chunks.length
decreasing_by
  rw [bytePairs, length_bytePairsInto]
  simp only [List.length_cons, List.length_nil]
  omega

/-- Joins pieces as a source of the mode of another. -/
def join (source : Source) (pieces : List Source) : Source :=
  match source with
  | .text _ => .text (pieces.map stringOf).flatten
  | .binary _ => .binary (joinBytes (pieces.map bytesOf))

/-- Pieces in reverse, and their size. -/
structure Builder where
  bytes : Int
  pieces : List Source

/-- The failure of an output beyond its limit. -/
def outputLimit : Error := ⟨.outputLimit, "regex output byte limit exceeded"⟩

/-- Appends a piece, within a limit. -/
def append (limit : Int) (piece : Source) (builder : Builder) : Except Error Builder :=
  match sourceSize piece with
  | .error failed => .error failed
  | .ok bytes =>
    if bytes > limit - builder.bytes then .error outputLimit
    else .ok ⟨builder.bytes + bytes, piece :: builder.pieces⟩

/-- Appends a part of a source, within a limit. -/
def appendRange (limit : Int) (source : Source) (start finish : Int) (builder : Builder) :
    Except Error Builder :=
  if finish - start > limit - builder.bytes then .error outputLimit
  else match slice source start finish with
    | .error failed => .error failed
    | .ok piece => append limit piece builder

section Replace

variable {ε : Type}

/-- The end of a replacement: the source itself when nothing was replaced. -/
def finishReplacement (cursor : Cursor) (completed position : Int) (builder : Builder) :
    Except (ReplaceError ε) Source :=
  if completed = 0 ∧ position = 0 then
    if cursor.size > cursor.limits.maxOutputBytes then
      .error ⟨.regexFailure outputLimit, completed, none⟩
    else .ok cursor.source
  else
    match appendRange cursor.limits.maxOutputBytes cursor.source position cursor.size builder with
    | .error failed => .error ⟨.regexFailure failed, completed, none⟩
    | .ok builder => .ok (join cursor.source builder.pieces.reverse)

/-- Replaces one match: what lies before it is kept, and a piece of the same mode is put for it. -/
def replaceOne (cursor : Cursor) (found : Captures) (completed position : Int) (builder : Builder)
    (replacement : Captures → Except ε Source) : Except (ReplaceError ε) Builder :=
  let span := (whole found).span
  let location : Option ByteSpan := some ⟨span.endByte, span.startByte⟩
  match appendRange cursor.limits.maxOutputBytes cursor.source position span.startByte builder with
  | .error failed => .error ⟨.regexFailure failed, completed, location⟩
  | .ok builder =>
    match replacement found with
    | .error failed => .error ⟨.replacementFailure failed, completed, location⟩
    | .ok piece =>
      if cursor.source.isBinary ≠ piece.isBinary then
        .error ⟨.regexFailure ⟨.wrongMode, "replacement mode mismatch"⟩, completed, location⟩
      else match append cursor.limits.maxOutputBytes piece builder with
        | .error failed => .error ⟨.regexFailure failed, completed, location⟩
        | .ok builder => .ok builder

/-- Replaces matches up to a number of them. -/
def replaceLoop (replacement : Captures → Except ε Source) (maximum : Int) :
    Nat → Cursor → Int → Int → Builder → Option (Except (ReplaceError ε) Source)
  | 0, _, _, _, _ => none
  | fuel + 1, cursor, completed, position, builder =>
    if completed ≥ maximum then some (finishReplacement cursor completed position builder)
    else match next fuel cursor with
      | none => none
      | some (.error failed) => some (.error ⟨.regexFailure failed, completed, none⟩)
      | some (.ok none) => some (finishReplacement cursor completed position builder)
      | some (.ok (some (found, rest))) =>
        match replaceOne cursor found completed position builder replacement with
        | .error failed => some (.error failed)
        | .ok builder =>
          replaceLoop replacement maximum fuel rest (completed + 1) (whole found).span.endByte
            builder

/-- Replaces the first matches of a source, so many at most. -/
def replace (fuel : Nat) (limits : Limits) (maximum : Int) (regex : Compiled) (source : Source)
    (captures : Bool) (replacement : Captures → Except ε Source) :
    Option (Except (ReplaceError ε) Source) :=
  if maximum < 0 then
    some (.error ⟨.regexFailure ⟨.invalidOptions, "negative replacement count"⟩, 0, none⟩)
  else match cursor limits regex source 0 captures with
    | .error failed => some (.error ⟨.regexFailure failed, 0, none⟩)
    | .ok cursor => replaceLoop replacement maximum fuel cursor 0 0 ⟨0, []⟩

end Replace

/-- Appends a part of the source to the pieces, within the limits. -/
def appendPiece (cursor : Cursor) (start finish used : Int) (pieces : List Source) :
    Except Error (Int × List Source) :=
  if pieces.length ≥ cursor.limits.maxResults then
    .error ⟨.resultLimit, "split piece limit exceeded"⟩
  else if finish - start > cursor.limits.maxOutputBytes - used then .error outputLimit
  else
    let piece := if start = 0 ∧ finish = cursor.size then .ok cursor.source
      else slice cursor.source start finish
    match piece with
    | .error failed => .error failed
    | .ok piece => .ok (used + finish - start, pieces ++ [piece])

/-- Splits at matches up to a number of pieces. -/
def splitLoop (maximum : Int) :
    Nat → Cursor → Int → Int → List Source → Option (Except Error (List Source))
  | 0, _, _, _, _ => none
  | fuel + 1, cursor, position, used, pieces =>
    if pieces.length ≥ maximum - 1 then
      some ((appendPiece cursor position cursor.size used pieces).map Prod.snd)
    else match next fuel cursor with
      | none => none
      | some (.error failed) => some (.error failed)
      | some (.ok none) =>
        some ((appendPiece cursor position cursor.size used pieces).map Prod.snd)
      | some (.ok (some (delimiter, rest))) =>
        let span := (whole delimiter).span
        match appendPiece cursor position span.startByte used pieces with
        | .error failed => some (.error failed)
        | .ok (used, pieces) => splitLoop maximum fuel rest span.endByte used pieces

/-- Splits a source at its matches, into so many pieces at most. -/
def split (fuel : Nat) (limits : Limits) (maximum : Int) (regex : Compiled) (source : Source) :
    Option (Except Error (List Source)) :=
  if maximum < 0 then some (.error ⟨.invalidOptions, "negative split count"⟩)
  else match cursor limits regex source 0 false with
    | .error failed => some (.error failed)
    | .ok cursor =>
      if maximum = 0 then some (.ok []) else splitLoop maximum fuel cursor 0 0 []

end Fai.Regex
