import FaiVerif.Csv.Types
import FaiVerif.Lib.Utf8
import Mathlib.Data.List.Basic

/-!
# The incremental CSV parser

The byte machine of `CsvCore.fai`: positions, UTF-8 validation, fields and records with their
limits, the held-back byte-order mark with its replay, and the two calls `feed` and `finish`. The
source's array `replay` with its `replayIndex` is here the list of the bytes still to be replayed,
and a chunk from an offset is the list of its bytes from there.
-/

namespace Fai.Csv

/-- Where the parser stands in a field. -/
inductive Mode where
  | startField
  | bareField
  | quotedField
  | afterQuote
  | awaitLf (finish : Position)
  deriving DecidableEq

/-- A pure snapshot of the parser. -/
structure Parser where
  /-- Whether the input after the last record ending holds anything. -/
  active : Bool
  /-- Whether the byte-order mark is decided. -/
  bomDone : Bool
  /-- Whether the end of the input has been reported. -/
  ended : Bool
  /-- The width every record has to have, negative while none is known. -/
  expected : Int
  /-- The error every later call reports. -/
  failed : Option Error
  /-- The bytes of the current field, last first. -/
  field : List UInt8
  fieldBytes : Int
  fieldCount : Int
  fieldStart : Position
  /-- The complete fields of the current record, last first. -/
  fields : List (Field Bytes)
  index : Int
  inputBytes : Int
  mode : Mode
  options : Options
  position : Position
  /-- The held-back bytes that may still begin a byte-order mark. -/
  prefixBytes : List UInt8
  previousCr : Bool
  quoted : Bool
  recordStart : Position
  /-- The held-back bytes that turned out not to be a mark, still to be read. -/
  replay : List UInt8
  skipLf : Bool
  text : Bool
  utfHigh : Int
  utfLow : Int
  utfRemaining : Int
  utfStart : Position
  deriving DecidableEq

/-- What a call reports. -/
inductive Status where
  | needInput
  | recordReady (record : Record Bytes)
  | ended
  | failed (error : Error)
  deriving DecidableEq

/-- The result of a call: the first unconsumed offset, the next snapshot and the report. -/
structure Feed where
  next : Int
  parser : Parser
  status : Status
  deriving DecidableEq

/-- A parser at the start of its input. -/
def parser (text : Bool) (options : Options) : Except Error Parser :=
  match validate options with
  | .error error => .error error
  | .ok _ => .ok
    { active := false
      bomDone := decide (options.bom = .preserveBom)
      ended := false
      expected := options.width.initial
      failed := none
      field := []
      fieldBytes := 0
      fieldCount := 0
      fieldStart := start
      fields := []
      index := 0
      inputBytes := 0
      mode := .startField
      options := options
      position := start
      prefixBytes := []
      previousCr := false
      quoted := false
      recordStart := start
      replay := []
      skipLf := false
      text := text
      utfHigh := 191
      utfLow := 128
      utfRemaining := 0
      utfStart := start }

/-- An error at the current position of the current field. -/
def problem (parser : Parser) (kind : ErrorKind) (message : String) : Error :=
  { error kind message with
    fieldIndex := some parser.fieldCount
    position := some parser.position
    recordIndex := some parser.index
    span := some ⟨parser.position, parser.fieldStart⟩ }

/-- A failed call: the snapshot keeps the error. -/
def failed (parser : Parser) (next : Int) (error : Error) : Feed :=
  ⟨next, { parser with failed := some error }, .failed error⟩

/-- A call that did not fail. -/
def result (parser : Parser) (next : Int) (status : Status) : Feed := ⟨next, parser, status⟩

/-- Whether a count has reached an optional bound. -/
def limited : Option Int → Int → Bool
  | none, _ => false
  | some limit, value => decide (limit ≤ value)

/-- Moves the position over a byte. -/
def advance (parser : Parser) (byte : UInt8) : Except Error Parser :=
  let position := parser.position
  if position.byteOffset = maxInt ∨ position.line = maxInt ∨ position.byteColumn = maxInt then
    .error (problem parser .counterOverflow "CSV position overflow")
  else
    let newline := byte = 13 ∨ (byte = 10 ∧ parser.previousCr = false)
    .ok { parser with
      position :=
        { byteColumn := if byte = 13 ∨ byte = 10 then 1 else position.byteColumn + 1
          byteOffset := position.byteOffset + 1
          line := position.line + (if newline then 1 else 0) }
      previousCr := decide (byte = 13) }

/-- Checks a byte of a text against the UTF-8 sequence it stands in. -/
def validateByte (parser : Parser) (byte : UInt8) : Except Error Parser :=
  let code : Int := byte.toNat
  if parser.text = false then .ok parser
  else if 0 < parser.utfRemaining then
    if code < parser.utfLow ∨ parser.utfHigh < code then
      .error { problem parser .invalidUtf8 "invalid UTF-8 sequence" with
        position := some parser.utfStart }
    else
      .ok { parser with
        utfHigh := 191
        utfLow := 128
        utfRemaining := parser.utfRemaining - 1 }
  else if code ≤ 127 then .ok parser
  else if Utf8.following code = 0 then
    .error (problem parser .invalidUtf8 "invalid UTF-8 leading byte")
  else
    .ok { parser with
      utfHigh := if code = 237 then 159 else if code = 244 then 143 else 191
      utfLow := if code = 224 then 160 else if code = 240 then 144 else 128
      utfRemaining := Utf8.following code
      utfStart := parser.position }

/-- Adds a byte to the current field. -/
def payload (parser : Parser) (byte : UInt8) : Except Error Parser :=
  if parser.options.limits.maxFieldBytes ≤ parser.fieldBytes then
    .error (problem parser .fieldLimit "CSV decoded field byte limit exceeded")
  else
    .ok { parser with
      active := true
      field := byte :: parser.field
      fieldBytes := parser.fieldBytes + 1 }

/-- Completes the current field. -/
def fieldEnd (parser : Parser) : Except Error Parser :=
  if parser.options.limits.maxFields ≤ parser.fieldCount then
    .error (problem parser .fieldCountLimit "CSV field count limit exceeded")
  else
    let field : Field Bytes :=
      { quoted := parser.quoted
        span := some ⟨parser.position, parser.fieldStart⟩
        value := parser.field.reverse }
    .ok { parser with
      field := []
      fieldBytes := 0
      fieldCount := parser.fieldCount + 1
      fields := field :: parser.fields
      mode := .startField
      quoted := false }

/-- Completes the current record, which ends at a position. -/
def emit (parser : Parser) (finish : Position) (next : Int) : Feed :=
  let actual := parser.fieldCount
  let strict := parser.options.width ≠ .flexible
  if limited parser.options.limits.maxRecords parser.index then
    failed parser next (problem parser .recordCountLimit "CSV record count limit exceeded")
  else if parser.index = maxInt then
    failed parser next (problem parser .counterOverflow "CSV record index overflow")
  else if strict ∧ 0 ≤ parser.expected ∧ actual ≠ parser.expected then
    failed parser next
      { problem parser .columnCount "CSV record has an unexpected field count" with
        actual := some actual
        expected := some parser.expected
        fieldIndex := none
        position := some parser.recordStart
        span := some ⟨finish, parser.recordStart⟩ }
  else
    let record : Record Bytes :=
      { fields := parser.fields.reverse
        source := some ⟨parser.index, ⟨finish, parser.recordStart⟩⟩ }
    result { parser with
      active := false
      expected := if parser.expected < 0 then actual else parser.expected
      field := []
      fieldBytes := 0
      fieldCount := 0
      fieldStart := parser.position
      fields := []
      index := parser.index + 1
      mode := .startField
      quoted := false
      recordStart := parser.position } next (.recordReady record)

/-- Goes on with the parser of a computation, or reports its error. -/
def orFail (parser : Parser) (next : Int) (computed : Except Error Parser)
    (go : Parser → Feed) : Feed :=
  match computed with
  | .error error => failed parser next error
  | .ok parser => go parser

/-- The effect of a byte that ends neither a field nor a record. -/
def changed (parser : Parser) (byte : UInt8) : Except Error Parser :=
  let quote := parser.options.dialect.quote.toNat
  match parser.mode with
  | .startField =>
    if byte.toNat = quote then
      .ok { parser with active := true, mode := .quotedField, quoted := true }
    else (payload parser byte).map fun parser => { parser with mode := .bareField }
  | .bareField =>
    if byte.toNat = quote then
      .error (problem parser .unexpectedQuote "quote inside an unquoted CSV field")
    else payload parser byte
  | .quotedField =>
    if byte.toNat = quote then .ok { parser with mode := .afterQuote } else payload parser byte
  | .afterQuote =>
    if byte.toNat = quote then
      (payload parser byte).map fun parser => { parser with mode := .quotedField }
    else
      .error (problem parser .unexpectedAfterQuote "unexpected byte after closing CSV quote")
  | .awaitLf _ => .error (problem parser .invalidState "invalid CSV parser state")

/-- The byte LF that the rule for CRLF endings waits for. -/
def expectLf (parser : Parser) (finish : Position) (byte : UInt8) (next : Int) : Feed :=
  if byte ≠ 10 then
    failed parser next (problem parser .invalidEnding "expected LF after CR")
  else orFail parser next (advance parser byte) fun parser => emit parser finish next

/-- The byte LF after a CR that has already ended a record. -/
def skipByte (parser : Parser) (byte : UInt8) (next : Int) : Feed :=
  orFail parser next (advance parser byte) fun parser =>
    result { parser with
      fieldStart := parser.position
      recordStart := parser.position
      skipLf := false } next .needInput

/-- A line ending outside quotes. -/
def recordEnd (parser : Parser) (byte : UInt8) (next : Int) : Feed :=
  if parser.options.dialect.endings = .crLfOnly ∧ byte = 10 then
    failed parser next (problem parser .invalidEnding "expected CRLF record ending")
  else
    orFail parser next (fieldEnd parser) fun ended =>
      orFail parser next (advance ended byte) fun advanced =>
        if parser.options.dialect.endings = .crLfOnly then
          result { advanced with mode := .awaitLf parser.position } next .needInput
        else emit { advanced with skipLf := decide (byte = 13) } parser.position next

/-- A byte of a record: a delimiter, or a byte of a field. -/
def content (parser : Parser) (byte : UInt8) (next : Int) : Feed :=
  if parser.options.limits.maxRecordBytes ≤
      parser.position.byteOffset - parser.recordStart.byteOffset then
    failed parser next (problem parser .recordLimit "CSV raw record byte limit exceeded")
  else if byte.toNat = parser.options.dialect.delimiter.toNat ∧ parser.mode ≠ .quotedField then
    orFail parser next (fieldEnd parser) fun ended =>
      orFail parser next (advance ended byte) fun advanced =>
        result { advanced with active := true, fieldStart := advanced.position } next .needInput
  else
    orFail parser next (changed parser byte) fun changed =>
      orFail parser next (advance changed byte) fun advanced => result advanced next .needInput

/-- Consumes one grammar byte after UTF-8 validation; `needInput` also means to continue. -/
def grammar (parser : Parser) (byte : UInt8) (next : Int) : Feed :=
  match parser.mode with
  | .awaitLf finish => expectLf parser finish byte next
  | _ =>
    if parser.skipLf = true ∧ byte = 10 then skipByte parser byte next
    else
      let parser := { parser with skipLf := false }
      if parser.mode ≠ .quotedField ∧ (byte = 10 ∨ byte = 13) then recordEnd parser byte next
      else content parser byte next

/-- Validates and consumes one byte. -/
def process (parser : Parser) (byte : UInt8) (next : Int) : Feed :=
  orFail parser next (validateByte parser byte) fun parser => grammar parser byte next

/-- Goes on after a call that only asks for input. -/
def Feed.resume (fed : Feed) (go : Parser → Feed) : Feed :=
  match fed.status with
  | .needInput => go fed.parser
  | _ => fed

/-- Consumes the bytes to be replayed, before any byte of the chunk. -/
def replayLoop : List UInt8 → Parser → Int → Feed
  | [], parser, next => result { parser with replay := [] } next .needInput
  | byte :: pending, parser, next =>
    (process { parser with replay := pending } byte next).resume fun parser =>
      replayLoop pending parser next

/-- The error of a byte beyond the input limit. -/
def inputProblem (parser : Parser) : Error :=
  let position : Position :=
    { parser.position with
      byteColumn := Int.bmod
        (parser.position.byteColumn + (parser.inputBytes - parser.position.byteOffset))
        18446744073709551616
      byteOffset := parser.inputBytes }
  { problem parser (if parser.inputBytes = maxInt then .counterOverflow else .inputLimit)
      "CSV input byte limit exceeded" with
    position := some position
    span := some ⟨position, parser.fieldStart⟩ }

/-- Whether no further byte may be read. -/
def Parser.exhausted (parser : Parser) : Bool :=
  limited parser.options.limits.maxInputBytes parser.inputBytes ||
    decide (parser.inputBytes = maxInt)

/-- The parser with one more byte read. -/
def Parser.counted (parser : Parser) : Parser :=
  { parser with inputBytes := parser.inputBytes + 1 }

/-- The byte a byte-order mark has after a number of bytes. -/
def bomByte (count : Nat) : UInt8 := if count = 1 then 239 else if count = 2 then 187 else 191

/-- The parser after a byte that may belong to a byte-order mark. -/
def holdByte (parser : Parser) (byte : UInt8) : Parser :=
  let held := parser.prefixBytes ++ [byte]
  if byte ≠ bomByte held.length then
    { parser with bomDone := true, prefixBytes := [], replay := held }
  else if held.length < 3 then { parser with prefixBytes := held }
  else
    let position : Position := { byteColumn := 4, byteOffset := 3, line := 1 }
    { parser with
      bomDone := true
      fieldStart := position
      position := position
      prefixBytes := []
      recordStart := position }

/-- Reads the unread bytes of a chunk up to the first report. -/
def feedLoop : Bytes → Parser → Int → Feed
  | [], parser, next => replayLoop parser.replay parser next
  | byte :: bytes, parser, next =>
    (replayLoop parser.replay parser next).resume fun parser =>
      if parser.exhausted = true then failed parser next (inputProblem parser)
      else if parser.bomDone = false then
        feedLoop bytes (holdByte parser.counted byte) (next + 1)
      else
        (process parser.counted byte (next + 1)).resume fun parser =>
          feedLoop bytes parser (next + 1)

/-- Reads a chunk from an offset; the result names the first unconsumed offset. -/
def feed (parser : Parser) (bytes : Bytes) (start : Int) : Feed :=
  match parser.failed with
  | some error => failed parser start error
  | none =>
    if start < 0 ∨ bytes.length < start then
      failed parser start (problem parser .invalidOptions "invalid CSV chunk offset")
    else if parser.ended = true then
      if start = bytes.length then result parser start .ended
      else failed parser start (problem parser .invalidState "CSV input supplied after EOF")
    else feedLoop (bytes.drop start.toNat) parser start

/-- The end of the input of a parser that holds no bytes back. -/
def finishRead (parser : Parser) : Feed :=
  if parser.utfRemaining ≠ 0 then
    failed parser 0
      { problem parser .invalidUtf8 "incomplete UTF-8 sequence at EOF" with
        position := some parser.utfStart }
  else
    match parser.mode with
    | .quotedField =>
      failed parser 0 (problem parser .unclosedQuote "unclosed quoted CSV field at EOF")
    | .awaitLf _ =>
      failed parser 0 (problem parser .invalidEnding "expected LF after CR at EOF")
    | _ =>
      if parser.active = false then result { parser with ended := true } 0 .ended
      else
        orFail parser 0 (fieldEnd parser) fun parser =>
          emit { parser with ended := true } parser.position 0

/-- The parser at the end of its input, all held-back bytes to be replayed. -/
def Parser.released (parser : Parser) : Parser :=
  { parser with bomDone := true, prefixBytes := [], replay := parser.prefixBytes }

/-- Reports the end of the input, after the held-back bytes. -/
def finish (parser : Parser) : Feed :=
  match parser.failed with
  | some error => failed parser 0 error
  | none =>
    if parser.ended = true then result parser 0 .ended
    else if parser.bomDone = false then
      (feedLoop [] parser.released 0).resume finishRead
    else finishRead parser

end Fai.Csv
