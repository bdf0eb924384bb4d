import FaiVerif.Csv.Types
import Mathlib.Data.List.Basic

/-!
# The CSV writer

The immutable writer of `CsvWrite.fai`: the decision to quote a field, the measure of a record
against the limits, its bytes, and the rendering of whole documents.
-/

namespace Fai.Csv

/-- When a field is written between quotes. -/
inductive Quoting where
  | minimal
  | always
  deriving DecidableEq

namespace Write

/-- The options of a writer. -/
structure Options where
  dialect : Dialect
  emitBom : Bool
  ending : LineEnding
  limits : Limits
  maxBufferedBytes : Int
  maxOutputBytes : Option Int
  quoting : Quoting
  width : Width
  deriving DecidableEq

/-- The options of a writer unless told otherwise. -/
def options : Options where
  dialect := dialect
  emitBom := false
  ending := .crLf
  limits := limits
  maxBufferedBytes := 33554432
  maxOutputBytes := none
  quoting := .minimal
  width := .strict

/-- A pure snapshot of a writer. -/
structure State where
  bytes : Int
  ended : Bool
  expected : Int
  index : Int
  options : Options
  text : Bool
  deriving DecidableEq

/-- Whether an optional bound on the output is negative. -/
def negative : Option Int → Bool
  | some maximum => decide (maximum < 0)
  | none => false

/-- A writer before its first record. -/
def state (text : Bool) (options : Options) : Except Error State :=
  match validate ⟨.preserveBom, options.dialect, options.limits, options.width⟩ with
  | .error error => .error error
  | .ok _ =>
    if options.maxBufferedBytes < 0 ∨ negative options.maxOutputBytes = true then
      .error (error .invalidOptions "negative CSV output limit")
    else
      .ok
        { bytes := 0
          ended := false
          expected := options.width.initial
          index := 0
          options := options
          text := text }

/-- The bytes after a record. -/
def ending (options : Options) : List UInt8 :=
  match options.ending with
  | .crLf => [13, 10]
  | .lf => [10]
  | .cr => [13]

/-- The byte-order mark. -/
def bom : List UInt8 := [239, 187, 191]

/-- Counts the quotes of a field and decides whether it needs any around it. -/
def scan : Bytes → Nat → Nat → Int → Bool → Int × Bool
  | [], _, _, count, needsQuote => (count, needsQuote)
  | byte :: bytes, quote, delimiter, count, needsQuote =>
    scan bytes quote delimiter (count + (if byte.toNat = quote then 1 else 0))
      (needsQuote || decide (byte.toNat = quote) || decide (byte.toNat = delimiter) ||
        decide (byte = 10) || decide (byte = 13))

/-- Whether a field begins with a byte-order mark. -/
def beginsBom (bytes : Bytes) : Bool :=
  decide (3 ≤ bytes.length) && decide (bytes[0]? = some 239) && decide (bytes[1]? = some 187) &&
    decide (bytes[2]? = some 191)

/-- The quotes of a field at an index, and whether it needs any around it. -/
def scanField (state : State) (index : Nat) (value : Bytes) : Int × Bool :=
  scan value state.options.dialect.quote.toNat state.options.dialect.delimiter.toNat 0
    (decide (state.options.quoting = .always) ||
      (state.text && decide (state.index = 0) && decide (index = 0) && beginsBom value))

/-- The bytes a field takes beside its own: quotes, escapes and the delimiter before it. -/
def overhead (index : Nat) (quotes : Int) (needsQuote : Bool) : Int :=
  (if needsQuote = true then quotes + 2 else 0) + (if index = 0 then 0 else 1)

/-- The bytes of the fields from an index on, added to a total, with the decision to quote each. -/
def measure (state : State) (record : Record Bytes) :
    List (Field Bytes) → Nat → Int → List Bool → Except Error (Int × List Bool)
  | [], _, total, quoted => .ok (total, quoted)
  | field :: fields, index, total, quoted =>
    let length : Int := field.value.length
    if state.options.limits.maxFieldBytes < length then
      .error (placedAt record (some index) (error .fieldLimit "CSV field byte limit exceeded"))
    else
      let quotes := (scanField state index field.value).1
      let needsQuote := (scanField state index field.value).2
      let overhead := overhead index quotes needsQuote
      let available := state.options.limits.maxRecordBytes - total
      if available < overhead ∨ available - overhead < length then
        .error (placedAt record (some index)
          (error .recordLimit "CSV encoded record byte limit exceeded"))
      else
        measure state record fields (index + 1) (total + overhead + length)
          (quoted ++ [needsQuote])

/-- The bytes of a field after an output, each quote twice where it is escaped. -/
def copy : Bytes → Nat → Bool → List UInt8 → List UInt8
  | [], _, _, output => output
  | byte :: bytes, quote, escaped, output =>
    copy bytes quote escaped
      (if escaped = true ∧ byte.toNat = quote then output ++ [byte] ++ [byte]
      else output ++ [byte])

/-- The bytes of the fields from an index on, after an output. -/
def encodeFields (options : Options) :
    List (Field Bytes) → List Bool → Nat → List UInt8 → List UInt8
  | field :: fields, escaped :: quoted, index, output =>
    let quote := options.dialect.quote.toNat
    let output := if index = 0 then output
      else output ++ [UInt8.ofNat options.dialect.delimiter.toNat]
    let output := if escaped then output ++ [UInt8.ofNat quote] else output
    let output := copy field.value quote escaped output
    let output := if escaped then output ++ [UInt8.ofNat quote] else output
    encodeFields options fields quoted (index + 1) output
  | _, _, _, output => output

/-- Whether an optional bound on the records is reached. -/
def reached : Option Int → Int → Bool
  | none, _ => false
  | some maximum, index => decide (maximum ≤ index)

/-- Whether a number of bytes stays within an optional bound, of which some are used. -/
def within : Option Int → Int → Int → Bool
  | none, _, _ => true
  | some maximum, used, length => decide (length ≤ maximum - used)

/-- Whether a number of further bytes stays within the bounds of the output. -/
def outputFits (state : State) (length : Int) : Bool :=
  decide (length ≤ maxInt - state.bytes) &&
    within state.options.maxOutputBytes state.bytes length

/-- The bytes before the record of a writer. -/
def opening (state : State) : List UInt8 :=
  if state.options.emitBom = true ∧ state.index = 0 then bom else []

/-- Validates and encodes a complete record before any byte is exposed. -/
def pushRecord (state : State) (record : Record Bytes) : Except Error (Bytes × State) :=
  let width : Int := record.fields.length
  if state.ended = true then
    .error (error .invalidState "CSV output after finish")
  else if width = 0 then
    .error (error .emptyRecord "a CSV record must have at least one field")
  else if state.options.limits.maxFields < width then
    .error (placedAt record none (error .fieldCountLimit "CSV field count limit exceeded"))
  else if state.options.width ≠ .flexible ∧ 0 ≤ state.expected ∧ width ≠ state.expected then
    .error { placedAt record none
        (error .columnCount "CSV output record has an unexpected field count") with
      actual := some width
      expected := some state.expected }
  else if state.index = maxInt ∨ reached state.options.limits.maxRecords state.index = true then
    .error (error .recordCountLimit "CSV output record limit exceeded")
  else
    match measure state record record.fields 0 0 [] with
    | .error error => .error error
    | .ok (bodyLength, quoted) =>
      let front := opening state
      let back := ending state.options
      let extra : Int := front.length + back.length
      if maxInt - extra < bodyLength ∨ outputFits state (bodyLength + extra) = false then
        .error (placedAt record none (error .outputLimit "CSV output byte limit exceeded"))
      else
        let length := bodyLength + extra
        .ok (encodeFields state.options record.fields quoted 0 front ++ back,
          { state with
            bytes := state.bytes + length
            expected := if state.expected < 0 then width else state.expected
            index := state.index + 1 })

/-- Encodes a record; an error names the record. -/
def push (state : State) (record : Record Bytes) : Except Error (Bytes × State) :=
  (pushRecord state record).mapError fun error =>
    { error with recordIndex := some (error.recordIndex.getD state.index) }

/-- The bytes of the end of a document. -/
def finish (state : State) : Except Error (Bytes × State) :=
  let front :=
    if state.options.emitBom = true ∧ state.index = 0 ∧ state.ended = false then bom else []
  if outputFits state front.length = false then
    .error (error .outputLimit "CSV output byte limit exceeded")
  else .ok (front, { state with bytes := state.bytes + front.length, ended := true })

/-- Bytes after an output. -/
def joinInto (bytes : Bytes) (output : List UInt8) : List UInt8 := copy bytes 0 false output

/-- Renders records after an output, each converted first. -/
def renderLoop {α : Type} (convert : α → Record Bytes) :
    State → List α → List UInt8 → Except Error Bytes
  | state, [], output =>
    match finish state with
    | .error error => .error error
    | .ok (bytes, _) => .ok (joinInto bytes output)
  | state, record :: records, output =>
    match push state (convert record) with
    | .error error => .error error
    | .ok (bytes, state) => renderLoop convert state records (joinInto bytes output)

/-- The bound on the output of a whole document. -/
def Options.maximum (options : Options) : Int :=
  match options.maxOutputBytes with
  | none => options.maxBufferedBytes
  | some limit => if limit < options.maxBufferedBytes then limit else options.maxBufferedBytes

/-- Renders a whole document within the buffer. -/
def renderWith {α : Type} (convert : α → Record Bytes) (text : Bool) (options : Options)
    (records : List α) : Except Error Bytes :=
  match state text { options with maxOutputBytes := some options.maximum } with
  | .error error => .error error
  | .ok state => renderLoop convert state records []

/-- Renders a whole document. -/
def render (text : Bool) (options : Options) (records : List (Record Bytes)) :
    Except Error Bytes :=
  renderWith id text options records

end Write

end Fai.Csv
