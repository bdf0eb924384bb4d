import Mathlib.Data.Int.Notation

/-!
# CSV types

The shared vocabulary of the CSV package (`CsvTypes.fai`): positions, fields and records, dialects,
limits and options, errors, and the validation of options.
-/

namespace Fai.Csv

/-- A contiguous buffer of bytes. -/
abbrev Bytes := List UInt8

/-- The largest value of the language's `Int`. -/
def maxInt : Int := 9223372036854775807

/-- A byte offset from zero, with the physical line and the byte column from one. -/
structure Position where
  /-- Bytes before, on the same line, plus one. -/
  byteColumn : Int
  /-- Bytes before. -/
  byteOffset : Int
  /-- Lines before, plus one. -/
  line : Int
  deriving DecidableEq

/-- A half-open range of the input. -/
structure Span where
  /-- The first position after the range. -/
  finish : Position
  /-- The first position of the range. -/
  start : Position
  deriving DecidableEq

/-- The position of the first byte. -/
def start : Position where
  byteColumn := 1
  byteOffset := 0
  line := 1

/-- Where a record stands in its input. -/
structure Source where
  /-- The records before it. -/
  index : Int
  /-- Its bytes. -/
  span : Span
  deriving DecidableEq

/-- A field of a record. -/
structure Field (α : Type) where
  /-- Whether the field was written between quotes. -/
  quoted : Bool
  /-- Its original syntax, the quotes included. -/
  span : Option Span
  /-- Its content. -/
  value : α
  deriving DecidableEq

/-- A record. -/
structure Record (α : Type) where
  /-- Its fields in order. -/
  fields : List (Field α)
  /-- Where it was read. -/
  source : Option Source
  deriving DecidableEq

/-- The record endings a reader takes. -/
inductive Endings where
  | anyEnding
  | crLfOnly
  deriving DecidableEq

/-- The record ending a writer gives. -/
inductive LineEnding where
  | crLf
  | lf
  | cr
  deriving DecidableEq

/-- What a reader does with an initial byte-order mark. -/
inductive Bom where
  | preserveBom
  | stripUtf8Bom
  deriving DecidableEq

/-- The number of fields of every record. -/
inductive Width where
  | strict
  | flexible
  | exact (width : Int)
  deriving DecidableEq

/-- The width known before the first record, negative while none is. -/
def Width.initial : Width → Int
  | .exact value => value
  | _ => -1

/-- The symbols of a dialect. -/
structure Dialect where
  /-- Between two fields. -/
  delimiter : Char
  /-- After a record. -/
  endings : Endings
  /-- Around a quoted field. -/
  quote : Char
  deriving DecidableEq

/-- Configurable bounds. -/
structure Limits where
  maxCollectedBytes : Int
  maxCollectedRecords : Int
  maxErrors : Int
  maxFieldBytes : Int
  maxFields : Int
  maxInputBytes : Option Int
  maxRecordBytes : Int
  maxRecords : Option Int
  deriving DecidableEq

/-- The bounds a reader or a writer has unless told otherwise. -/
def limits : Limits where
  maxCollectedBytes := 33554432
  maxCollectedRecords := 100000
  maxErrors := 64
  maxFieldBytes := 1048576
  maxFields := 4096
  maxInputBytes := none
  maxRecordBytes := 8388608
  maxRecords := none

/-- The options of a reader. -/
structure Options where
  bom : Bom
  dialect : Dialect
  limits : Limits
  width : Width
  deriving DecidableEq

/-- The dialect used unless told otherwise. -/
def dialect : Dialect where
  delimiter := ','
  endings := .anyEnding
  quote := '"'

/-- The options of a text reader unless told otherwise. -/
def options : Options where
  bom := .stripUtf8Bom
  dialect := dialect
  limits := limits
  width := .strict

/-- The kinds of errors. -/
inductive ErrorKind where
  | invalidOptions
  | invalidState
  | unexpectedQuote
  | unexpectedAfterQuote
  | unclosedQuote
  | invalidEnding
  | invalidUtf8
  | fieldLimit
  | recordLimit
  | fieldCountLimit
  | inputLimit
  | recordCountLimit
  | collectionLimit
  | columnCount
  | missingHeader
  | emptyHeader
  | duplicateHeader
  | unknownColumn
  | missingColumn
  | invalidValue
  | counterOverflow
  | emptyRecord
  | outputLimit
  deriving DecidableEq

/-- An error with the place it was found at. -/
structure Error where
  actual : Option Int
  expected : Option Int
  fieldIndex : Option Int
  header : Option Bytes
  kind : ErrorKind
  message : String
  position : Option Position
  recordIndex : Option Int
  related : Option Span
  span : Option Span
  deriving DecidableEq

/-- An error with no place. -/
def error (kind : ErrorKind) (message : String) : Error where
  actual := none
  expected := none
  fieldIndex := none
  header := none
  kind := kind
  message := message
  position := none
  recordIndex := none
  related := none
  span := none

/-- The error placed at a field of a record, or at the record. -/
def placedAt {α : Type} (record : Record α) (index : Option Nat) (error : Error) : Error :=
  let recordSpan := record.source.map Source.span
  let span : Option Span :=
    match index with
    | some index =>
      match record.fields[index]? with
      | some field => field.span
      | none => recordSpan
    | none => recordSpan
  { error with
    fieldIndex := index.map Int.ofNat
    position := span.map Span.start
    recordIndex := record.source.map Source.index
    span := span }

/-- A character that may delimit or quote: a tab or a printable ASCII character. -/
def validSymbol (symbol : Char) : Bool :=
  decide (symbol.toNat = 9) || (decide (32 ≤ symbol.toNat) && decide (symbol.toNat ≤ 126))

/-- An optional bound that is not negative. -/
def nonnegative : Option Int → Bool
  | none => true
  | some value => decide (0 ≤ value)

/-- Refuses negative bounds. -/
def validateLimits (limits : Limits) : Except Error Unit :=
  if limits.maxFieldBytes < 0 ∨ limits.maxRecordBytes < 0 ∨ limits.maxFields < 0 ∨
      limits.maxCollectedRecords < 0 ∨ limits.maxCollectedBytes < 0 ∨ limits.maxErrors < 1 ∨
      ¬ nonnegative limits.maxInputBytes ∨ ¬ nonnegative limits.maxRecords then
    .error (error .invalidOptions
      "CSV limits must be nonnegative; maxErrors must be positive")
  else .ok ()

/-- Refuses options with which nothing could be read back. -/
def validate (options : Options) : Except Error Unit :=
  match validateLimits options.limits with
  | .error error => .error error
  | .ok _ =>
    if ¬ validSymbol options.dialect.delimiter ∨ ¬ validSymbol options.dialect.quote ∨
        options.dialect.delimiter = options.dialect.quote then
      .error (error .invalidOptions "CSV delimiter and quote must be distinct ASCII symbols")
    else
      match options.width with
      | .exact width =>
        if width < 1 then .error (error .invalidOptions "exact CSV width must be positive")
        else .ok ()
      | _ => .ok ()

end Fai.Csv
