import FaiVerif.Csv.Drive

/-!
# Stages of reading a record

What the parser knows of the record it is in, without the positions: the phase of the field, its
bytes and the complete fields, how many bytes the record has so far, and the UTF-8 window. A step
says which byte leads from one stage to another and which record it completes; the parser follows
every step, so it follows walks over whole words.
-/

namespace Fai.Csv

open Incremental Utf8

/-- A mode without its position. -/
inductive Phase where
  | startField
  | bareField
  | quotedField
  | afterQuote
  | awaitLf
  deriving DecidableEq

/-- The phase of a mode. -/
def Mode.phase : Mode → Phase
  | .startField => .startField
  | .bareField => .bareField
  | .quotedField => .quotedField
  | .afterQuote => .afterQuote
  | .awaitLf _ => .awaitLf

/-- A field may end in the phase. -/
def Phase.closable (phase : Phase) : Prop :=
  phase = .startField ∨ phase = .bareField ∨ phase = .afterQuote

/-- A field that may end is not in an ending. -/
theorem Phase.closable.ne_await {phase : Phase} (closable : phase.closable) :
    phase ≠ .awaitLf := by
  rintro rfl
  simp [Phase.closable] at closable

/-- What is known of the current record. -/
structure Stage where
  phase : Phase
  /-- The bytes of the current field, last first. -/
  field : List UInt8
  /-- The complete fields, last first. -/
  fields : List Bytes
  /-- The bytes of the record so far. -/
  raw : Int
  /-- The bytes of the input so far. -/
  offset : Int
  index : Int
  expected : Int
  /-- An LF still belongs to the ending before. -/
  skip : Bool
  active : Bool
  window : Window

/-- A parser is at a stage. -/
structure At (reader : Options) (text : Bool) (stage : Stage) (parser : Parser) : Prop where
  options : parser.options = reader
  text : parser.text = text
  live : parser.failed = none
  unended : parser.ended = false
  decided : parser.bomDone = true
  phase : parser.mode.phase = stage.phase
  field : parser.field = stage.field
  fieldBytes : parser.fieldBytes = stage.field.length
  fields : parser.fields.map Field.value = stage.fields
  fieldCount : parser.fieldCount = stage.fields.length
  index : parser.index = stage.index
  expected : parser.expected = stage.expected
  skip : parser.skipLf = stage.skip
  active : parser.active = stage.active
  window : (⟨parser.utfRemaining, parser.utfLow, parser.utfHigh⟩ : Window) = stage.window
  offset : parser.position.byteOffset = stage.offset
  nonneg : 0 ≤ stage.offset
  column : parser.position.byteColumn ≤ stage.offset + 1
  line : parser.position.line ≤ stage.offset + 1
  raw : parser.position.byteOffset - parser.recordStart.byteOffset = stage.raw

/-- The stage after a complete record. -/
def Stage.complete (stage : Stage) : Stage :=
  { stage with
    phase := .startField
    field := []
    fields := []
    raw := 0
    index := stage.index + 1
    expected := if stage.expected < 0 then stage.fields.length else stage.expected
    active := false }

/-- A record may be completed. -/
structure Stage.Admitted (reader : Options) (stage : Stage) : Prop where
  /-- There is room for a record. -/
  room : limited reader.limits.maxRecords stage.index = false
  /-- The next index is an index. -/
  counted : stage.index ≠ maxInt
  /-- The record has the expected width. -/
  width : reader.width = .flexible ∨ stage.expected < 0 ∨ stage.fields.length = stage.expected

/-- The stage after one more byte. -/
def Stage.moved (stage : Stage) : Stage :=
  { stage with offset := stage.offset + 1, raw := stage.raw + 1 }

/-- The stage after a complete field. -/
def Stage.closed (stage : Stage) : Stage :=
  { stage with
    phase := .startField
    field := []
    fields := stage.field.reverse :: stage.fields }

/-- The window after a byte, which only a text checks. -/
def checked (text : Bool) (window : Window) (byte : UInt8) : Option Window :=
  if text = true then window.step byte else some window

section Follows

variable {reader : Options} {text : Bool} {stage : Stage} {before : Parser}

/-- A byte that the window accepts is valid. -/
theorem At.validateByte (here : At reader text stage before) {byte : UInt8} {window : Window}
    (accepted : checked text stage.window byte = some window) :
    ∃ after, validateByte before byte = .ok after ∧
      At reader text { stage with window := window } after := by
  have same := here.window
  by_cases textual : text = true
  · have reads : ¬ before.text = false := by rw [here.text, textual]; decide
    simp only [checked, if_pos textual, Window.step, ← same] at accepted
    by_cases inside : 0 < before.utfRemaining
    · rw [if_pos inside] at accepted
      split at accepted
      · cases accepted
      · next range =>
        cases accepted
        refine ⟨_, by simp only [Csv.validateByte, if_neg reads, if_pos inside, if_neg range]; rfl,
          ?_⟩
        exact { here with window := rfl }
    rw [if_neg inside] at accepted
    by_cases ascii : (byte.toNat : Int) ≤ 127
    · rw [if_pos ascii] at accepted
      cases accepted
      exact ⟨_, by simp only [Csv.validateByte, if_neg reads, if_neg inside, if_pos ascii],
        { here with window := rfl }⟩
    rw [if_neg ascii] at accepted
    split at accepted
    · cases accepted
    · next leads =>
      cases accepted
      refine ⟨_, by simp only [Csv.validateByte, if_neg reads, if_neg inside, if_neg ascii,
        if_neg leads]; rfl, ?_⟩
      exact { here with window := rfl }
  · have raw : before.text = false := by
      rw [here.text]
      exact Bool.eq_false_iff.mpr textual
    simp only [checked, if_neg textual, Option.some.injEq] at accepted
    subst accepted
    exact ⟨before, by simp only [Csv.validateByte, if_pos raw], here⟩

/-- A position below the bound moves over a byte. -/
theorem At.advance (here : At reader text stage before) (byte : UInt8)
    (bound : stage.offset + 1 < maxInt) :
    ∃ after, advance before byte = .ok after ∧
      At reader text stage.moved after := by
  have offset := here.offset
  have nonneg := here.nonneg
  have column := here.column
  have line := here.line
  have raw := here.raw
  have fits : ¬ (before.position.byteOffset = maxInt ∨ before.position.line = maxInt ∨
      before.position.byteColumn = maxInt) := by omega
  refine ⟨_, by simp only [Csv.advance, if_neg fits]; rfl, ?_⟩
  exact { here with
    offset := by simp only [offset, Stage.moved]
    nonneg := by
      simp only [Stage.moved]
      omega
    column := by
      simp only [Stage.moved]
      split_ifs <;> omega
    line := by
      simp only [Stage.moved]
      split_ifs <;> omega
    raw := by
      simp only [Stage.moved]
      omega }

/-- A field within its limit takes a byte. -/
theorem At.payload (here : At reader text stage before) (byte : UInt8)
    (fits : (stage.field.length : Int) < reader.limits.maxFieldBytes) :
    ∃ after, payload before byte = .ok after ∧
      At reader text { stage with active := true, field := byte :: stage.field } after := by
  have options := here.options
  have count := here.fieldBytes
  have within : ¬ before.options.limits.maxFieldBytes ≤ before.fieldBytes := by
    rw [options, count]
    omega
  refine ⟨_, by simp only [Csv.payload, if_neg within]; rfl, ?_⟩
  exact { here with
    active := rfl
    field := by simp only [here.field]
    fieldBytes := by
      simp only [count, List.length_cons]
      rfl }

/-- A record within its limit takes a field. -/
theorem At.fieldEnd (here : At reader text stage before)
    (fits : (stage.fields.length : Int) < reader.limits.maxFields) :
    ∃ after, fieldEnd before = .ok after ∧
      At reader text stage.closed after := by
  have options := here.options
  have count := here.fieldCount
  have within : ¬ before.options.limits.maxFields ≤ before.fieldCount := by
    rw [options, count]
    omega
  refine ⟨_, by simp only [Csv.fieldEnd, if_neg within]; rfl, ?_⟩
  exact { here with
    phase := rfl
    field := rfl
    fieldBytes := rfl
    fields := by simp only [List.map_cons, here.field, here.fields, Stage.closed]
    fieldCount := by
      simp only [count, Stage.closed, List.length_cons]
      rfl }

/-- A complete record is ready. -/
theorem At.emit (here : At reader text stage before) (admitted : stage.Admitted reader)
    (finish : Position) :
    ∃ after record, emit before finish 0 = result after 0 (.recordReady record) ∧
      record.fields.map Field.value = stage.fields.reverse ∧
      At reader text stage.complete after := by
  have room : ¬ limited before.options.limits.maxRecords before.index = true := by
    rw [here.options, here.index, admitted.room]
    decide
  have counted : ¬ before.index = maxInt := by
    rw [here.index]
    exact admitted.counted
  have width : ¬ (before.options.width ≠ .flexible ∧ 0 ≤ before.expected ∧
      before.fieldCount ≠ before.expected) := by
    rw [here.options, here.expected, here.fieldCount]
    rintro ⟨strict, known, differs⟩
    obtain flexible | unknown | same := admitted.width
    · exact strict flexible
    · omega
    · exact differs same
  refine ⟨_, _, by simp only [Csv.emit, if_neg room, if_neg counted, if_neg width]; rfl, ?_, ?_⟩
  · simp only [List.map_reverse, here.fields]
  · exact { here with
      phase := rfl
      field := rfl
      fieldBytes := rfl
      fields := rfl
      fieldCount := rfl
      index := by simp only [here.index, Stage.complete]
      expected := by simp only [here.expected, here.fieldCount, Stage.complete]
      active := rfl
      raw := by simp only [Stage.complete, Int.sub_self] }

end Follows

/-- What a byte does at a stage, with the record it completes. -/
inductive Step (reader : Options) : Stage → UInt8 → Option (List Bytes) → Stage → Prop where
  /-- A byte of a field without quotes. -/
  | bare {stage : Stage} {byte : UInt8}
    (phase : stage.phase = .startField ∨ stage.phase = .bareField)
    (quote : byte.toNat ≠ reader.dialect.quote.toNat)
    (delimiter : byte.toNat ≠ reader.dialect.delimiter.toNat) (line : byte ≠ 10 ∧ byte ≠ 13)
    (record : stage.raw < reader.limits.maxRecordBytes)
    (field : (stage.field.length : Int) < reader.limits.maxFieldBytes) :
    Step reader stage byte none
      { stage.moved with
        phase := .bareField
        field := byte :: stage.field
        skip := false
        active := true }
  /-- The quote before a field. -/
  | opens {stage : Stage} {byte : UInt8} (phase : stage.phase = .startField)
    (quote : byte.toNat = reader.dialect.quote.toNat)
    (delimiter : byte.toNat ≠ reader.dialect.delimiter.toNat) (line : byte ≠ 10 ∧ byte ≠ 13)
    (record : stage.raw < reader.limits.maxRecordBytes) :
    Step reader stage byte none
      { stage.moved with phase := .quotedField, skip := false, active := true }
  /-- A byte of a field between quotes. -/
  | quoted {stage : Stage} {byte : UInt8} (phase : stage.phase = .quotedField)
    (quote : byte.toNat ≠ reader.dialect.quote.toNat) (skip : stage.skip = false)
    (record : stage.raw < reader.limits.maxRecordBytes)
    (field : (stage.field.length : Int) < reader.limits.maxFieldBytes) :
    Step reader stage byte none
      { stage.moved with field := byte :: stage.field, active := true }
  /-- A quote that ends a field or stands before another. -/
  | closes {stage : Stage} {byte : UInt8} (phase : stage.phase = .quotedField)
    (quote : byte.toNat = reader.dialect.quote.toNat) (skip : stage.skip = false)
    (record : stage.raw < reader.limits.maxRecordBytes) :
    Step reader stage byte none { stage.moved with phase := .afterQuote }
  /-- The second quote of an escape. -/
  | doubles {stage : Stage} {byte : UInt8} (phase : stage.phase = .afterQuote)
    (quote : byte.toNat = reader.dialect.quote.toNat)
    (delimiter : byte.toNat ≠ reader.dialect.delimiter.toNat) (line : byte ≠ 10 ∧ byte ≠ 13)
    (skip : stage.skip = false)
    (record : stage.raw < reader.limits.maxRecordBytes)
    (field : (stage.field.length : Int) < reader.limits.maxFieldBytes) :
    Step reader stage byte none
      { stage.moved with phase := .quotedField, field := byte :: stage.field, active := true }
  /-- The delimiter after a field. -/
  | delimits {stage : Stage} {byte : UInt8} (phase : stage.phase.closable)
    (delimiter : byte.toNat = reader.dialect.delimiter.toNat) (line : byte ≠ 10 ∧ byte ≠ 13)
    (record : stage.raw < reader.limits.maxRecordBytes)
    (fields : (stage.fields.length : Int) < reader.limits.maxFields) :
    Step reader stage byte none { stage.closed.moved with skip := false, active := true }
  /-- The line ending after a record. -/
  | ends {stage : Stage} {byte : UInt8} (phase : stage.phase.closable)
    (line : byte = 10 ∨ byte = 13) (skip : stage.skip = true → byte ≠ 10)
    (anyEnding : reader.dialect.endings = .anyEnding)
    (fields : (stage.fields.length : Int) < reader.limits.maxFields)
    (admitted : stage.closed.Admitted reader) :
    Step reader stage byte (some stage.closed.fields.reverse)
      { stage.closed.moved.complete with skip := decide (byte = 13) }
  /-- The second byte of an ending whose first has completed the record. -/
  | skips {stage : Stage} (phase : stage.phase = .startField) (skip : stage.skip = true) :
    Step reader stage 10 none { stage.moved with raw := 0, skip := false }
  /-- The first byte of an ending that only the second completes. -/
  | waits {stage : Stage} (phase : stage.phase.closable)
    (crLfOnly : reader.dialect.endings = .crLfOnly)
    (fields : (stage.fields.length : Int) < reader.limits.maxFields) :
    Step reader stage 13 none { stage.closed.moved with phase := .awaitLf, skip := false }
  /-- The second byte of such an ending. -/
  | completes {stage : Stage} (phase : stage.phase = .awaitLf) (admitted : stage.Admitted reader) :
    Step reader stage 10 (some stage.fields.reverse) stage.moved.complete

/-- A report delivers a record, or asks for more where there is none. -/
def Delivers : Option (List Bytes) → Status → Prop
  | none, status => status = .needInput
  | some values, status =>
    ∃ record, status = .recordReady record ∧ record.fields.map Field.value = values

section Follows

variable {reader : Options} {text : Bool} {stage : Stage} {before : Parser}

/-- A stage that skips nothing. -/
theorem At.unskipped (here : At reader text stage before) :
    At reader text { stage with skip := false } { before with skipLf := false } :=
  { here with skip := rfl }

/-- Outside an awaited ending a byte of a record is read as such. -/
theorem grammar_content (here : At reader text stage before) (byte : UInt8)
    (phase : stage.phase ≠ .awaitLf) (skip : stage.skip = true → byte ≠ 10)
    (inside : stage.phase = .quotedField ∨ (byte ≠ 10 ∧ byte ≠ 13)) :
    grammar before byte 0 = content { before with skipLf := false } byte 0 := by
  have known := here.phase
  have skipped : ¬ (before.skipLf = true ∧ byte = 10) := by
    rw [here.skip]
    exact fun both => skip both.1 both.2
  have outside : ¬ (before.mode ≠ .quotedField ∧ (byte = 10 ∨ byte = 13)) := by
    rintro ⟨mode, line⟩
    obtain quoted | ⟨lf, cr⟩ := inside
    · cases found : before.mode <;> simp_all [Mode.phase]
    · exact line.elim lf cr
  simp only [grammar]
  split
  · next finish found =>
    rw [found] at known
    exact absurd known.symm phase
  · rw [if_neg skipped, if_neg outside]

/-- Outside quotes a line ending ends the record. -/
theorem grammar_recordEnd (here : At reader text stage before) (byte : UInt8)
    (phase : stage.phase.closable) (skip : stage.skip = true → byte ≠ 10)
    (line : byte = 10 ∨ byte = 13) :
    grammar before byte 0 = recordEnd { before with skipLf := false } byte 0 := by
  have known := here.phase
  have skipped : ¬ (before.skipLf = true ∧ byte = 10) := by
    rw [here.skip]
    exact fun both => skip both.1 both.2
  have outside : before.mode ≠ .quotedField ∧ (byte = 10 ∨ byte = 13) := by
    refine ⟨fun quoted => ?_, line⟩
    rw [quoted] at known
    obtain closed | closed | closed := phase <;> simp [← known, Mode.phase] at closed
  simp only [grammar]
  split
  · next finish found =>
    rw [found] at known
    obtain closed | closed | closed := phase <;> simp [← known, Mode.phase] at closed
  · rw [if_neg skipped, if_pos outside]

/-- A byte that changes the field is read within the limit of the record. -/
theorem content_changed {after : Parser} {next : Stage} {byte : UInt8}
    (here : At reader text stage before) (made : changed before byte = .ok after)
    (there : At reader text next after) (bound : next.offset + 1 < maxInt)
    (record : stage.raw < reader.limits.maxRecordBytes)
    (delimiter : byte.toNat ≠ reader.dialect.delimiter.toNat ∨ stage.phase = .quotedField) :
    At reader text next.moved (content before byte 0).parser ∧
      (content before byte 0).status = .needInput := by
  have within : ¬ before.options.limits.maxRecordBytes ≤
      before.position.byteOffset - before.recordStart.byteOffset := by
    rw [here.options, here.raw]
    omega
  have known := here.phase
  have undelimited : ¬ (byte.toNat = before.options.dialect.delimiter.toNat ∧
      before.mode ≠ .quotedField) := by
    rw [here.options]
    rintro ⟨same, mode⟩
    obtain differs | quoted := delimiter
    · exact differs same
    · cases found : before.mode <;> simp_all [Mode.phase]
  obtain ⟨last, advanced, arrived⟩ := there.advance byte bound
  simp only [content, if_neg within, if_neg undelimited, made, orFail, advanced, result]
  exact ⟨arrived, trivial⟩

/-- A phase without a position is a mode. -/
theorem At.mode_eq (here : At reader text stage before) (mode : Mode)
    (phase : stage.phase = mode.phase) (placeless : mode.phase ≠ .awaitLf) :
    before.mode = mode := by
  have known := here.phase
  rw [phase] at known
  cases mode <;> cases found : before.mode <;> simp_all [Mode.phase]

/-- A byte of a field without quotes. -/
theorem At.changed_bare (here : At reader text stage before) (byte : UInt8)
    (phase : stage.phase = .startField ∨ stage.phase = .bareField)
    (quote : byte.toNat ≠ reader.dialect.quote.toNat)
    (fits : (stage.field.length : Int) < reader.limits.maxFieldBytes) :
    ∃ after, changed before byte = .ok after ∧
      At reader text
        { stage with phase := .bareField, field := byte :: stage.field, active := true }
        after := by
  obtain ⟨after, added, there⟩ := here.payload byte fits
  have differs : ¬ byte.toNat = before.options.dialect.quote.toNat := by
    rw [here.options]
    exact quote
  obtain start | bare := phase
  · refine ⟨{ after with mode := .bareField }, ?_, { there with phase := rfl }⟩
    simp only [changed, here.mode_eq .startField start (by simp [Mode.phase]),
      if_neg differs, added]
    rfl
  · refine ⟨after, ?_, { there with phase := there.phase.trans bare }⟩
    simp only [changed, here.mode_eq .bareField bare (by simp [Mode.phase]),
      if_neg differs, added]

/-- A byte of a field between quotes. -/
theorem At.changed_quoted (here : At reader text stage before) (byte : UInt8)
    (phase : stage.phase = .quotedField) (quote : byte.toNat ≠ reader.dialect.quote.toNat)
    (fits : (stage.field.length : Int) < reader.limits.maxFieldBytes) :
    ∃ after, changed before byte = .ok after ∧
      At reader text { stage with field := byte :: stage.field, active := true } after := by
  obtain ⟨after, added, there⟩ := here.payload byte fits
  have differs : ¬ byte.toNat = before.options.dialect.quote.toNat := by
    rw [here.options]
    exact quote
  refine ⟨after, ?_, there⟩
  simp only [changed, here.mode_eq .quotedField phase (by simp [Mode.phase]),
    if_neg differs, added]

/-- The second quote of an escape. -/
theorem At.changed_doubled (here : At reader text stage before) (byte : UInt8)
    (phase : stage.phase = .afterQuote) (quote : byte.toNat = reader.dialect.quote.toNat)
    (fits : (stage.field.length : Int) < reader.limits.maxFieldBytes) :
    ∃ after, changed before byte = .ok after ∧
      At reader text
        { stage with phase := .quotedField, field := byte :: stage.field, active := true }
        after := by
  obtain ⟨after, added, there⟩ := here.payload byte fits
  have same : byte.toNat = before.options.dialect.quote.toNat := by
    rw [here.options]
    exact quote
  refine ⟨{ after with mode := .quotedField }, ?_, { there with phase := rfl }⟩
  simp only [changed, here.mode_eq .afterQuote phase (by simp [Mode.phase]),
    if_pos same, added]
  rfl

/-- The quote before a field. -/
theorem At.changed_opened (here : At reader text stage before) (byte : UInt8)
    (phase : stage.phase = .startField) (quote : byte.toNat = reader.dialect.quote.toNat) :
    ∃ after, changed before byte = .ok after ∧
      At reader text { stage with phase := .quotedField, active := true } after := by
  have same : byte.toNat = before.options.dialect.quote.toNat := by
    rw [here.options]
    exact quote
  refine ⟨{ before with active := true, mode := .quotedField, quoted := true }, ?_,
    { here with phase := rfl, active := rfl }⟩
  simp only [changed, here.mode_eq .startField phase (by simp [Mode.phase]),
    if_pos same]

/-- A quote that ends a field or stands before another. -/
theorem At.changed_closed (here : At reader text stage before) (byte : UInt8)
    (phase : stage.phase = .quotedField) (quote : byte.toNat = reader.dialect.quote.toNat) :
    ∃ after, changed before byte = .ok after ∧
      At reader text { stage with phase := .afterQuote } after := by
  have same : byte.toNat = before.options.dialect.quote.toNat := by
    rw [here.options]
    exact quote
  refine ⟨{ before with mode := .afterQuote }, ?_, { here with phase := rfl }⟩
  simp only [changed, here.mode_eq .quotedField phase (by simp [Mode.phase]),
    if_pos same]

/-- The delimiter after a field. -/
theorem content_delimited (here : At reader text stage before) {byte : UInt8}
    (phase : stage.phase.closable)
    (delimiter : byte.toNat = reader.dialect.delimiter.toNat)
    (bound : stage.offset + 1 < maxInt) (record : stage.raw < reader.limits.maxRecordBytes)
    (fields : (stage.fields.length : Int) < reader.limits.maxFields) :
    At reader text { stage.closed.moved with active := true } (content before byte 0).parser ∧
      Delivers none (content before byte 0).status := by
  have within : ¬ before.options.limits.maxRecordBytes ≤
      before.position.byteOffset - before.recordStart.byteOffset := by
    rw [here.options, here.raw]
    omega
  have known := here.phase
  have delimited : byte.toNat = before.options.dialect.delimiter.toNat ∧
      before.mode ≠ .quotedField := by
    rw [here.options]
    refine ⟨delimiter, fun quoted => ?_⟩
    rw [quoted] at known
    obtain closed | closed | closed := phase <;> simp [← known, Mode.phase] at closed
  obtain ⟨ended, completed, there⟩ := here.fieldEnd fields
  obtain ⟨last, advanced, arrived⟩ := there.advance byte bound
  simp only [content, if_neg within, if_pos delimited, completed, orFail, advanced, result]
  exact ⟨{ arrived with active := rfl }, rfl⟩

/-- A line ending that completes the record. -/
theorem recordEnd_any (here : At reader text stage before) (byte : UInt8)
    (anyEnding : reader.dialect.endings = .anyEnding) (bound : stage.offset + 1 < maxInt)
    (fields : (stage.fields.length : Int) < reader.limits.maxFields)
    (admitted : stage.closed.Admitted reader) :
    At reader text { stage.closed.moved.complete with skip := decide (byte = 13) }
        (recordEnd before byte 0).parser ∧
      Delivers (some stage.closed.fields.reverse) (recordEnd before byte 0).status := by
  have lenient : ¬ before.options.dialect.endings = .crLfOnly := by
    rw [here.options, anyEnding]
    decide
  have taken : ¬ (before.options.dialect.endings = .crLfOnly ∧ byte = 10) :=
    fun both => lenient both.1
  obtain ⟨ended, completed, there⟩ := here.fieldEnd fields
  obtain ⟨last, advanced, arrived⟩ := there.advance byte bound
  have skipping : At reader text { stage.closed.moved with skip := decide (byte = 13) }
      { last with skipLf := decide (byte = 13) } := { arrived with skip := rfl }
  obtain ⟨after, record, emitted, values, final⟩ := skipping.emit
    ⟨admitted.room, admitted.counted, admitted.width⟩ before.position
  simp only [recordEnd, if_neg taken, completed, orFail, advanced, if_neg lenient, emitted, result]
  exact ⟨final, record, rfl, values⟩

/-- A line ending whose second byte completes the record. -/
theorem recordEnd_crLf (here : At reader text stage before)
    (crLfOnly : reader.dialect.endings = .crLfOnly) (bound : stage.offset + 1 < maxInt)
    (fields : (stage.fields.length : Int) < reader.limits.maxFields) :
    At reader text { stage.closed.moved with phase := .awaitLf } (recordEnd before 13 0).parser ∧
      Delivers none (recordEnd before 13 0).status := by
  have strict : before.options.dialect.endings = .crLfOnly := by rw [here.options, crLfOnly]
  have taken : ¬ (before.options.dialect.endings = .crLfOnly ∧ (13 : UInt8) = 10) :=
    fun both => absurd both.2 (by decide)
  obtain ⟨ended, completed, there⟩ := here.fieldEnd fields
  obtain ⟨last, advanced, arrived⟩ := there.advance 13 bound
  simp only [recordEnd, if_neg taken, completed, orFail, advanced, if_pos strict, result]
  exact ⟨{ arrived with phase := rfl }, rfl⟩

/-- The second byte of an ending whose first has completed the record. -/
theorem grammar_skips (here : At reader text stage before) (phase : stage.phase = .startField)
    (skip : stage.skip = true) (bound : stage.offset + 1 < maxInt) :
    At reader text { stage.moved with raw := 0, skip := false } (grammar before 10 0).parser ∧
      Delivers none (grammar before 10 0).status := by
  have mode := here.mode_eq .startField phase (by simp [Mode.phase])
  have reached : grammar before 10 0 = skipByte before 10 0 := by
    simp [grammar, mode, here.skip, skip]
  obtain ⟨last, advanced, arrived⟩ := here.advance 10 bound
  simp only [reached, skipByte, advanced, orFail, result]
  exact ⟨{ arrived with raw := by simp only [Int.sub_self], skip := rfl }, rfl⟩

/-- The second byte of an ending that completes the record. -/
theorem grammar_awaited (here : At reader text stage before) (phase : stage.phase = .awaitLf)
    (bound : stage.offset + 1 < maxInt) (admitted : stage.Admitted reader) :
    At reader text stage.moved.complete (grammar before 10 0).parser ∧
      Delivers (some stage.fields.reverse) (grammar before 10 0).status := by
  have known := here.phase
  obtain ⟨last, advanced, arrived⟩ := here.advance 10 bound
  rw [phase] at known
  simp only [grammar]
  split
  · next finish found =>
    obtain ⟨after, record, emitted, values, final⟩ := arrived.emit
      ⟨admitted.room, admitted.counted, admitted.width⟩ finish
    simp only [expectLf, ne_eq, not_true_eq_false, if_false, advanced, orFail, emitted, result]
    exact ⟨final, record, rfl, values⟩
  · next other =>
    cases found : before.mode with
    | awaitLf finish => exact absurd found (other finish)
    | _ => simp [found, Mode.phase] at known

/-- A grammar byte follows its step. -/
theorem Step.follows {byte : UInt8} {out : Option (List Bytes)} {next : Stage}
    (step : Step reader stage byte out next) (here : At reader text stage before)
    (bound : stage.offset + 1 < maxInt) :
    At reader text next (grammar before byte 0).parser ∧
      Delivers out (grammar before byte 0).status := by
  cases step with
  | bare phase quote delimiter line record field =>
    rw [grammar_content here byte (by rintro awaits; simp [awaits] at phase)
      (fun _ => line.1) (.inr line)]
    obtain ⟨after, made, there⟩ := here.unskipped.changed_bare byte phase quote field
    exact content_changed here.unskipped made there bound record (.inl delimiter)
  | opens phase quote delimiter line record =>
    rw [grammar_content here byte (by simp [phase]) (fun _ => line.1) (.inr line)]
    obtain ⟨after, made, there⟩ := here.unskipped.changed_opened byte phase quote
    exact content_changed here.unskipped made there bound record (.inl delimiter)
  | quoted phase quote skip record field =>
    rw [grammar_content here byte (by simp [phase]) (by simp [skip]) (.inl phase)]
    obtain ⟨after, made, there⟩ := here.unskipped.changed_quoted byte phase quote field
    obtain ⟨arrived, asks⟩ :=
      content_changed here.unskipped made there bound record (.inr phase)
    exact ⟨{ arrived with skip := arrived.skip.trans skip.symm }, asks⟩
  | closes phase quote skip record =>
    rw [grammar_content here byte (by simp [phase]) (by simp [skip]) (.inl phase)]
    obtain ⟨after, made, there⟩ := here.unskipped.changed_closed byte phase quote
    obtain ⟨arrived, asks⟩ :=
      content_changed here.unskipped made there bound record (.inr phase)
    exact ⟨{ arrived with skip := arrived.skip.trans skip.symm }, asks⟩
  | doubles phase quote delimiter line skip record field =>
    rw [grammar_content here byte (by simp [phase]) (by simp [skip]) (.inr line)]
    obtain ⟨after, made, there⟩ := here.unskipped.changed_doubled byte phase quote field
    obtain ⟨arrived, asks⟩ :=
      content_changed here.unskipped made there bound record (.inl delimiter)
    exact ⟨{ arrived with skip := arrived.skip.trans skip.symm }, asks⟩
  | delimits phase delimiter line record fields =>
    rw [grammar_content here byte phase.ne_await (fun _ => line.1) (.inr line)]
    exact content_delimited here.unskipped phase delimiter bound record fields
  | ends phase line skip anyEnding fields admitted =>
    rw [grammar_recordEnd here byte phase skip line]
    exact recordEnd_any here.unskipped byte anyEnding bound fields
      ⟨admitted.room, admitted.counted, admitted.width⟩
  | skips phase skip =>
    exact grammar_skips here phase skip bound
  | waits phase crLfOnly fields =>
    rw [grammar_recordEnd here 13 phase (fun _ => by decide) (.inr rfl)]
    exact recordEnd_crLf here.unskipped crLfOnly bound fields
  | completes phase admitted => exact grammar_awaited here phase bound admitted

/-- A byte follows its step once the window accepts it. -/
theorem Step.follows_checked {byte : UInt8} {window : Window} {out : Option (List Bytes)}
    {next : Stage} (step : Step reader { stage with window := window } byte out next)
    (accepted : checked text stage.window byte = some window)
    (here : At reader text stage before) (bound : stage.offset + 1 < maxInt) :
    At reader text next (process before byte 0).parser ∧
      Delivers out (process before byte 0).status := by
  obtain ⟨after, validated, there⟩ := here.validateByte accepted
  simp only [process, validated, orFail]
  exact step.follows there bound

/-- A step is over one byte. -/
theorem Step.offset {byte : UInt8} {out : Option (List Bytes)} {next : Stage}
    (step : Step reader stage byte out next) : next.offset = stage.offset + 1 := by
  cases step <;> rfl

end Follows

/-- The steps of a word, with the records they complete. -/
inductive Walk (reader : Options) (text : Bool) :
    Stage → Bytes → List (List Bytes) → Stage → Prop where
  | nil {stage : Stage} : Walk reader text stage [] [] stage
  | cons {stage middle last : Stage} {byte : UInt8} {bytes : Bytes} {window : Window}
    {out : Option (List Bytes)} {outs : List (List Bytes)} (bound : stage.offset + 1 < maxInt)
    (accepted : checked text stage.window byte = some window)
    (step : Step reader { stage with window := window } byte out middle)
    (later : Walk reader text middle bytes outs last) :
    Walk reader text stage (byte :: bytes) (out.toList ++ outs) last

section Walks

variable {reader : Options} {text : Bool}

/-- A walk over two words. -/
theorem Walk.append {stage middle last : Stage} {front back : Bytes}
    {outs more : List (List Bytes)} (first : Walk reader text stage front outs middle)
    (second : Walk reader text middle back more last) :
    Walk reader text stage (front ++ back) (outs ++ more) last := by
  induction first with
  | nil => exact second
  | cons bound accepted step later hypothesis =>
    rw [List.append_assoc]
    exact .cons bound accepted step (hypothesis second)

/-- A walk over two words goes through a stage between them. -/
theorem Walk.split {front back : Bytes} {stage last : Stage} {outs : List (List Bytes)}
    (walk : Walk reader text stage (front ++ back) outs last) :
    ∃ middle first second, outs = first ++ second ∧ Walk reader text stage front first middle ∧
      Walk reader text middle back second last := by
  induction front generalizing stage outs with
  | nil => exact ⟨stage, [], outs, rfl, .nil, walk⟩
  | cons byte front hypothesis =>
    cases walk with
    | @cons _ middle _ _ _ window out rest bound accepted step later =>
      obtain ⟨between, first, second, rfl, before, after⟩ := hypothesis later
      exact ⟨between, out.toList ++ first, second, (List.append_assoc _ _ _).symm,
        .cons bound accepted step before, after⟩

/-- A walk is over its bytes. -/
theorem Walk.offset {stage last : Stage} {bytes : Bytes} {outs : List (List Bytes)}
    (walk : Walk reader text stage bytes outs last) :
    last.offset = stage.offset + bytes.length := by
  induction walk with
  | nil => simp
  | cons bound accepted step later hypothesis =>
    have moved := step.offset
    simp only at moved
    simp only [hypothesis, moved, List.length_cons]
    omega

/-- The values of the records. -/
def values (records : List (Record Bytes)) : List (List Bytes) :=
  records.map fun record => record.fields.map Field.value

/-- Reading a byte does not count it. -/
theorem process_inputBytes (parser : Parser) (byte : UInt8) (next : Int) :
    (process parser byte next).parser.inputBytes = parser.inputBytes := by
  have reports := process_reports parser byte next
  generalize process parser byte next = fed at reports
  cases reports with
  | more keeps => exact congrArg Carried.inputBytes keeps
  | record reason keeps => exact congrArg Carried.inputBytes keeps
  | failed keeps => exact congrArg Carried.inputBytes keeps

/-- Another byte may be read within the input limit. -/
theorem unexhausted {before : Parser} {count : Int} (options : before.options = reader)
    (counted : before.inputBytes = count) (bound : count < maxInt)
    (input : ∀ maximum, reader.limits.maxInputBytes = some maximum → count < maximum) :
    ¬ before.exhausted = true := by
  simp only [Parser.exhausted, Bool.or_eq_true, decide_eq_true_eq, options, counted]
  rintro (reached | full)
  · cases known : reader.limits.maxInputBytes with
    | none => simp [known, limited] at reached
    | some maximum =>
      have fits := input maximum known
      simp only [known, limited, decide_eq_true_eq] at reached
      omega
  · omega

/-- A parser that has counted what it has read follows a walk within the input limit. -/
theorem Walk.follows {stage last : Stage} {bytes : Bytes} {outs : List (List Bytes)}
    (walk : Walk reader text stage bytes outs last) {before : Parser}
    (here : At reader text stage before) (counted : before.inputBytes = stage.offset)
    (input : ∀ maximum, reader.limits.maxInputBytes = some maximum →
      stage.offset + bytes.length ≤ maximum) :
    ∃ records after, transduce consume before bytes = (records, .ok after) ∧
      values records = outs ∧ At reader text last after ∧ after.inputBytes = last.offset := by
  induction walk generalizing before with
  | nil => exact ⟨[], before, rfl, rfl, here, counted⟩
  | @cons stage middle last byte bytes window out outs bound accepted step later hypothesis =>
    have within := unexhausted here.options counted (by omega) fun maximum bounded => by
      have fits := input maximum bounded
      simp only [List.length_cons] at fits
      omega
    have decided : ¬ before.bomDone = false := by
      rw [here.decided]
      decide
    have read := consume_decided byte within decided
    have ahead : At reader text stage before.counted := { here with }
    obtain ⟨there, delivers⟩ := step.follows_checked accepted ahead bound
    have moved := step.offset
    simp only at moved
    have count : (process before.counted byte 0).parser.inputBytes = middle.offset := by
      rw [process_inputBytes, moved, ← counted]
      rfl
    obtain ⟨records, after, outputs, same, final, last_count⟩ := hypothesis there count fun maximum
      bounded => by
        have fits := input maximum bounded
        simp only [List.length_cons] at fits
        omega
    cases out with
    | none =>
      have asks : (process before.counted byte 0).status = .needInput := delivers
      refine ⟨records, after, ?_, same, final, last_count⟩
      simp only [transduce, read, Feed.answer, asks, Answer.follow, outputs]
    | some found =>
      obtain ⟨record, ready, held⟩ := delivers
      refine ⟨record :: records, after, ?_, ?_, final, last_count⟩
      · simp only [transduce, read, Feed.answer, ready, Answer.follow, outputs, Outputs.after]
      · simp only [values, List.map_cons, held, Option.toList_some, List.singleton_append]
        exact congrArg _ same

end Walks

end Fai.Csv
