import FaiVerif.Csv.Opening
import FaiVerif.Csv.WriteBytes

/-!
# Reading back what was written

The bytes of a field lead the reader from the start of a field to a place where the field may end,
those of a record to a line ending, and those of the ending to the next record: a document is a
walk of the reader that completes exactly the records written. With the two ends of the input this
gives the inverse law, for every way of cutting the document into chunks.
-/

namespace Fai.Csv

open Incremental Utf8

/-- The window after bytes, which only a text checks. -/
def checkedAll (text : Bool) (window : Window) (bytes : Bytes) : Option Window :=
  if text = true then window.run bytes else some window

/-- The window after a first byte and those after it. -/
theorem checkedAll_cons {text : Bool} {window last : Window} {byte : UInt8} {bytes : Bytes}
    (accepted : checkedAll text window (byte :: bytes) = some last) :
    ∃ middle, checked text window byte = some middle ∧
      checkedAll text middle bytes = some last := by
  by_cases textual : text = true
  · simp only [checkedAll, if_pos textual, Window.run_cons, Option.bind_eq_some_iff] at accepted
    simpa only [checkedAll, checked, if_pos textual] using accepted
  · simp only [checkedAll, if_neg textual] at accepted
    exact ⟨window, by simp [checked, textual], by simp [checkedAll, textual, accepted]⟩

/-- A byte within ASCII is accepted between two sequences. -/
theorem checked_ascii (text : Bool) {byte : UInt8} (ascii : byte.toNat ≤ 127) :
    checked text .start byte = some .start := by
  have small : (byte.toNat : Int) ≤ 127 := by omega
  cases text <;> simp [checked, Window.step, Window.start, small]

/-- A byte within ASCII leaves the window as it is. -/
theorem checked_same {text : Bool} {window last : Window} {byte : UInt8}
    (ascii : byte.toNat ≤ 127) (bounded : 128 ≤ window.low)
    (accepted : checked text window byte = some last) : last = window := by
  by_cases textual : text = true
  · simp only [checked, if_pos textual] at accepted
    exact (Window.step_ascii ascii bounded accepted).2
  · simp only [checked, if_neg textual, Option.some.injEq] at accepted
    exact accepted.symm

/-- A byte keeps the next one beyond ASCII. -/
theorem checked_low {text : Bool} {window last : Window} {byte : UInt8}
    (bounded : 128 ≤ window.low) (accepted : checked text window byte = some last) :
    128 ≤ last.low := by
  by_cases textual : text = true
  · simp only [checked, if_pos textual] at accepted
    exact Window.step_low bounded accepted
  · simp only [checked, if_neg textual, Option.some.injEq] at accepted
    exact accepted ▸ bounded

/-- A symbol as a byte. -/
def symbol (char : Char) : UInt8 := UInt8.ofNat char.toNat

/-- The two symbols of a reader are distinct and valid. -/
structure Symbols (reader : Options) : Prop where
  delimiter : validSymbol reader.dialect.delimiter = true
  quote : validSymbol reader.dialect.quote = true
  distinct : reader.dialect.delimiter ≠ reader.dialect.quote

/-- A valid symbol is a byte within ASCII and no line ending. -/
theorem symbol_valid {char : Char} (valid : validSymbol char = true) :
    (symbol char).toNat = char.toNat ∧ (symbol char).toNat ≤ 127 ∧ symbol char ≠ 10 ∧
      symbol char ≠ 13 := by
  simp only [validSymbol, Bool.or_eq_true, Bool.and_eq_true, decide_eq_true_eq] at valid
  have code : (symbol char).toNat = char.toNat := by
    rw [symbol, UInt8.toNat_ofNat']
    omega
  refine ⟨code, by omega, ?_, ?_⟩
  · intro same
    rw [same] at code
    have ten : (10 : UInt8).toNat = 10 := rfl
    omega
  · intro same
    rw [same] at code
    have thirteen : (13 : UInt8).toNat = 13 := rfl
    omega

/-- Characters with the same code are the same. -/
theorem Symbols.codes {reader : Options} (symbols : Symbols reader) :
    reader.dialect.delimiter.toNat ≠ reader.dialect.quote.toNat := by
  intro same
  exact symbols.distinct (Char.toNat_inj.mp same)

/-- What reading bytes of a field does to a stage. -/
structure Read (stage last : Stage) (value : Bytes) (length : Nat) : Prop where
  field : last.field = value.reverse ++ stage.field
  fields : last.fields = stage.fields
  index : last.index = stage.index
  expected : last.expected = stage.expected
  raw : last.raw = stage.raw + length
  offset : last.offset = stage.offset + length
  skip : last.skip = true → stage.skip = true

/-- Reading nothing. -/
theorem Read.refl (stage : Stage) : Read stage stage [] 0 where
  field := rfl
  fields := rfl
  index := rfl
  expected := rfl
  raw := (Int.add_zero _).symm
  offset := (Int.add_zero _).symm
  skip := id

/-- Reading one part after another. -/
theorem Read.trans {stage middle last : Stage} {front back : Bytes} {first second : Nat}
    (before : Read stage middle front first) (after : Read middle last back second) :
    Read stage last (front ++ back) (first + second) where
  field := by rw [after.field, before.field, List.reverse_append, List.append_assoc]
  fields := after.fields.trans before.fields
  index := after.index.trans before.index
  expected := after.expected.trans before.expected
  raw := by
    rw [after.raw, before.raw]
    omega
  offset := by
    rw [after.offset, before.offset]
    omega
  skip := fun skips => before.skip (after.skip skips)

variable {reader : Options} {text : Bool}

/-- The bytes of a field without quotes. -/
theorem walk_bare (value : Bytes) (stage : Stage) {window : Window}
    (phase : stage.phase = .startField ∨ stage.phase = .bareField)
    (plain : ∀ byte ∈ value, Write.special reader.dialect.quote.toNat
      reader.dialect.delimiter.toNat byte = false)
    (accepted : checkedAll text stage.window value = some window)
    (record : stage.raw + value.length ≤ reader.limits.maxRecordBytes)
    (field : (stage.field.length + value.length : Int) ≤ reader.limits.maxFieldBytes)
    (bound : stage.offset + value.length < maxInt) :
    ∃ last, Walk reader text stage value [] last ∧ Read stage last value value.length ∧
      last.phase.closable ∧ last.window = window := by
  induction value generalizing stage with
  | nil =>
    have same : stage.window = window := by
      by_cases textual : text = true
      · simpa [checkedAll, textual, Window.run] using accepted
      · simpa [checkedAll, textual] using accepted
    exact ⟨stage, .nil, .refl stage, phase.imp_right .inl, same⟩
  | cons byte value hypothesis =>
    obtain ⟨middle, first, later⟩ := checkedAll_cons accepted
    have clean := plain byte List.mem_cons_self
    simp only [Write.special, Bool.or_eq_false_iff, decide_eq_false_iff_not] at clean
    obtain ⟨⟨⟨quote, delimiter⟩, lf⟩, cr⟩ := clean
    simp only [List.length_cons, Int.natCast_add, Int.cast_ofNat_Int] at record field bound
    let here : Stage := { stage with window := middle }
    let next : Stage :=
      { here.moved with
        phase := .bareField
        field := byte :: stage.field
        skip := false
        active := true }
    have step : Step reader here byte none next :=
      .bare phase quote delimiter ⟨lf, cr⟩ (by simp only [here]; omega) (by simp only [here]; omega)
    have read : Read stage next [byte] 1 :=
      ⟨rfl, rfl, rfl, rfl, rfl, rfl, fun skips => by cases skips⟩
    have raw := read.raw
    have offset := read.offset
    obtain ⟨last, walk, more, closable, same⟩ := hypothesis next (.inr rfl)
      (fun byte member => plain byte (List.mem_cons_of_mem _ member)) later (by omega)
      (by simp only [next, List.length_cons, Int.natCast_add, Int.cast_ofNat_Int]; omega)
      (by omega)
    have whole := read.trans more
    rw [Nat.add_comm] at whole
    exact ⟨last, .cons (by omega) first step walk, whole, closable, same⟩

/-- The bytes of a field between quotes. -/
theorem walk_doubled (symbols : Symbols reader) (value : Bytes) (stage : Stage) {window : Window}
    (phase : stage.phase = .quotedField) (skip : stage.skip = false)
    (bounded : 128 ≤ stage.window.low)
    (accepted : checkedAll text stage.window value = some window)
    (record : stage.raw + (Write.doubled reader.dialect.quote.toNat value).length ≤
      reader.limits.maxRecordBytes)
    (field : (stage.field.length + value.length : Int) ≤ reader.limits.maxFieldBytes)
    (bound : stage.offset + (Write.doubled reader.dialect.quote.toNat value).length < maxInt) :
    ∃ last, Walk reader text stage (Write.doubled reader.dialect.quote.toNat value) [] last ∧
      Read stage last value (Write.doubled reader.dialect.quote.toNat value).length ∧
      last.phase = .quotedField ∧ last.skip = false ∧ last.window = window := by
  induction value generalizing stage with
  | nil =>
    have same : stage.window = window := by
      by_cases textual : text = true
      · simpa [checkedAll, textual, Window.run] using accepted
      · simpa [checkedAll, textual] using accepted
    exact ⟨stage, .nil, .refl stage, phase, skip, same⟩
  | cons byte value hypothesis =>
    obtain ⟨middle, first, later⟩ := checkedAll_cons accepted
    have low := checked_low bounded first
    simp only [List.length_cons, Int.natCast_add, Int.cast_ofNat_Int] at field
    let here : Stage := { stage with window := middle }
    by_cases quote : byte.toNat = reader.dialect.quote.toNat
    · rw [Write.doubled_cons, if_pos quote] at record bound ⊢
      simp only [List.cons_append, List.nil_append, List.length_cons, Int.natCast_add,
        Int.cast_ofNat_Int] at record bound
      obtain ⟨code, ascii, lf, cr⟩ := symbol_valid symbols.quote
      have byte_symbol : byte = symbol reader.dialect.quote := by
        apply UInt8.toNat_inj.mp
        rw [quote, code]
      have again : checked text middle byte = some middle := by
        have same := checked_same (by omega) bounded first
        rw [same] at first ⊢
        exact first
      let closed : Stage := { here.moved with phase := .afterQuote }
      let reopened : Stage :=
        { ({ closed with window := middle } : Stage).moved with
          phase := .quotedField
          field := byte :: stage.field
          active := true }
      have closes : Step reader here byte none closed := .closes phase quote skip (by
        simp only [here]
        omega)
      have doubles : Step reader { closed with window := middle } byte none reopened :=
        .doubles rfl quote (fun same => symbols.codes (same.symm.trans quote))
          ⟨byte_symbol ▸ lf, byte_symbol ▸ cr⟩ skip
          (by simp only [closed, here, Stage.moved]; omega)
          (by simp only [closed, here, Stage.moved]; omega)
      have read : Read stage reopened [byte] 2 :=
        ⟨rfl, rfl, rfl, rfl, by simp only [reopened, closed, here, Stage.moved]; omega,
          by simp only [reopened, closed, here, Stage.moved]; omega, id⟩
      have raw := read.raw
      have offset := read.offset
      obtain ⟨last, walk, more, quoted, unskipped, same⟩ := hypothesis reopened rfl skip low later
        (by omega)
        (by simp only [reopened, List.length_cons, Int.natCast_add, Int.cast_ofNat_Int]; omega)
        (by omega)
      have whole := read.trans more
      refine ⟨last, ?_, ?_, quoted, unskipped, same⟩
      · refine .cons (by omega) first closes (.cons ?_ again doubles walk)
        simp only [closed, here, Stage.moved]
        omega
      · rw [List.length_append]
        exact whole
    · rw [Write.doubled_cons, if_neg quote] at record bound ⊢
      simp only [List.cons_append, List.nil_append, List.length_cons, Int.natCast_add,
        Int.cast_ofNat_Int] at record bound
      let next : Stage := { here.moved with field := byte :: stage.field, active := true }
      have step : Step reader here byte none next := .quoted phase quote skip
        (by simp only [here]; omega) (by simp only [here]; omega)
      have read : Read stage next [byte] 1 := ⟨rfl, rfl, rfl, rfl, rfl, rfl, id⟩
      have raw := read.raw
      have offset := read.offset
      obtain ⟨last, walk, more, quoted, unskipped, same⟩ := hypothesis next phase skip low later
        (by omega)
        (by simp only [next, List.length_cons, Int.natCast_add, Int.cast_ofNat_Int]; omega)
        (by omega)
      have whole := read.trans more
      refine ⟨last, .cons (by omega) first step walk, ?_, quoted, unskipped, same⟩
      rw [Nat.add_comm] at whole
      exact whole

/-- The bytes of a field lead to where it may end. -/
theorem walk_field (symbols : Symbols reader) (value : Bytes) (escaped : Bool) (stage : Stage)
    (phase : stage.phase = .startField) (empty : stage.field = [])
    (between : stage.window = .start) (accepted : checkedAll text .start value = some .start)
    (plain : escaped = false → ∀ byte ∈ value, Write.special reader.dialect.quote.toNat
      reader.dialect.delimiter.toNat byte = false)
    (record : stage.raw + (Write.fieldBytes reader.dialect value escaped).length ≤
      reader.limits.maxRecordBytes)
    (field : (value.length : Int) ≤ reader.limits.maxFieldBytes)
    (bound : stage.offset + (Write.fieldBytes reader.dialect value escaped).length < maxInt) :
    ∃ last, Walk reader text stage (Write.fieldBytes reader.dialect value escaped) [] last ∧
      Read stage last value (Write.fieldBytes reader.dialect value escaped).length ∧
      last.phase.closable ∧ last.window = .start := by
  cases escaped with
  | false =>
    simp only [Write.fieldBytes, Bool.false_eq_true, if_false] at record bound ⊢
    exact walk_bare value stage (.inl phase) (plain rfl) (by rw [between]; exact accepted) record
      (by rw [empty]; simpa using field) bound
  | true =>
    simp only [Write.fieldBytes, if_true, List.length_cons, List.length_append, List.length_nil,
      Int.natCast_add, Int.cast_ofNat_Int] at record bound
    obtain ⟨code, ascii, lf, cr⟩ := symbol_valid symbols.quote
    have quote_checked : checked text stage.window (symbol reader.dialect.quote) = some .start := by
      rw [between]
      exact checked_ascii text ascii
    let here : Stage := { stage with window := .start }
    let opened : Stage := { here.moved with phase := .quotedField, skip := false, active := true }
    have opens : Step reader here (symbol reader.dialect.quote) none opened :=
      .opens phase code (fun same => symbols.codes (same.symm.trans code)) ⟨lf, cr⟩
        (by simp only [here]; omega)
    obtain ⟨inside, walk, read, quoted, unskipped, same⟩ := walk_doubled symbols value
      opened rfl rfl (Int.le_refl 128) accepted
      (by simp only [opened, here, Stage.moved]; omega)
      (by simp only [opened, here, Stage.moved, empty, List.length_nil]; omega)
      (by simp only [opened, here, Stage.moved]; omega)
    have raw := read.raw
    have offset := read.offset
    simp only [opened, here, Stage.moved] at raw offset
    let closed : Stage := { ({ inside with window := .start } : Stage).moved with
      phase := .afterQuote }
    have closes : Step reader { inside with window := .start } (symbol reader.dialect.quote) none
        closed := .closes quoted code unskipped (by simp only; omega)
    have last_checked : checked text inside.window (symbol reader.dialect.quote) =
        some .start := by
      rw [same]
      exact checked_ascii text ascii
    refine ⟨closed, ?_, ?_, .inr (.inr rfl), rfl⟩
    · refine .cons (by omega) quote_checked opens ?_
      exact walk.append (.cons (by omega) last_checked closes .nil)
    · have first : Read stage opened [] 1 :=
        ⟨rfl, rfl, rfl, rfl, rfl, rfl, fun skips => by cases skips⟩
      have last : Read inside closed [] 1 := ⟨rfl, rfl, rfl, rfl, rfl, rfl, id⟩
      have whole := (first.trans read).trans last
      rw [List.nil_append, List.append_nil, Nat.add_comm 1, Nat.add_assoc] at whole
      simpa [Write.fieldBytes] using whole

/-- A reader takes what a writer gives: the same symbols, limits and width, and its ending. -/
structure Agrees (written : Write.Options) (reader : Options) : Prop where
  delimiter : reader.dialect.delimiter = written.dialect.delimiter
  quote : reader.dialect.quote = written.dialect.quote
  limits : reader.limits = written.limits
  width : reader.width = written.width
  ending : reader.dialect.endings = .anyEnding ∨ written.ending = .crLf

/-- The bytes of the fields depend on the two symbols. -/
theorem Agrees.recordBytes_eq {written : Write.Options} (agrees : Agrees written reader)
    (fields : List (Field Bytes)) (quoted : List Bool) (index : Nat) :
    Write.recordBytes written.dialect fields quoted index =
      Write.recordBytes reader.dialect fields quoted index := by
  induction fields generalizing quoted index with
  | nil => simp [Write.recordBytes]
  | cons field fields hypothesis =>
    cases quoted with
    | nil => simp [Write.recordBytes]
    | cons escaped quoted =>
      simp only [Write.recordBytes, Write.fieldBytes, hypothesis, agrees.delimiter, agrees.quote]

/-- What reading the fields of a record after a field does to a stage. -/
structure ReadFields (stage last : Stage) (values : List Bytes) (length : Nat) : Prop where
  fields : last.closed.fields = values.reverse ++ stage.closed.fields
  index : last.index = stage.index
  expected : last.expected = stage.expected
  raw : last.raw = stage.raw + length
  offset : last.offset = stage.offset + length
  skip : last.skip = true → stage.skip = true
  closable : last.phase.closable
  between : last.window = .start

/-- The fields of a record after its first. -/
theorem walk_rest {state : Write.State} (symbols : Symbols reader)
    (agrees : Agrees state.options reader) (fields : List (Field Bytes)) (quoted : List Bool)
    (index : Nat) (stage : Stage) (suited : Write.Suited state fields quoted (index + 1))
    (valid : ∀ field ∈ fields, checkedAll text .start field.value = some .start)
    (closable : stage.phase.closable) (between : stage.window = .start)
    (count : (stage.closed.fields.length + fields.length : Int) ≤ reader.limits.maxFields)
    (record : stage.raw + (Write.recordBytes reader.dialect fields quoted (index + 1)).length ≤
      reader.limits.maxRecordBytes)
    (bound : stage.offset + (Write.recordBytes reader.dialect fields quoted (index + 1)).length <
      maxInt) :
    ∃ last, Walk reader text stage (Write.recordBytes reader.dialect fields quoted (index + 1)) []
        last ∧
      ReadFields stage last (fields.map Field.value)
        (Write.recordBytes reader.dialect fields quoted (index + 1)).length := by
  induction fields generalizing quoted index stage with
  | nil =>
    have none_left : Write.recordBytes reader.dialect [] quoted (index + 1) = [] := by
      simp [Write.recordBytes]
    rw [none_left]
    exact ⟨stage, .nil, ⟨rfl, rfl, rfl, by simp, by simp, id, closable, between⟩⟩
  | cons field fields hypothesis =>
    cases suited with
    | @cons _ _ escaped quoted _ fits plain unmarked later =>
      obtain ⟨code, ascii, lf, cr⟩ := symbol_valid symbols.delimiter
      have bytes : Write.recordBytes reader.dialect (field :: fields) (escaped :: quoted)
          (index + 1) = symbol reader.dialect.delimiter ::
            (Write.fieldBytes reader.dialect field.value escaped ++
              Write.recordBytes reader.dialect fields quoted (index + 1 + 1)) := by
        simp [Write.recordBytes, symbol]
      rw [bytes] at record bound ⊢
      simp only [List.length_cons, List.length_append, Int.natCast_add, Int.cast_ofNat_Int]
        at record bound count
      let here : Stage := { stage with window := .start }
      let opened : Stage := { here.closed.moved with skip := false, active := true }
      have checks : checked text stage.window (symbol reader.dialect.delimiter) = some .start := by
        rw [between]
        exact checked_ascii text ascii
      have delimits : Step reader here (symbol reader.dialect.delimiter) none opened :=
        .delimits closable code ⟨lf, cr⟩ (by simp only [here]; omega)
          (by simp only [here]; simp only [Stage.closed, List.length_cons] at count; omega)
      have bare : escaped = false → ∀ byte ∈ field.value, Write.special
          reader.dialect.quote.toNat reader.dialect.delimiter.toNat byte = false := by
        rw [agrees.quote, agrees.delimiter]
        exact plain
      obtain ⟨middle, walk, read, closes, same⟩ := walk_field symbols field.value escaped opened
        rfl rfl rfl (valid field List.mem_cons_self) bare
        (by simp only [opened, here, Stage.closed, Stage.moved]; omega)
        (by rw [agrees.limits]; exact fits)
        (by simp only [opened, here, Stage.closed, Stage.moved]; omega)
      have raw := read.raw
      have offset := read.offset
      have done : middle.closed.fields = field.value :: stage.closed.fields := by
        have current := read.field
        have earlier := read.fields
        simp only [opened, here, Stage.closed, Stage.moved, List.append_nil] at current earlier
        simp only [Stage.closed, current, earlier, List.reverse_reverse]
      simp only [opened, here, Stage.closed, Stage.moved] at raw offset
      obtain ⟨last, more, fields_read⟩ := hypothesis quoted (index + 1) middle later
        (fun field member => valid field (List.mem_cons_of_mem _ member)) closes same
        (by rw [done, List.length_cons]; omega) (by omega) (by omega)
      refine ⟨last, .cons (by omega) checks delimits (walk.append more), ?_⟩
      refine ⟨?_, ?_, ?_, ?_, ?_, ?_, fields_read.closable, fields_read.between⟩
      · rw [fields_read.fields, done]
        simp
      · exact fields_read.index.trans read.index
      · exact fields_read.expected.trans read.expected
      · rw [fields_read.raw, raw]
        simp only [List.length_cons, List.length_append]
        omega
      · rw [fields_read.offset, offset]
        simp only [List.length_cons, List.length_append]
        omega
      · intro skips
        have opened_skips := read.skip (fields_read.skip skips)
        cases opened_skips

/-- A stage between two records. -/
structure Stage.Start (stage : Stage) : Prop extends stage.Fresh where
  field : stage.field = []
  fields : stage.fields = []
  raw : stage.raw = 0
  between : stage.window = .start

/-- The fields of a record lead from its start to where it may end. -/
theorem walk_fields {state : Write.State} (symbols : Symbols reader)
    (agrees : Agrees state.options reader) (fields : List (Field Bytes)) (quoted : List Bool)
    (stage : Stage) (start : stage.Start) (some_field : fields ≠ [])
    (suited : Write.Suited state fields quoted 0)
    (valid : ∀ field ∈ fields, checkedAll text .start field.value = some .start)
    (count : (fields.length : Int) ≤ reader.limits.maxFields)
    (record : ((Write.recordBytes reader.dialect fields quoted 0).length : Int) ≤
      reader.limits.maxRecordBytes)
    (bound : stage.offset + (Write.recordBytes reader.dialect fields quoted 0).length < maxInt) :
    ∃ last, Walk reader text stage (Write.recordBytes reader.dialect fields quoted 0) [] last ∧
      last.closed.fields = (fields.map Field.value).reverse ∧ last.index = stage.index ∧
      last.expected = stage.expected ∧ last.phase.closable ∧ last.window = .start ∧
      (last.skip = true → stage.skip = true) := by
  cases suited with
  | nil => exact absurd rfl some_field
  | @cons field fields escaped quoted _ fits plain unmarked later =>
    have bytes : Write.recordBytes reader.dialect (field :: fields) (escaped :: quoted) 0 =
        Write.fieldBytes reader.dialect field.value escaped ++
          Write.recordBytes reader.dialect fields quoted (0 + 1) := by
      simp [Write.recordBytes]
    rw [bytes] at record bound ⊢
    simp only [List.length_append, List.length_cons, Int.natCast_add, Int.cast_ofNat_Int]
      at record bound count
    have bare : escaped = false → ∀ byte ∈ field.value, Write.special
        reader.dialect.quote.toNat reader.dialect.delimiter.toNat byte = false := by
      rw [agrees.quote, agrees.delimiter]
      exact plain
    have zero := start.raw
    obtain ⟨middle, walk, read, closes, same⟩ := walk_field symbols field.value escaped stage
      start.phase start.field start.between (valid field List.mem_cons_self) bare (by omega)
      (by rw [agrees.limits]; exact fits) (by omega)
    have raw := read.raw
    have offset := read.offset
    have done : middle.closed.fields = [field.value] := by
      have current := read.field
      have earlier := read.fields
      rw [start.field, List.append_nil] at current
      rw [start.fields] at earlier
      simp only [Stage.closed, current, earlier, List.reverse_reverse]
    obtain ⟨last, more, fields_read⟩ := walk_rest symbols agrees fields quoted 0 middle later
      (fun field member => valid field (List.mem_cons_of_mem _ member)) closes same
      (by rw [done, List.length_singleton]; omega) (by omega) (by omega)
    refine ⟨last, walk.append more, ?_, fields_read.index.trans read.index,
      fields_read.expected.trans read.expected, fields_read.closable, fields_read.between,
      fun skips => read.skip (fields_read.skip skips)⟩
    rw [fields_read.fields, done]
    simp

/-- The reader is between the records the writer is between. -/
structure Synced (state : Write.State) (stage : Stage) : Prop where
  start : stage.Start
  index : stage.index = state.index
  expected : stage.expected = state.expected
  skip : stage.skip = true → state.options.ending = .cr

/-- The ending of a record completes it. -/
theorem walk_ending {written : Write.Options} (agrees : Agrees written reader) (stage : Stage)
    (closable : stage.phase.closable) (between : stage.window = .start)
    (skip : stage.skip = true → written.ending = .cr)
    (few : (stage.closed.fields.length : Int) ≤ reader.limits.maxFields)
    (admitted : stage.closed.Admitted reader)
    (bound : stage.offset + (Write.ending written).length < maxInt) :
    ∃ last, Walk reader text stage (Write.ending written) [stage.closed.fields.reverse] last ∧
      last.Start ∧ last.index = stage.index + 1 ∧
      last.expected = stage.closed.complete.expected ∧
      (last.skip = true → written.ending = .cr) := by
  have fields : (stage.fields.length : Int) < reader.limits.maxFields := by
    simp only [Stage.closed, List.length_cons] at few
    omega
  let here : Stage := { stage with window := .start }
  have admits : here.closed.Admitted reader := ⟨admitted.room, admitted.counted, admitted.width⟩
  have line_checked : ∀ byte : UInt8, byte = 10 ∨ byte = 13 →
      checked text stage.window byte = some .start := by
    intro byte line
    rw [between]
    refine checked_ascii text ?_
    obtain rfl | rfl := line <;> decide
  -- One line ending completes the record where any is taken.
  let after (byte : UInt8) : Stage :=
    { here.closed.moved.complete with skip := decide (byte = 13) }
  have completed : ∀ byte : UInt8, (byte = 10 ∨ byte = 13) →
      (stage.skip = true → byte ≠ 10) → reader.dialect.endings = .anyEnding →
      Step reader here byte (some stage.closed.fields.reverse) (after byte) :=
    fun byte line unskipped taken => .ends closable line unskipped taken fields admits
  have started : ∀ byte : UInt8, (after byte).Start :=
    fun byte => ⟨⟨rfl, rfl, rfl⟩, rfl, rfl, rfl, rfl⟩
  cases ends : written.ending with
  | lf =>
    have taken := agrees.ending.resolve_right (by simp [ends])
    have unskipped : stage.skip = true → (10 : UInt8) ≠ 10 := fun skips => by
      have cr := skip skips
      simp [ends] at cr
    simp only [Write.ending, ends, List.length_singleton] at bound ⊢
    refine ⟨after 10, .cons (by omega) (line_checked 10 (.inl rfl))
      (completed 10 (.inl rfl) unskipped taken) .nil, started 10, rfl, rfl, fun skips => ?_⟩
    have wrong : decide ((10 : UInt8) = 13) = true := skips
    exact absurd wrong (by decide)
  | cr =>
    have taken := agrees.ending.resolve_right (by simp [ends])
    simp only [Write.ending, ends, List.length_singleton] at bound ⊢
    exact ⟨after 13, .cons (by omega) (line_checked 13 (.inr rfl))
      (completed 13 (.inr rfl) (fun _ => by decide) taken) .nil, started 13, rfl, rfl,
      fun _ => trivial⟩
  | crLf =>
    simp only [Write.ending, ends, List.length_cons, List.length_nil] at bound ⊢
    have lf_checked : checked text .start 10 = some .start := checked_ascii text (by decide)
    cases endings : reader.dialect.endings with
    | anyEnding =>
      have skips : Step reader { after 13 with window := .start } 10 none
          { (after 13).moved with raw := 0, skip := false } := .skips rfl rfl
      refine ⟨{ (after 13).moved with raw := 0, skip := false },
        .cons (by omega) (line_checked 13 (.inr rfl))
          (completed 13 (.inr rfl) (fun _ => by decide) endings)
          (.cons ?_ lf_checked skips .nil),
        ⟨⟨rfl, rfl, rfl⟩, rfl, rfl, rfl, rfl⟩, rfl, rfl, fun skips => by cases skips⟩
      simp only [after, here, Stage.complete, Stage.moved, Stage.closed]
      omega
    | crLfOnly =>
      let awaiting : Stage := { here.closed.moved with phase := .awaitLf, skip := false }
      have waits : Step reader here 13 none awaiting := .waits closable endings fields
      have completes : Step reader { awaiting with window := .start } 10
          (some stage.closed.fields.reverse) awaiting.moved.complete :=
        .completes rfl ⟨admitted.room, admitted.counted, admitted.width⟩
      refine ⟨awaiting.moved.complete,
        .cons (by omega) (line_checked 13 (.inr rfl)) waits (.cons ?_ lf_checked completes .nil),
        ⟨⟨rfl, rfl, rfl⟩, rfl, rfl, rfl, rfl⟩, rfl, rfl, fun skips => by cases skips⟩
      simp only [awaiting, here, Stage.moved, Stage.closed]
      omega

/-- The writer and the reader count records alike. -/
theorem reached_eq_limited (bound : Option Int) (index : Int) :
    Write.reached bound index = limited bound index := by
  cases bound <;> rfl

/-- Every ending ends in a line ending. -/
theorem ending_terminated (written : Write.Options) :
    ∃ front byte, Write.ending written = front ++ [byte] ∧ (byte = 10 ∨ byte = 13) := by
  cases ends : written.ending with
  | crLf => exact ⟨[13], 10, by simp [Write.ending, ends], .inl rfl⟩
  | lf => exact ⟨[], 10, by simp [Write.ending, ends], .inl rfl⟩
  | cr => exact ⟨[], 13, by simp [Write.ending, ends], .inr rfl⟩

/-- The bytes of a written record are read as that record. -/
theorem walk_pushed {state next : Write.State} {record : Record Bytes} {bytes : Bytes}
    (symbols : Symbols reader) (agrees : Agrees state.options reader)
    (pushed : Write.Pushed state record bytes next)
    (valid : ∀ field ∈ record.fields, checkedAll text .start field.value = some .start)
    {stage : Stage} (synced : Synced state stage)
    (bound : stage.offset + bytes.length - (Write.opening state).length < maxInt) :
    ∃ body last, bytes = Write.opening state ++ body ∧
      Walk reader text stage body [record.fields.map Field.value] last ∧ Synced next last ∧
      ∃ front byte, body = front ++ [byte] ∧ (byte = 10 ∨ byte = 13) := by
  obtain ⟨quoted, total, measured, size, within, suited, written⟩ := pushed.body
  rw [agrees.recordBytes_eq] at size written
  rw [← agrees.limits] at within
  have few := pushed.fewFields
  rw [← agrees.limits] at few
  have length := congrArg List.length written
  simp only [List.length_append] at length
  obtain ⟨middle, walk, done, index, expected, closable, between, skip⟩ := walk_fields symbols
    agrees record.fields quoted stage synced.start pushed.nonempty suited valid few
    (by rw [← size]; exact within) (by omega)
  have moved := walk.offset
  have values_count : middle.closed.fields.length = record.fields.length := by
    rw [done, List.length_reverse, List.length_map]
  have room := pushed.room
  rw [reached_eq_limited, ← agrees.limits, ← synced.index] at room
  have admitted : middle.closed.Admitted reader := by
    refine ⟨?_, ?_, ?_⟩
    · show limited reader.limits.maxRecords middle.index = false
      rw [index]
      exact room
    · show middle.index ≠ maxInt
      rw [index, synced.index]
      exact pushed.counted
    · show reader.width = .flexible ∨ middle.expected < 0 ∨
        (middle.closed.fields.length : Int) = middle.expected
      rw [values_count, expected, synced.expected, agrees.width]
      exact pushed.width
  obtain ⟨last, ends, start, last_index, last_expected, last_skip⟩ := walk_ending agrees middle
    closable between (fun skips => synced.skip (skip skips)) (by rw [values_count]; exact few)
    admitted (by omega)
  have after := pushed.after
  refine ⟨Write.recordBytes reader.dialect record.fields quoted 0 ++ Write.ending state.options,
    last, by rw [written, List.append_assoc], ?_, ⟨start, ?_, ?_, ?_⟩, ?_⟩
  · have whole := walk.append ends
    rw [done, List.reverse_reverse] at whole
    exact whole
  · rw [last_index, index, synced.index, after]
  · rw [last_expected, after]
    simp only [Stage.complete, values_count]
    rw [show middle.closed.expected = state.expected from expected.trans synced.expected]
  · rw [after]
    exact last_skip
  · obtain ⟨front, byte, ends_in, line⟩ := ending_terminated state.options
    exact ⟨_, byte, by rw [ends_in, ← List.append_assoc], line⟩

/-- The bytes of a rendered document are read as its records. -/
theorem walk_renderLoop {records : List (Record Bytes)} {state : Write.State} {output bytes : Bytes}
    (rendered : Write.renderLoop id state records output = .ok bytes)
    (unended : state.ended = false) (counted : 0 ≤ state.index) (symbols : Symbols reader)
    (agrees : Agrees state.options reader)
    (valid : ∀ record ∈ records, ∀ field ∈ record.fields,
      checkedAll text .start field.value = some .start)
    {stage : Stage} (synced : Synced state stage)
    (bound : stage.offset + bytes.length - output.length - (Write.opening state).length < maxInt) :
    ∃ body last, bytes = output ++ (Write.opening state ++ body) ∧
      Walk reader text stage body (values records) last ∧ last.Fresh ∧ Terminated body := by
  induction records generalizing state output stage with
  | nil =>
    simp only [Write.renderLoop] at rendered
    split at rendered
    · cases rendered
    · next front next finished =>
      cases rendered
      have same := Write.finish_bytes finished unended
      exact ⟨[], stage, by rw [Write.joinInto_eq, same, List.append_nil], .nil,
        synced.start.toFresh, .inl rfl⟩
  | cons record records hypothesis =>
    simp only [Write.renderLoop, id_eq] at rendered
    split at rendered
    · cases rendered
    · next first next written =>
      have pushed := Write.push_pushed written
      have after := pushed.after
      rw [Write.joinInto_eq] at rendered
      obtain ⟨rest, whole⟩ := Write.renderLoop_extends rendered
      have length := congrArg List.length whole
      simp only [List.length_append] at length
      obtain ⟨body, middle, first_bytes, walk, synced_next, front, byte, ends, line⟩ :=
        walk_pushed symbols agrees pushed (valid record List.mem_cons_self) synced (by omega)
      have first_length := congrArg List.length first_bytes
      simp only [List.length_append] at first_length
      have moved := walk.offset
      have unmarked : Write.opening next = [] := by
        rw [after]
        simp only [Write.opening]
        rw [if_neg]
        rintro ⟨-, zero⟩
        omega
      obtain ⟨more, last, same, later, fresh, terminated⟩ := hypothesis rendered
        (by rw [after]; exact unended) (by rw [after]; simp only; omega)
        (by rw [after]; exact agrees)
        (fun record member => valid record (List.mem_cons_of_mem _ member)) synced_next
        (by simp only [List.length_append, unmarked, List.length_nil]; omega)
      refine ⟨body ++ more, last, ?_, walk.append later, fresh, ?_⟩
      · rw [same, first_bytes, unmarked]
        simp
      · obtain none_left | ⟨end_front, end_byte, end_same, end_line⟩ := terminated
        · exact .inr ⟨front, byte, by rw [none_left, List.append_nil, ends], line⟩
        · exact .inr ⟨body ++ end_front, end_byte, by rw [end_same, List.append_assoc], end_line⟩

/-- Bytes without a mark before a byte within ASCII have none with what follows either. -/
theorem unmarked_append (value : Bytes) (plain : Write.beginsBom value = false) {byte : UInt8}
    (ascii : byte.toNat ≤ 127) (rest : Bytes) : ¬ mark <+: value ++ byte :: rest := by
  have beyond : ∀ code : UInt8, 127 < code.toNat → code ≠ byte := by
    rintro code large rfl
    omega
  rintro ⟨tail, same⟩
  obtain _ | ⟨first, _ | ⟨second, _ | ⟨third, value⟩⟩⟩ := value
  · simp only [mark, List.cons_append, List.nil_append, List.cons.injEq] at same
    exact beyond 239 (by decide) same.1
  · simp only [mark, List.cons_append, List.nil_append, List.cons.injEq] at same
    exact beyond 187 (by decide) same.2.1
  · simp only [mark, List.cons_append, List.nil_append, List.cons.injEq] at same
    exact beyond 191 (by decide) same.2.2.1
  · simp only [mark, List.cons_append, List.nil_append, List.cons.injEq] at same
    obtain ⟨rfl, rfl, rfl, -⟩ := same
    simp [Write.beginsBom] at plain

/-- The first record of a text never begins with a mark of its own. -/
theorem unmarked_pushed {state next : Write.State} {record : Record Bytes} {bytes : Bytes}
    (symbols : Symbols reader) (agrees : Agrees state.options reader)
    (pushed : Write.Pushed state record bytes next) (textual : state.text = true)
    (first : state.index = 0) (silent : state.options.emitBom = false) (rest : Bytes) :
    ¬ mark <+: bytes ++ rest := by
  obtain ⟨quoted, total, measured, size, within, suited, written⟩ := pushed.body
  obtain ⟨quote_code, quote_ascii, -, -⟩ := symbol_valid symbols.quote
  obtain ⟨delimiter_code, delimiter_ascii, -, -⟩ := symbol_valid symbols.delimiter
  have nonempty := pushed.nonempty
  rw [agrees.recordBytes_eq] at written
  have bare : Write.opening state = [] := by simp [Write.opening, silent]
  rw [bare, List.nil_append] at written
  generalize record.fields = fields at suited written nonempty
  cases suited with
  | nil => exact absurd rfl nonempty
  | @cons field fields escaped quoted _ fits plain unmarked later =>
    -- What follows the first field begins with a byte within ASCII.
    obtain ⟨byte, tail, ascii, follows⟩ : ∃ (byte : UInt8) (tail : Bytes), byte.toNat ≤ 127 ∧
        Write.recordBytes reader.dialect fields quoted 1 ++ Write.ending state.options ++ rest =
          byte :: tail := by
      cases later with
      | nil =>
        cases ends : state.options.ending with
        | crLf => exact ⟨13, 10 :: rest, by decide, by simp [Write.recordBytes, Write.ending, ends]⟩
        | lf => exact ⟨10, rest, by decide, by simp [Write.recordBytes, Write.ending, ends]⟩
        | cr => exact ⟨13, rest, by decide, by simp [Write.recordBytes, Write.ending, ends]⟩
      | @cons field fields escaped quoted _ fits plain unmarked later =>
        exact ⟨symbol reader.dialect.delimiter, _, delimiter_ascii, by
          simp only [Write.recordBytes, symbol]
          rfl⟩
    have split : bytes ++ rest =
        Write.fieldBytes reader.dialect field.value escaped ++ byte :: tail := by
      rw [written, ← follows]
      simp [Write.recordBytes]
    rw [split]
    cases escaped with
    | false =>
      simp only [Write.fieldBytes, Bool.false_eq_true, if_false]
      exact unmarked_append _ (unmarked rfl textual first rfl) ascii tail
    | true =>
      have quote_first := unmarked_append [] rfl quote_ascii
        (Write.doubled reader.dialect.quote.toNat field.value ++
          [UInt8.ofNat reader.dialect.quote.toNat] ++ byte :: tail)
      simpa [Write.fieldBytes, symbol] using quote_first

/-- A reader treats the mark as the writer does: it strips one that is written, and in byte mode it
does not strip what is not. -/
structure MarkAgrees (text : Bool) (written : Write.Options) (reader : Options) (bytes : Bytes) :
    Prop where
  /-- A written mark is stripped. -/
  emitted : written.emitBom = true → reader.bom = .stripUtf8Bom
  /-- Bytes that look like a mark are preserved. -/
  silent : written.emitBom = false → text = false → reader.bom = .stripUtf8Bom → ¬ mark <+: bytes

/-- The options a writer validates are valid for a reader that agrees. -/
theorem Agrees.parser {written : Write.Options} (agrees : Agrees written reader) (text : Bool)
    (valid : validate ⟨.preserveBom, written.dialect, written.limits, written.width⟩ = .ok ()) :
    (∃ made, parser text reader = .ok made) ∧ Symbols reader := by
  simp only [validate] at valid
  split at valid
  · cases valid
  next limits =>
  split at valid
  · cases valid
  next symbols =>
  have reads : validate reader = .ok () := by
    simp only [validate, agrees.limits, limits, agrees.delimiter, agrees.quote, if_neg symbols,
      agrees.width]
    exact valid
  simp only [not_or, not_not] at symbols
  refine ⟨⟨_, by simp only [Csv.parser, reads]; rfl⟩, ?_, ?_, ?_⟩
  · rw [agrees.delimiter]
    exact symbols.1
  · rw [agrees.quote]
    exact symbols.2.1
  · rw [agrees.delimiter, agrees.quote]
    exact symbols.2.2

/-- The writer of a document before its first record. -/
def Write.Options.initial (text : Bool) (written : Write.Options) : Write.State where
  bytes := 0
  ended := false
  expected := written.width.initial
  index := 0
  options := { written with maxOutputBytes := some written.maximum }
  text := text

/-- A rendered document, from its first state. -/
theorem render_eq {text : Bool} {written : Write.Options} {records : List (Record Bytes)}
    {bytes : Bytes} (rendered : Write.render text written records = .ok bytes) :
    validate ⟨.preserveBom, written.dialect, written.limits, written.width⟩ = .ok () ∧
      Write.renderLoop id (written.initial text) records [] = .ok bytes := by
  simp only [Write.render, Write.renderWith] at rendered
  split at rendered
  · cases rendered
  next state made =>
  simp only [Write.state] at made
  split at made
  · cases made
  next valid =>
  split at made
  · cases made
  · cases made
    exact ⟨valid, rendered⟩

/-- A document without a mark of its own does not begin with one in a text. -/
theorem unmarked_render {written : Write.Options} {records : List (Record Bytes)} {bytes : Bytes}
    (loop : Write.renderLoop id (written.initial true) records [] = .ok bytes)
    (symbols : Symbols reader) (agrees : Agrees written reader)
    (silent : written.emitBom = false) : ¬ mark <+: bytes := by
  have state_agrees : Agrees (written.initial true).options reader := { agrees with }
  cases records with
  | nil =>
    simp only [Write.renderLoop] at loop
    split at loop
    · cases loop
    · next front next finished =>
      cases loop
      have none_written := Write.finish_bytes finished rfl
      simp [none_written, Write.joinInto_eq, Write.opening, Write.Options.initial, silent, mark]
  | cons record records =>
    simp only [Write.renderLoop, id_eq] at loop
    split at loop
    · cases loop
    · next first next written_first =>
      obtain ⟨rest, same⟩ := Write.renderLoop_extends loop
      rw [Write.joinInto_eq, List.nil_append] at same
      rw [same]
      exact unmarked_pushed symbols state_agrees (Write.push_pushed written_first) rfl rfl silent
        rest

/-- The byte machine reads a rendered document back. -/
theorem transduce_rendered {written : Write.Options} {records : List (Record Bytes)} {bytes : Bytes}
    (rendered : Write.render text written records = .ok bytes) (agrees : Agrees written reader)
    (marks : MarkAgrees text written reader bytes)
    (encoded : text = true → ∀ record ∈ records, ∀ field ∈ record.fields,
      ∃ chars, field.value = Utf8.encode chars)
    (input : ∀ maximum, reader.limits.maxInputBytes = some maximum →
      (bytes.length : Int) ≤ maximum)
    (addressable : (bytes.length : Int) < maxInt) {made : Parser}
    (built : parser text reader = .ok made) (symbols : Symbols reader) :
    ∃ found, (transduce consume made bytes).andThen closing = (found, .ok ()) ∧
      values found = values records := by
  obtain ⟨-, loop⟩ := render_eq rendered
  have fresh := parser_made built
  have state_agrees : Agrees (written.initial text).options reader := { agrees with }
  have valid : ∀ record ∈ records, ∀ field ∈ record.fields,
      checkedAll text .start field.value = some .start := by
    intro record member field inside
    by_cases textual : text = true
    · obtain ⟨chars, same⟩ := encoded textual record member field inside
      rw [checkedAll, if_pos textual, same]
      exact Window.run_encode chars
    · rw [checkedAll, if_neg textual]
  have synced : ∀ offset, Synced (written.initial text) (.first reader offset) := by
    intro offset
    refine ⟨⟨⟨rfl, rfl, rfl⟩, rfl, rfl, rfl, rfl⟩, rfl, ?_, fun skips => by cases skips⟩
    show reader.width.initial = written.width.initial
    rw [agrees.width]
  cases emits : written.emitBom with
  | true =>
    have opening : Write.opening (written.initial text) = mark := by
      simp [Write.opening, Write.Options.initial, emits, Write.bom, mark]
    obtain ⟨body, last, same, walk, done, -⟩ := walk_renderLoop loop rfl (Int.le_refl 0) symbols
      state_agrees valid (synced 3)
      (by simp only [Stage.first, List.length_nil, opening, mark, List.length_cons]; omega)
    rw [opening, List.nil_append] at same
    subst same
    exact fresh.reads_marked (marks.emitted emits) walk done input
  | false =>
    have opening : Write.opening (written.initial text) = [] := by
      simp [Write.opening, Write.Options.initial, emits]
    obtain ⟨body, last, same, walk, done, terminated⟩ := walk_renderLoop loop rfl (Int.le_refl 0)
      symbols state_agrees valid (synced 0) (by simp only [Stage.first, List.length_nil]; omega)
    rw [opening, List.nil_append, List.nil_append] at same
    subst same
    refine fresh.reads walk done terminated ?_ input
    intro strips
    cases text with
    | false => exact marks.silent emits rfl strips
    | true => exact unmarked_render loop symbols agrees emits

/-- A document that the writer renders is read back with the values of its records in order, however
it is cut into chunks, by a reader with the same symbols, limits and width that takes its ending and
treats the mark alike: a text of encoded characters, or bytes, within the reader's bound on the
input and below the largest offset. The bytes of each record are as many as measured. -/
theorem render_reads_back :
    (∀ text written reader records bytes, Write.render text written records = .ok bytes →
      Agrees written reader → MarkAgrees text written reader bytes →
      (text = true → ∀ record ∈ records, ∀ field ∈ record.fields,
        ∃ chars, field.value = Utf8.encode chars) →
      (∀ maximum, reader.limits.maxInputBytes = some maximum → (bytes.length : Int) ≤ maximum) →
      (bytes.length : Int) < maxInt →
      ∃ made, parser text reader = .ok made ∧
        ∀ chunks : List Bytes, chunks.flatten = bytes → ∃ driven,
          (∀ calls, bytes.length + chunks.length + 3 ≤ calls →
            drive calls made chunks = some driven) ∧
          driven.outcome = .ok () ∧ values driven.records = values records) ∧
    ∀ state record bytes next, Write.pushRecord state record = .ok (bytes, next) →
      ∃ quoted total, Write.measure state record record.fields 0 0 [] = .ok (total, quoted) ∧
        total ≤ state.options.limits.maxRecordBytes ∧
        (bytes.length : Int) =
          (Write.opening state).length + total + (Write.ending state.options).length ∧
        next.bytes = state.bytes + bytes.length := by
  refine ⟨?_, ?_⟩
  · intro text written reader records bytes rendered agrees marks encoded input addressable
    obtain ⟨valid, -⟩ := render_eq rendered
    obtain ⟨⟨made, built⟩, symbols⟩ := agrees.parser text valid
    obtain ⟨found, outputs, same⟩ := transduce_rendered rendered agrees marks encoded input
      addressable built symbols
    refine ⟨made, built, ?_⟩
    rintro chunks rfl
    have opened := parser_open built
    refine ⟨⟨found, .ok ()⟩, fun calls enough => ?_, rfl, same⟩
    have driven := run_driven calls made chunks [] 0 [] opened (Int.le_refl 0) (by simp)
      (by simpa using enough)
    simpa [drive, outputs] using driven
  · intro state record bytes next written
    have pushed := Write.pushRecord_pushed written
    obtain ⟨quoted, total, measured, size, within, suited, same⟩ := pushed.body
    refine ⟨quoted, total, measured, within, ?_, ?_⟩
    · rw [same]
      simp only [List.length_append]
      omega
    · rw [pushed.after]

/-- A record with a field for each value. -/
def recordOf (fields : List Bytes) : Record Bytes where
  fields := fields.map fun value => ⟨false, none, value⟩
  source := none

/-- The reader's and the writer's options unless told otherwise agree. -/
theorem options_agree : Agrees Write.options options := ⟨rfl, rfl, rfl, rfl, .inl rfl⟩

/-- A text reader treats the mark as a writer that emits none. -/
theorem options_mark (bytes : Bytes) : MarkAgrees true Write.options options bytes where
  emitted emits := by cases emits
  silent _ raw := by cases raw

/-- A letter beyond ASCII and a field that needs quotes, written and read back in one chunk. -/
theorem render_reads_back_text :
    ∃ bytes made, Write.render true Write.options [recordOf [[0xC3, 0xA9], [44, 34]]] =
        .ok bytes ∧
      parser true options = .ok made ∧ ∃ driven, drive 20 made [bytes] = some driven ∧
        driven.outcome = .ok () ∧ values driven.records = [[[0xC3, 0xA9], [44, 34]]] := by
  have rendered : Write.render true Write.options [recordOf [[0xC3, 0xA9], [44, 34]]] =
      .ok [0xC3, 0xA9, 44, 34, 44, 34, 34, 34, 13, 10] := by decide +kernel
  have encoded : true = true → ∀ record ∈ [recordOf [[0xC3, 0xA9], [44, 34]]],
      ∀ field ∈ record.fields, ∃ chars, field.value = Utf8.encode chars := by
    intro _ record member field inside
    simp only [List.mem_singleton] at member
    subst member
    simp only [recordOf, List.map_cons, List.map_nil, List.mem_cons, List.not_mem_nil,
      or_false] at inside
    obtain rfl | rfl := inside
    · exact ⟨['é'], by decide +kernel⟩
    · exact ⟨[',', '"'], by decide +kernel⟩
  obtain ⟨made, built, reads⟩ := render_reads_back.1 true Write.options options _ _ rendered
    options_agree (options_mark _) encoded
    (fun maximum bounded => by cases bounded) (by decide)
  obtain ⟨driven, runs, succeeds, same⟩ :=
    reads [[0xC3, 0xA9, 44, 34, 44, 34, 34, 34, 13, 10]] (by simp)
  exact ⟨_, made, rendered, built, driven, runs 20 (by decide), succeeds, same⟩

/-- A text whose bytes are no encoding is written, and refused by the reader. -/
theorem render_invalid_text :
    ¬ ∀ text written reader records bytes, Write.render text written records = .ok bytes →
      Agrees written reader → MarkAgrees text written reader bytes →
      ∃ made, parser text reader = .ok made ∧ ∃ driven,
        (∀ calls, bytes.length + 4 ≤ calls → drive calls made [bytes] = some driven) ∧
        driven.outcome = .ok () ∧ values driven.records = values records := by
  intro inverse
  have rendered : Write.render true Write.options [recordOf [[255]]] = .ok [255, 13, 10] := by
    decide +kernel
  obtain ⟨made, built, driven, runs, succeeds, -⟩ := inverse true Write.options options _ _ rendered
    options_agree (options_mark _)
  have refused : ((parser true options).toOption.bind fun made =>
      (drive 9 made [[255, 13, 10]]).map fun driven => driven.outcome.isOk) = some false := by
    decide +kernel
  have reads := runs 9 (by decide)
  rw [built] at refused
  simp only [Except.toOption, Option.bind_some, reads, Option.map_some, succeeds, Except.isOk,
    Except.toBool] at refused
  cases refused

end Fai.Csv
