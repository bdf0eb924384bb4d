import FaiVerif.Csv.Write

/-!
# The bytes of a written record

The loops of the writer in closed form: a field between quotes has each of its quotes twice, a
record has delimiters between its fields, and the measure of a record is the number of its bytes.
A field is left without quotes only when nothing in it could be taken for syntax.
-/

namespace Fai.Csv.Write

/-- Each quote twice. -/
def doubled (quote : Nat) (bytes : Bytes) : Bytes :=
  bytes.flatMap fun byte => if byte.toNat = quote then [byte, byte] else [byte]

/-- The number of quotes. -/
def quotes (quote : Nat) (bytes : Bytes) : Nat := bytes.countP fun byte => byte.toNat = quote

/-- A byte that could be taken for syntax. -/
def special (quote delimiter : Nat) (byte : UInt8) : Bool :=
  decide (byte.toNat = quote) || decide (byte.toNat = delimiter) || decide (byte = 10) ||
    decide (byte = 13)

/-- The quotes of a first byte and of those after it. -/
theorem quotes_cons (quote : Nat) (byte : UInt8) (bytes : Bytes) :
    quotes quote (byte :: bytes) = quotes quote bytes + if byte.toNat = quote then 1 else 0 := by
  simp [quotes, List.countP_cons]

/-- Doubling a first byte and those after it. -/
theorem doubled_cons (quote : Nat) (byte : UInt8) (bytes : Bytes) :
    doubled quote (byte :: bytes) =
      (if byte.toNat = quote then [byte, byte] else [byte]) ++ doubled quote bytes := rfl

/-- Doubling adds as many bytes as there are quotes. -/
theorem length_doubled (quote : Nat) (bytes : Bytes) :
    (doubled quote bytes).length = bytes.length + quotes quote bytes := by
  induction bytes with
  | nil => rfl
  | cons byte bytes hypothesis =>
    rw [doubled_cons, List.length_append, hypothesis, quotes_cons]
    by_cases same : byte.toNat = quote
    · simp only [if_pos same, List.length_cons, List.length_nil]
      omega
    · simp only [if_neg same, List.length_cons, List.length_nil]
      omega

/-- Copying appends the bytes, doubled where they are escaped. -/
theorem copy_eq (bytes : Bytes) (quote : Nat) (escaped : Bool) (output : List UInt8) :
    copy bytes quote escaped output =
      output ++ if escaped = true then doubled quote bytes else bytes := by
  induction bytes generalizing output with
  | nil => cases escaped <;> simp [copy, doubled]
  | cons byte bytes hypothesis =>
    rw [copy, hypothesis]
    cases escaped with
    | false => simp
    | true =>
      by_cases same : byte.toNat = quote
      · simp [same, doubled]
      · simp [same, doubled]

/-- Joining appends. -/
theorem joinInto_eq (bytes : Bytes) (output : List UInt8) :
    joinInto bytes output = output ++ bytes := by
  simp [joinInto, copy_eq]

/-- The scan counts quotes and finds syntax. -/
theorem scan_eq (bytes : Bytes) (quote delimiter : Nat) (count : Int) (needsQuote : Bool) :
    scan bytes quote delimiter count needsQuote =
      (count + quotes quote bytes, needsQuote || bytes.any (special quote delimiter)) := by
  induction bytes generalizing count needsQuote with
  | nil => simp [scan, quotes]
  | cons byte bytes hypothesis =>
    rw [scan, hypothesis, quotes_cons]
    refine Prod.ext ?_ ?_
    · by_cases same : byte.toNat = quote
      · simp only [if_pos same]
        omega
      · simp only [if_neg same]
        omega
    · simp [special, Bool.or_assoc]

/-- The bytes of a field. -/
def fieldBytes (dialect : Dialect) (value : Bytes) (escaped : Bool) : Bytes :=
  if escaped = true then
    UInt8.ofNat dialect.quote.toNat ::
      (doubled dialect.quote.toNat value ++ [UInt8.ofNat dialect.quote.toNat])
  else value

/-- The bytes of the fields from an index on. -/
def recordBytes (dialect : Dialect) : List (Field Bytes) → List Bool → Nat → Bytes
  | field :: fields, escaped :: quoted, index =>
    (if index = 0 then [] else [UInt8.ofNat dialect.delimiter.toNat]) ++
      fieldBytes dialect field.value escaped ++ recordBytes dialect fields quoted (index + 1)
  | _, _, _ => []

/-- Encoding appends the bytes of the fields. -/
theorem encodeFields_eq (options : Options) (fields : List (Field Bytes)) (quoted : List Bool)
    (index : Nat) (output : List UInt8) :
    encodeFields options fields quoted index output =
      output ++ recordBytes options.dialect fields quoted index := by
  induction fields generalizing quoted index output with
  | nil => simp [encodeFields, recordBytes]
  | cons field fields hypothesis =>
    cases quoted with
    | nil => simp [encodeFields, recordBytes]
    | cons escaped quoted =>
      rw [encodeFields, recordBytes, hypothesis, copy_eq]
      cases escaped <;> by_cases first : index = 0 <;> simp [first, fieldBytes]

/-- The scan of a field counts its quotes. -/
theorem scanField_quotes (state : State) (index : Nat) (value : Bytes) :
    (scanField state index value).1 = quotes state.options.dialect.quote.toNat value := by
  simp [scanField, scan_eq]

/-- A field has its own bytes and its overhead. -/
theorem length_fieldBytes (state : State) (index : Nat) (value : Bytes) (escaped : Bool) :
    ((((if index = 0 then [] else [UInt8.ofNat state.options.dialect.delimiter.toNat]) ++
      fieldBytes state.options.dialect value escaped).length : Nat) : Int) =
      overhead index (scanField state index value).1 escaped + value.length := by
  rw [scanField_quotes, List.length_append, overhead]
  cases escaped with
  | false =>
    by_cases first : index = 0 <;> simp [first, fieldBytes, Int.add_comm]
  | true =>
    by_cases first : index = 0 <;> simp [first, fieldBytes, length_doubled] <;> omega

/-- Each field is within its limit, and quoted where it has to be. -/
inductive Suited (state : State) : List (Field Bytes) → List Bool → Nat → Prop where
  | nil {index : Nat} : Suited state [] [] index
  | cons {field : Field Bytes} {fields : List (Field Bytes)} {escaped : Bool}
    {quoted : List Bool} {index : Nat}
    (fits : (field.value.length : Int) ≤ state.options.limits.maxFieldBytes)
    (plain : escaped = false → ∀ byte ∈ field.value,
      special state.options.dialect.quote.toNat state.options.dialect.delimiter.toNat byte = false)
    (unmarked : escaped = false → state.text = true → state.index = 0 → index = 0 →
      beginsBom field.value = false)
    (later : Suited state fields quoted (index + 1)) :
    Suited state (field :: fields) (escaped :: quoted) index

/-- A measured record has as many bytes as measured, within the limit, and suited quotes. -/
theorem measure_eq {state : State} {record : Record Bytes} {fields : List (Field Bytes)}
    {index : Nat} {total measured : Int} {quoted flags : List Bool}
    (result : measure state record fields index total quoted = .ok (measured, flags))
    (within : total ≤ state.options.limits.maxRecordBytes ∨ fields ≠ []) :
    ∃ chosen, flags = quoted ++ chosen ∧ Suited state fields chosen index ∧
      measured = total + (recordBytes state.options.dialect fields chosen index).length ∧
      measured ≤ state.options.limits.maxRecordBytes := by
  induction fields generalizing index total quoted with
  | nil =>
    simp only [measure, Except.ok.injEq, Prod.mk.injEq] at result
    obtain ⟨rfl, rfl⟩ := result
    exact ⟨[], (List.append_nil _).symm, .nil, by simp [recordBytes],
      within.resolve_right (by simp)⟩
  | cons field fields hypothesis =>
    by_cases long : state.options.limits.maxFieldBytes < field.value.length
    · simp [measure, long] at result
    by_cases full : state.options.limits.maxRecordBytes - total <
          overhead index (scanField state index field.value).1
            (scanField state index field.value).2 ∨
        state.options.limits.maxRecordBytes - total -
          overhead index (scanField state index field.value).1
            (scanField state index field.value).2 < field.value.length
    · simp only [measure, if_neg long, if_pos full] at result
      cases result
    simp only [measure, if_neg long, if_neg full] at result
    obtain ⟨chosen, rfl, suited, counted, fits⟩ := hypothesis result (.inl (by omega))
    refine ⟨(scanField state index field.value).2 :: chosen, List.append_assoc _ _ _, ?_, ?_, fits⟩
    · refine .cons (by omega) ?_ ?_ suited
      · intro bare byte member
        simp only [scanField, scan_eq, Bool.or_eq_false_iff] at bare
        have none_special := bare.2
        rw [List.any_eq_false] at none_special
        exact Bool.eq_false_iff.mpr (none_special byte member)
      · intro bare text first_record first_field
        simp only [scanField, scan_eq, Bool.or_eq_false_iff] at bare
        simpa [text, first_record, first_field] using bare.1.2
    · have size := length_fieldBytes state index field.value (scanField state index field.value).2
      rw [counted, recordBytes, List.length_append]
      omega

/-- What a written record is. -/
structure Pushed (state : State) (record : Record Bytes) (bytes : Bytes) (next : State) : Prop where
  /-- The state after it. -/
  after : next =
    { state with
      bytes := state.bytes + bytes.length
      expected := if state.expected < 0 then record.fields.length else state.expected
      index := state.index + 1 }
  /-- The document has not ended. -/
  unended : state.ended = false
  /-- It has a field. -/
  nonempty : record.fields ≠ []
  /-- It has no more fields than allowed. -/
  fewFields : (record.fields.length : Int) ≤ state.options.limits.maxFields
  /-- It has the expected width. -/
  width : state.options.width = .flexible ∨ state.expected < 0 ∨
    record.fields.length = state.expected
  /-- There is room for a record. -/
  counted : state.index ≠ maxInt
  /-- There is room for a record. -/
  room : reached state.options.limits.maxRecords state.index = false
  /-- The measure of its fields, its bytes and its quotes. -/
  body : ∃ quoted total, measure state record record.fields 0 0 [] = .ok (total, quoted) ∧
    total = (recordBytes state.options.dialect record.fields quoted 0).length ∧
    total ≤ state.options.limits.maxRecordBytes ∧ Suited state record.fields quoted 0 ∧
    bytes = opening state ++ recordBytes state.options.dialect record.fields quoted 0 ++
      ending state.options

/-- A record that is written is measured first, and its bytes are as many as measured. -/
theorem pushRecord_pushed {state next : State} {record : Record Bytes} {bytes : Bytes}
    (written : pushRecord state record = .ok (bytes, next)) : Pushed state record bytes next := by
  simp only [pushRecord] at written
  split at written
  · cases written
  next unended =>
  split at written
  · cases written
  next nonempty =>
  split at written
  · cases written
  next few =>
  split at written
  · cases written
  next width =>
  split at written
  · cases written
  next counted =>
  split at written
  · cases written
  next total quoted measured =>
  split at written
  · cases written
  next fits =>
  have fields : record.fields ≠ [] := fun empty => nonempty (by simp [empty])
  obtain ⟨chosen, same, suited, size, within⟩ := measure_eq measured (.inr fields)
  rw [List.nil_append] at same
  subst same
  simp only [encodeFields_eq, Except.ok.injEq, Prod.mk.injEq] at written
  obtain ⟨rfl, rfl⟩ := written
  rw [not_or] at counted
  refine ⟨?_, Bool.eq_false_iff.mpr unended, fields, by omega, ?_, counted.1,
    Bool.eq_false_iff.mpr counted.2, quoted, total, measured, by omega, within, suited, rfl⟩
  · have count : (total + ((opening state).length + (ending state.options).length : Int)) =
        ((opening state ++ recordBytes state.options.dialect record.fields quoted 0 ++
          ending state.options).length : Nat) := by
      simp only [List.length_append]
      omega
    rw [count]
  · by_cases flexible : state.options.width = .flexible
    · exact .inl flexible
    · refine .inr ?_
      by_cases unknown : state.expected < 0
      · exact .inl unknown
      · refine .inr ?_
        by_contra differs
        exact width ⟨flexible, by omega, differs⟩

/-- A record that is encoded is written. -/
theorem push_pushed {state next : State} {record : Record Bytes} {bytes : Bytes}
    (written : push state record = .ok (bytes, next)) : Pushed state record bytes next := by
  refine pushRecord_pushed ?_
  cases found : pushRecord state record with
  | error error => simp [push, found, Except.mapError] at written
  | ok pair => simpa [push, found, Except.mapError] using written

/-- The end of a document that has not ended writes what a record would begin with. -/
theorem finish_bytes {state next : State} {bytes : Bytes}
    (finished : finish state = .ok (bytes, next)) (unended : state.ended = false) :
    bytes = opening state := by
  have front : (if state.options.emitBom = true ∧ state.index = 0 ∧ state.ended = false then bom
      else []) = opening state := by
    simp [opening, unended]
  simp only [finish, front] at finished
  split at finished
  · cases finished
  · cases finished
    rfl

/-- Rendering goes on after the output. -/
theorem renderLoop_extends {α : Type} {convert : α → Record Bytes} {records : List α}
    {state : State} {output bytes : Bytes}
    (rendered : renderLoop convert state records output = .ok bytes) :
    ∃ rest, bytes = output ++ rest := by
  induction records generalizing state output with
  | nil =>
    simp only [renderLoop] at rendered
    split at rendered
    · cases rendered
    · cases rendered
      exact ⟨_, joinInto_eq _ _⟩
  | cons record records hypothesis =>
    simp only [renderLoop] at rendered
    split at rendered
    · cases rendered
    · obtain ⟨rest, rfl⟩ := hypothesis rendered
      exact ⟨_, by rw [joinInto_eq, List.append_assoc]⟩

end Fai.Csv.Write
