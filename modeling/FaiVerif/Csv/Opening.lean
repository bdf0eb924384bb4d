import FaiVerif.Csv.Stages

/-!
# The two ends of the input

A reader that preserves a byte-order mark is at the first stage at once. One that strips it is
there after the mark, and where there is no mark it arrives where the steps lead, by replaying what
it held back. At the end of the input a parser between two records has nothing to add.
-/

namespace Fai.Csv

open Incremental Utf8

/-- The stage before the first record, after some bytes. -/
def Stage.first (reader : Options) (offset : Int) : Stage where
  phase := .startField
  field := []
  fields := []
  raw := 0
  offset := offset
  index := 0
  expected := reader.width.initial
  skip := false
  active := false
  window := .start

/-- Nothing has been read of the next record. -/
structure Stage.Fresh (stage : Stage) : Prop where
  phase : stage.phase = .startField
  active : stage.active = false
  complete : stage.window.remaining = 0

variable {reader : Options} {text : Bool}

/-- At the end of the input a parser between two records has nothing to add. -/
theorem At.closing {stage : Stage} {before : Parser} (here : At reader text stage before)
    (fresh : stage.Fresh) : closing before = ([], .ok ()) := by
  have mode := here.mode_eq .startField fresh.phase (by simp [Mode.phase])
  have complete : before.utfRemaining = 0 := by
    rw [← fresh.complete, ← here.window]
  have ended : (finish before).status = .ended := by
    simp [finish, here.live, here.unended, here.decided, finishRead, complete, mode, here.active,
      fresh.active, result]
  simp [Csv.closing, ended]

/-- A new parser. -/
structure Made (reader : Options) (text : Bool) (made : Parser) : Prop where
  /-- It has read nothing. -/
  unread : made.inputBytes = 0
  /-- It holds nothing back. -/
  unheld : made.prefixBytes = []
  /-- It has nothing to replay. -/
  replayed : made.replay = []
  /-- The mark is decided where it is preserved. -/
  bom : made.bomDone = decide (reader.bom = .preserveBom)
  /-- Once the mark is decided it is at the first stage. -/
  first : At reader text (.first reader 0) { made with bomDone := true }

/-- The parser of validated options is new. -/
theorem parser_made {made : Parser} (built : parser text reader = .ok made) :
    Made reader text made := by
  simp only [parser] at built
  split at built
  · cases built
  · cases built
    exact ⟨rfl, rfl, rfl, rfl,
      by constructor <;> simp [Stage.first, Mode.phase, start, Window.start]⟩

/-- A replay follows a walk whose last byte alone may end a record. -/
theorem Walk.replays {stage last : Stage} {held : Bytes} {byte : UInt8}
    {outs : List (List Bytes)} {before : Parser}
    (walk : Walk reader text stage (held ++ [byte]) outs last)
    (here : At reader text stage before) (plain : ∀ byte ∈ held, ¬ (byte = 10 ∨ byte = 13)) :
    ∃ out, outs = out.toList ∧
      At reader text last (replayLoop (held ++ [byte]) before 0).parser ∧
      Delivers out (replayLoop (held ++ [byte]) before 0).status ∧
      (replayLoop (held ++ [byte]) before 0).parser.inputBytes = before.inputBytes := by
  induction held generalizing stage outs before with
  | nil =>
    cases walk with
    | @cons _ middle _ _ _ window out rest bound accepted step later =>
      cases later
      have ahead : At reader text stage { before with replay := [] } := { here with }
      obtain ⟨there, delivers⟩ := step.follows_checked accepted ahead bound
      have count := process_inputBytes { before with replay := [] } byte 0
      refine ⟨out, List.append_nil _, ?_⟩
      simp only [List.nil_append, replayLoop]
      cases out with
      | none =>
        have asks : (process { before with replay := [] } byte 0).status = .needInput := delivers
        simp only [Feed.resume, asks, result]
        exact ⟨{ there with }, rfl, count⟩
      | some found =>
        obtain ⟨record, ready, held⟩ := delivers
        simp only [Feed.resume, ready]
        exact ⟨there, ⟨record, rfl, held⟩, count⟩
  | cons first held hypothesis =>
    cases walk with
    | @cons _ middle _ _ _ window out rest bound accepted step later =>
      have ahead : At reader text stage { before with replay := held ++ [byte] } := { here with }
      obtain ⟨there, delivers⟩ := step.follows_checked accepted ahead bound
      have count := process_inputBytes { before with replay := held ++ [byte] } first 0
      cases out with
      | none =>
        have asks : (process { before with replay := held ++ [byte] } first 0).status =
          .needInput := delivers
        obtain ⟨out, same, final, delivered, last_count⟩ :=
          hypothesis later there fun byte member => plain byte (List.mem_cons_of_mem _ member)
        refine ⟨out, same, ?_⟩
        simp only [List.cons_append, replayLoop, Feed.resume, asks]
        exact ⟨final, delivered, last_count.trans count⟩
      | some found =>
        obtain ⟨record, ready, -⟩ := delivers
        have reports := process_reports { before with replay := held ++ [byte] } first 0
        generalize process { before with replay := held ++ [byte] } first 0 = fed at reports ready
        cases reports with
        | more keeps => simp [result] at ready
        | record reason keeps => exact absurd reason (plain first List.mem_cons_self)
        | failed keeps => simp [failed] at ready

/-- The bytes of a byte-order mark. -/
def mark : Bytes := [239, 187, 191]

/-- A parser holds back a proper beginning of a mark, and nothing else has been read. -/
structure Holding (reader : Options) (text : Bool) (held : Bytes) (parser : Parser) : Prop where
  undecided : parser.bomDone = false
  bytes : parser.prefixBytes = held
  replayed : parser.replay = []
  counted : parser.inputBytes = held.length
  proper : held.length < 3
  beginning : held = mark.take held.length
  first : At reader text (.first reader 0) { parser with bomDone := true }

/-- A mark has a byte after each of its beginnings. -/
theorem mark_take (count : Nat) (proper : count < 3) :
    mark.take (count + 1) = mark.take count ++ [bomByte (count + 1)] := by
  obtain rfl | rfl | rfl : count = 0 ∨ count = 1 ∨ count = 2 := by omega
  all_goals rfl

/-- A beginning of a mark has no line ending. -/
theorem Holding.plain {held : Bytes} {parser : Parser} (holding : Holding reader text held parser) :
    ∀ byte ∈ held, ¬ (byte = 10 ∨ byte = 13) := by
  intro byte member
  rw [holding.beginning] at member
  have found := List.mem_of_mem_take member
  simp only [mark, List.mem_cons, List.not_mem_nil, or_false] at found
  obtain rfl | rfl | rfl := found <;> decide

/-- A new parser that strips the mark holds nothing back. -/
theorem Made.holding {made : Parser} (fresh : Made reader text made)
    (strips : reader.bom = .stripUtf8Bom) : Holding reader text [] made where
  undecided := by rw [fresh.bom, strips]; rfl
  bytes := fresh.unheld
  replayed := fresh.replayed
  counted := fresh.unread
  proper := by decide
  beginning := rfl
  first := fresh.first

/-- The next byte of a mark is held back too. -/
theorem Holding.more {held : Bytes} {parser : Parser} (holding : Holding reader text held parser)
    (within : ¬ parser.exhausted = true) (short : held.length < 2) :
    ∃ after, consume parser (bomByte (held.length + 1)) = (after, .more) ∧
      Holding reader text (held ++ [bomByte (held.length + 1)]) after := by
  have kept : holdByte parser.counted (bomByte (held.length + 1)) =
      { parser.counted with prefixBytes := held ++ [bomByte (held.length + 1)] } := by
    have bytes : parser.counted.prefixBytes = held := holding.bytes
    simp [holdByte, bytes]
    omega
  refine ⟨{ parser.counted with prefixBytes := held ++ [bomByte (held.length + 1)] }, ?_, ?_⟩
  · rw [consume_undecided _ within holding.undecided, kept]
    have replayed : ({ parser.counted with
        prefixBytes := held ++ [bomByte (held.length + 1)] } : Parser).replay = [] :=
      holding.replayed
    rw [replayLoop_settled replayed]
    rfl
  · exact
      { undecided := holding.undecided
        bytes := rfl
        replayed := holding.replayed
        counted := by
          show parser.inputBytes + 1 = _
          rw [holding.counted, List.length_append]
          rfl
        proper := by
          simp only [List.length_append, List.length_singleton]
          omega
        beginning := by
          rw [List.length_append, List.length_singleton, mark_take _ holding.proper]
          exact congrArg (· ++ _) holding.beginning
        first := { holding.first with } }

/-- The last byte of a mark leads to the first stage after it. -/
theorem Holding.marked {held : Bytes} {parser : Parser} (holding : Holding reader text held parser)
    (within : ¬ parser.exhausted = true) (long : held.length = 2) :
    ∃ after, consume parser (bomByte (held.length + 1)) = (after, .more) ∧
      At reader text (.first reader 3) after ∧ after.inputBytes = 3 := by
  have bytes : parser.counted.prefixBytes = held := holding.bytes
  have made : holdByte parser.counted (bomByte (held.length + 1)) =
      { parser.counted with
        bomDone := true
        fieldStart := ⟨4, 3, 1⟩
        position := ⟨4, 3, 1⟩
        prefixBytes := []
        recordStart := ⟨4, 3, 1⟩ } := by
    simp [holdByte, bytes, long]
  have replayed : (holdByte parser.counted (bomByte (held.length + 1))).replay = [] := by
    rw [made]
    exact holding.replayed
  refine ⟨holdByte parser.counted (bomByte (held.length + 1)), ?_, ?_, ?_⟩
  · rw [consume_undecided _ within holding.undecided, replayLoop_settled replayed]
    rfl
  · have first := holding.first
    rw [made]
    exact { first with
      offset := rfl
      nonneg := by simp [Stage.first]
      column := by simp [Stage.first]
      line := by simp [Stage.first]
      raw := by simp [Stage.first] }
  · rw [made]
    show parser.inputBytes + 1 = 3
    rw [holding.counted, long]
    rfl

/-- A byte that shows there is no mark releases what was held back, and the parser follows the walk
over all of it. -/
theorem Holding.released {held : Bytes} {parser : Parser}
    (holding : Holding reader text held parser) (within : ¬ parser.exhausted = true)
    {byte : UInt8} {rest : Bytes} (differs : byte ≠ bomByte (held.length + 1))
    {outs : List (List Bytes)} {last : Stage}
    (walk : Walk reader text (.first reader 0) (held ++ byte :: rest) outs last)
    (input : ∀ maximum, reader.limits.maxInputBytes = some maximum →
      ((held ++ byte :: rest).length : Int) ≤ maximum) :
    ∃ records after, transduce consume parser (byte :: rest) = (records, .ok after) ∧
      values records = outs ∧ At reader text last after := by
  rw [List.append_cons] at walk input
  obtain ⟨middle, first, second, rfl, front, back⟩ := walk.split
  have moved := front.offset
  have bytes : parser.counted.prefixBytes = held := holding.bytes
  have made : holdByte parser.counted byte =
      { parser.counted with bomDone := true, prefixBytes := [], replay := held ++ [byte] } := by
    simp [holdByte, bytes, differs]
  have ahead : At reader text (.first reader 0) (holdByte parser.counted byte) := by
    rw [made]
    exact { holding.first with }
  obtain ⟨out, same, there, delivers, count⟩ := front.replays ahead holding.plain
  have replays : (holdByte parser.counted byte).replay = held ++ [byte] := by rw [made]
  have read := consume_undecided byte within holding.undecided
  rw [replays] at read
  have counted : (replayLoop (held ++ [byte]) (holdByte parser.counted byte) 0).parser.inputBytes =
      middle.offset := by
    rw [count, made, moved]
    show parser.inputBytes + 1 = _
    rw [holding.counted]
    simp [Stage.first]
  obtain ⟨records, after, outputs, rest_same, final, -⟩ := back.follows there counted fun maximum
    bounded => by
      have fits := input maximum bounded
      rw [List.length_append] at fits
      rw [moved]
      simp only [Stage.first]
      omega
  generalize replayLoop (held ++ [byte]) (holdByte parser.counted byte) 0 = fed at *
  subst same
  cases out with
  | none =>
    have asks : fed.status = .needInput := delivers
    refine ⟨records, after, ?_, rest_same, final⟩
    simp only [transduce, read, Feed.answer, asks, Answer.follow, outputs]
  | some found =>
    obtain ⟨record, ready, held⟩ := delivers
    refine ⟨record :: records, after, ?_, ?_, final⟩
    · simp only [transduce, read, Feed.answer, ready, Answer.follow, outputs, Outputs.after]
    · simp only [values, List.map_cons, held, Option.toList_some, List.singleton_append]
      exact congrArg _ rest_same

/-- At the end of an empty input nothing is held back, and there is nothing to add. -/
theorem Holding.closes {parser : Parser} (holding : Holding reader text [] parser) :
    closing parser = ([], .ok ()) := by
  have first := holding.first
  have opened : Open parser :=
    ⟨⟨holding.replayed, fun _ => holding.bytes, .inl holding.bytes⟩, first.live, first.unended⟩
  have replayed : parser.released.replay = [] := holding.bytes
  have released : finish parser = finish parser.released := by
    rw [finish_released opened holding.undecided, feedLoop, replayLoop_settled replayed]
    rfl
  have ahead : At reader text (.first reader 0) parser.released := { first with }
  have closed := ahead.closing ⟨rfl, rfl, rfl⟩
  simp only [Csv.closing, released] at closed ⊢
  exact closed

/-- A document is empty or ends in a line ending. -/
def Terminated (bytes : Bytes) : Prop :=
  bytes = [] ∨ ∃ front byte, bytes = front ++ [byte] ∧ (byte = 10 ∨ byte = 13)

/-- A parser that holds back a beginning of a mark reads a document without one. -/
theorem Holding.reads {bytes held : Bytes} {parser : Parser}
    (holding : Holding reader text held parser) {outs : List (List Bytes)} {last : Stage}
    (walk : Walk reader text (.first reader 0) (held ++ bytes) outs last) (done : last.Fresh)
    (terminated : Terminated (held ++ bytes)) (unmarked : ¬ mark <+: held ++ bytes)
    (input : ∀ maximum, reader.limits.maxInputBytes = some maximum →
      ((held ++ bytes).length : Int) ≤ maximum) :
    ∃ records, (transduce consume parser bytes).andThen closing = (records, .ok ()) ∧
      values records = outs := by
  induction bytes generalizing held parser with
  | nil =>
    rw [List.append_nil] at walk terminated
    obtain rfl | ⟨front, byte, rfl, line⟩ := terminated
    · cases walk
      exact ⟨[], holding.closes, rfl⟩
    · exact absurd line (holding.plain byte (by simp))
  | cons byte bytes hypothesis =>
    have within : ¬ parser.exhausted = true := by
      refine unexhausted holding.first.options holding.counted ?_ fun maximum bounded => ?_
      · have proper := holding.proper
        simp only [maxInt]
        omega
      · have fits := input maximum bounded
        simp only [List.length_append, List.length_cons] at fits
        omega
    by_cases same : byte = bomByte (held.length + 1)
    · subst same
      by_cases short : held.length < 2
      · obtain ⟨after, read, later⟩ := holding.more within short
        rw [List.append_cons] at walk terminated unmarked input
        obtain ⟨records, outputs, values⟩ := hypothesis later walk terminated unmarked input
        refine ⟨records, ?_, values⟩
        simpa only [transduce, read, Answer.follow] using outputs
      · have proper := holding.proper
        have long : held.length = 2 := by omega
        have front : held = mark.take 2 := by
          rw [← long]
          exact holding.beginning
        refine absurd ⟨bytes, ?_⟩ unmarked
        rw [long, front]
        rfl
    · obtain ⟨records, after, outputs, values, there⟩ := holding.released within same walk input
      exact ⟨records, by rw [outputs]; simp [Outputs.andThen, there.closing done], values⟩

/-- A new parser reads a document that does not begin with a mark it would strip. -/
theorem Made.reads {made : Parser} (fresh : Made reader text made) {bytes : Bytes}
    {outs : List (List Bytes)} {last : Stage}
    (walk : Walk reader text (.first reader 0) bytes outs last) (done : last.Fresh)
    (terminated : Terminated bytes)
    (unmarked : reader.bom = .stripUtf8Bom → ¬ mark <+: bytes)
    (input : ∀ maximum, reader.limits.maxInputBytes = some maximum →
      (bytes.length : Int) ≤ maximum) :
    ∃ records, (transduce consume made bytes).andThen closing = (records, .ok ()) ∧
      values records = outs := by
  cases mode : reader.bom with
  | stripUtf8Bom =>
    exact (fresh.holding mode).reads walk done terminated (unmarked mode) input
  | preserveBom =>
    have decided : made.bomDone = true := by rw [fresh.bom, mode]; rfl
    have same : { made with bomDone := true } = made := by rw [← decided]
    have here : At reader text (.first reader 0) made := same ▸ fresh.first
    obtain ⟨records, after, outputs, values, there, -⟩ := walk.follows here fresh.unread
      fun maximum bounded => by
        have fits := input maximum bounded
        simp only [Stage.first]
        omega
    exact ⟨records, by rw [outputs]; simp [Outputs.andThen, there.closing done], values⟩

/-- A new parser that strips the mark reads the document after it. -/
theorem Made.reads_marked {made : Parser} (fresh : Made reader text made)
    (strips : reader.bom = .stripUtf8Bom) {bytes : Bytes} {outs : List (List Bytes)} {last : Stage}
    (walk : Walk reader text (.first reader 3) bytes outs last) (done : last.Fresh)
    (input : ∀ maximum, reader.limits.maxInputBytes = some maximum →
      ((mark ++ bytes).length : Int) ≤ maximum) :
    ∃ records, (transduce consume made (mark ++ bytes)).andThen closing = (records, .ok ()) ∧
      values records = outs := by
  have within : ∀ {held : Bytes} {parser : Parser}, Holding reader text held parser →
      ¬ parser.exhausted = true := by
    intro held parser holding
    have proper := holding.proper
    refine unexhausted holding.first.options holding.counted ?_ fun maximum bounded => ?_
    · simp only [maxInt]
      omega
    · have fits := input maximum bounded
      simp only [mark, List.length_append, List.length_cons, List.length_nil] at fits
      omega
  have none_held := fresh.holding strips
  obtain ⟨first, read_first, one_held⟩ := none_held.more (within none_held) (by decide)
  obtain ⟨second, read_second, two_held⟩ := one_held.more (within one_held) (by decide)
  obtain ⟨third, read_third, here, counted⟩ := two_held.marked (within two_held) (by rfl)
  obtain ⟨records, after, outputs, values, there, -⟩ := walk.follows here counted
    fun maximum bounded => by
      have fits := input maximum bounded
      simp only [mark, List.length_append, List.length_cons, List.length_nil] at fits
      simp only [Stage.first]
      omega
  have opening : transduce consume made (mark ++ bytes) = transduce consume third bytes := by
    have reads_first : consume made 239 = (first, .more) := read_first
    have reads_second : consume first 187 = (second, .more) := read_second
    have reads_third : consume second 191 = (third, .more) := read_third
    simp only [mark, List.cons_append, List.nil_append, transduce, reads_first, reads_second,
      reads_third, Answer.follow]
  exact ⟨records, by rw [opening, outputs]; simp [Outputs.andThen, there.closing done], values⟩

end Fai.Csv
