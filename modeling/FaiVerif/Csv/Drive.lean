import FaiVerif.Csv.Chunks

/-!
# Driving the CSV parser

The driver of `CsvChunkSpec.fai` and of the stream reader: `feed` over every chunk, going on at the
unconsumed offset after a record and with the next chunk when input is needed, and then `finish`
until the end. The number of calls is bounded by the bytes and the chunks, and what the driver
yields depends on the bytes alone.
-/

namespace Fai.Csv

open Incremental

/-- The records of an input with the final error or the end. -/
structure Driven where
  /-- The records in order. -/
  records : List (Record Bytes)
  /-- The error the input failed with, or its end. -/
  outcome : Except Error Unit

/-- Calls `finish` up to the end, with a bound on the calls. -/
def finishRun : Nat → Parser → List (Record Bytes) → Option Driven
  | 0, _, _ => none
  | calls + 1, parser, records =>
    let fed := finish parser
    match fed.status with
    | .failed error => some ⟨records, .error error⟩
    | .ended => some ⟨records, .ok ()⟩
    | .recordReady record => finishRun calls fed.parser (records ++ [record])
    | .needInput => finishRun calls fed.parser records

/-- Calls `feed` over a chunk and the chunks after it, with a bound on the calls. -/
def run : Nat → Parser → List Bytes → Bytes → Int → List (Record Bytes) → Option Driven
  | 0, _, _, _, _, _ => none
  | calls + 1, parser, chunks, current, offset, records =>
    let fed := feed parser current offset
    match fed.status with
    | .failed error => some ⟨records, .error error⟩
    | .ended => some ⟨records, .ok ()⟩
    | .recordReady record =>
      run calls fed.parser chunks current fed.next (records ++ [record])
    | .needInput =>
      match chunks with
      | [] => finishRun calls fed.parser records
      | chunk :: rest => run calls fed.parser rest chunk 0 records

/-- Drives a parser over chunks, with a bound on the calls. -/
def drive (calls : Nat) (parser : Parser) (chunks : List Bytes) : Option Driven :=
  run calls parser chunks [] 0 []

/-- What the end of the input does: it ends, it ends after one record, or it fails. -/
inductive Closed : Feed → Prop where
  | ended {fed : Feed} (status : fed.status = .ended) (finished : fed.parser.ended = true)
    (live : fed.parser.failed = none) : Closed fed
  | record {fed : Feed} {record : Record Bytes} (status : fed.status = .recordReady record)
    (finished : fed.parser.ended = true) (live : fed.parser.failed = none) : Closed fed
  | failed {fed : Feed} {error : Error} (status : fed.status = .failed error)
    (fails : fed.parser.failed = some error) : Closed fed

/-- The end of the input without held-back bytes. -/
theorem finishRead_closed {parser : Parser} (live : parser.failed = none) :
    Closed (finishRead parser) := by
  simp only [finishRead]
  split
  · exact .failed rfl rfl
  split
  · exact .failed rfl rfl
  · exact .failed rfl rfl
  split
  · exact .ended rfl rfl live
  · cases completed : fieldEnd parser with
    | error error => exact .failed rfl rfl
    | ok after =>
      have kept : after.failed = none :=
        (congrArg Carried.failed (fieldEnd_carried completed)).trans live
      simp only [orFail, emit]
      split
      · exact .failed rfl rfl
      split
      · exact .failed rfl rfl
      split
      · exact .failed rfl rfl
      · exact .record rfl rfl kept

/-- The held-back bytes at the end of the input complete no record. -/
theorem released_replayed {parser : Parser} (settled : Settled parser) (next : Int) :
    Replayed parser.released next False (feedLoop [] parser.released next) := by
  have replayed := replayLoop_replayed parser.prefixBytes [] parser.released next
    settled.held_bytes (Nat.zero_le 1)
  rw [List.append_nil] at replayed
  show Replayed parser.released next False (replayLoop parser.prefixBytes parser.released next)
  generalize replayLoop parser.prefixBytes parser.released next = fed at replayed
  cases replayed with
  | more keeps => exact .more keeps
  | record reason keeps => exact absurd rfl reason
  | failed => exact .failed

/-- The end of the input, from between two bytes. -/
theorem finish_closed {parser : Parser} (settled : Settled parser) (live : parser.failed = none) :
    Closed (finish parser) := by
  simp only [finish, live]
  split
  · next finished => exact .ended rfl finished live
  split
  · have replayed := released_replayed settled 0
    generalize feedLoop [] parser.released 0 = fed at replayed
    cases replayed with
    | more keeps => exact finishRead_closed ((congrArg Carried.failed keeps).trans live)
    | record reason keeps => exact absurd reason id
    | failed => exact .failed rfl rfl
  · exact finishRead_closed live

/-- The end of the input once it has been reported. -/
theorem finish_ended {parser : Parser} (live : parser.failed = none)
    (finished : parser.ended = true) : (finish parser).status = .ended := by
  simp only [finish, live, if_pos finished]
  rfl

/-- The records of the end of the input with its final error or its end. -/
def closing (parser : Parser) : Outputs (Record Bytes) Error Unit :=
  match (finish parser).status with
  | .failed error => ([], .error error)
  | .recordReady record => ([record], .ok ())
  | .ended => ([], .ok ())
  | .needInput => ([], .ok ())

/-- Two calls of `finish` reach the end. -/
theorem finishRun_closing {parser : Parser} (settled : Settled parser)
    (live : parser.failed = none) (calls : Nat) (records : List (Record Bytes)) :
    finishRun (calls + 2) parser records =
      some ⟨records ++ (closing parser).1, (closing parser).2⟩ := by
  rw [finishRun]
  cases finish_closed settled live with
  | ended status finished kept => simp [status, closing]
  | record status finished kept =>
    have later := finish_ended kept finished
    simp only [status, closing]
    rw [finishRun]
    simp [later]
  | failed status fails => simp [status, closing]

/-- The parser is between two bytes of an input that has not ended. -/
structure Open (parser : Parser) : Prop where
  /-- Only the beginning of a mark is held back. -/
  settled : Settled parser
  /-- No call has failed. -/
  live : parser.failed = none
  /-- The end has not been reported. -/
  unended : parser.ended = false

/-- A byte that does not fail leaves the input open. -/
theorem Open.consume {parser : Parser} (opened : Open parser) (byte : UInt8)
    (going : ∀ reason, (consume parser byte).2 ≠ .stop reason) : Open (consume parser byte).1 := by
  have known := consume_consumed opened.settled opened.live byte
  generalize Csv.consume parser byte = reached at known going
  cases known with
  | more settled live kept => exact ⟨settled, live, kept.trans opened.unended⟩
  | out settled live kept => exact ⟨settled, live, kept.trans opened.unended⟩
  | stop failed => exact absurd rfl (going _)

/-- A new parser is open. -/
theorem parser_open {text : Bool} {options : Options} {made : Parser}
    (built : parser text options = .ok made) : Open made := by
  simp only [parser] at built
  split at built
  · cases built
  · cases built
    exact ⟨⟨rfl, fun _ => rfl, .inl rfl⟩, rfl, rfl⟩

/-- A call of `feed` within a chunk of an open input is a scan. -/
theorem feed_scans {parser : Parser} (opened : Open parser) (bytes : Bytes) (start : Int)
    (low : 0 ≤ start) (high : start ≤ bytes.length) :
    Scans parser (bytes.drop start.toNat) start (feed parser bytes start) := by
  have inside : ¬ (start < 0 ∨ (bytes.length : Int) < start) := by omega
  simp only [feed, opened.live, if_neg inside, opened.unended, Bool.false_eq_true, if_false]
  exact feedLoop_scans _ parser start opened.settled opened.live

/-- What a call of `feed` on an open input does. -/
inductive Fed (parser : Parser) (bytes : Bytes) (start : Int) : Feed → Prop where
  | more {fed : Feed} (status : fed.status = .needInput) (opened : Open fed.parser)
    (next : fed.next = bytes.length)
    (read : transduce consume parser (bytes.drop start.toNat) = ([], .ok fed.parser)) :
    Fed parser bytes start fed
  | record {fed : Feed} {record : Record Bytes} (status : fed.status = .recordReady record)
    (opened : Open fed.parser) (low : start < fed.next) (high : fed.next ≤ bytes.length)
    (read : transduce consume parser (bytes.drop start.toNat) =
      (transduce consume fed.parser (bytes.drop fed.next.toNat)).after record) :
    Fed parser bytes start fed
  | failed {fed : Feed} {error : Error} (status : fed.status = .failed error)
    (fails : fed.parser.failed = some error)
    (read : transduce consume parser (bytes.drop start.toNat) = ([], .error error)) :
    Fed parser bytes start fed

/-- A call of `feed` within a chunk of an open input. -/
theorem feed_fed {parser : Parser} (opened : Open parser) (bytes : Bytes) (start : Int)
    (low : 0 ≤ start) (high : start ≤ bytes.length) :
    Fed parser bytes start (feed parser bytes start) := by
  have scans := feed_scans opened bytes start low high
  generalize feed parser bytes start = fed at scans
  have keeps : ∀ state byte, Open state → (∀ reason, (consume state byte).2 ≠ .stop reason) →
      Open (consume state byte).1 := fun state byte opened going => opened.consume byte going
  have breaks : ∀ state byte error, Open state → (consume state byte).2 = .stop error →
      (consume state byte).1.failed = some error := by
    intro state byte error opened stops
    have known := consume_consumed opened.settled opened.live byte
    generalize consume state byte = reached at known stops
    cases known with
    | more settled live kept => simp at stops
    | out settled live kept => simp at stops
    | stop failed =>
      simp only [Answer.stop.injEq] at stops
      rw [failed, stops]
  cases status : fed.status with
  | needInput =>
    have answered : (scan consume parser (bytes.drop start.toNat)).2.2 = .more := by
      rw [← scans.answer]
      simp [Feed.answer, status]
    have reached : scan consume parser (bytes.drop start.toNat) =
        ((scan consume parser (bytes.drop start.toNat)).1, fed.parser, .more) := by
      rw [scans.parser, ← answered]
    obtain ⟨used, read⟩ := scan_more consume reached
    have kept := scan_keeps consume keeps parser (bytes.drop start.toNat) opened
      (by simp [answered])
    rw [← scans.parser] at kept
    have next := scans.next (by simp [status])
    rw [used, List.length_drop] at next
    exact .more status kept (by omega) read
  | recordReady record =>
    have answered : (scan consume parser (bytes.drop start.toNat)).2.2 = .out record := by
      rw [← scans.answer]
      simp [Feed.answer, status]
    have reached : scan consume parser (bytes.drop start.toNat) =
        ((scan consume parser (bytes.drop start.toNat)).1, fed.parser, .out record) := by
      rw [scans.parser, ← answered]
    obtain ⟨some_read, all_read, read⟩ := scan_out consume reached
    have kept := scan_keeps consume keeps parser (bytes.drop start.toNat) opened
      (by simp [answered])
    rw [← scans.parser] at kept
    have next := scans.next (by simp [status])
    rw [List.length_drop] at all_read
    have offset : start.toNat + (scan consume parser (bytes.drop start.toNat)).1 =
        fed.next.toNat := by omega
    rw [List.drop_drop, offset] at read
    exact .record status kept (by omega) (by omega) read
  | ended => exact absurd status scans.unended
  | failed error =>
    have answered : (scan consume parser (bytes.drop start.toNat)).2.2 = .stop error := by
      rw [← scans.answer]
      simp [Feed.answer, status]
    have reached : scan consume parser (bytes.drop start.toNat) =
        ((scan consume parser (bytes.drop start.toNat)).1, fed.parser, .stop error) := by
      rw [scans.parser, ← answered]
    have broken := scan_stops consume (fun state error => state.failed = some error) keeps breaks
      parser _ opened answered
    rw [← scans.parser] at broken
    exact .failed status broken (scan_stop consume reached)

/-- The driver yields the records of the unread bytes and then of the end of the input. -/
theorem run_driven (calls : Nat) (parser : Parser) (chunks : List Bytes) (current : Bytes)
    (offset : Int) (records : List (Record Bytes)) (opened : Open parser) (low : 0 ≤ offset)
    (high : offset ≤ current.length)
    (enough : (current.length - offset.toNat) + chunks.flatten.length + chunks.length + 3 ≤ calls) :
    let outputs := (transduce consume parser (current.drop offset.toNat ++ chunks.flatten)).andThen
      closing
    run calls parser chunks current offset records =
      some ⟨records ++ outputs.1, outputs.2⟩ := by
  induction calls generalizing parser chunks current offset records with
  | zero => omega
  | succ calls hypothesis =>
    intro outputs
    have composed : outputs = ((transduce consume parser (current.drop offset.toNat)).andThen
        fun parser => transduce consume parser chunks.flatten).andThen closing := by
      rw [← transduce_append]
    simp only [run]
    cases feed_fed opened current offset low high with
    | more status later next read =>
      rw [read, Outputs.andThen_ok] at composed
      simp only [status]
      cases chunks with
      | nil =>
        obtain ⟨fuel, rfl⟩ : ∃ fuel, calls = fuel + 2 := ⟨calls - 2, by omega⟩
        rw [finishRun_closing later.settled later.live, composed]
        rfl
      | cons chunk rest =>
        simp only [List.flatten_cons, List.length_append, List.length_cons] at enough
        have again := hypothesis _ rest chunk 0 records later (by omega) (by omega) (by omega)
        rw [composed]
        exact again
    | @record record status later some_read all_read read =>
      simp only [status]
      have again := hypothesis _ chunks current _ (records ++ [record]) later (by omega) all_read
        (by omega)
      rw [read, Outputs.after_andThen, Outputs.after_andThen, ← transduce_append] at composed
      rw [again, composed]
      simp [Outputs.after]
    | failed status fails read =>
      rw [read] at composed
      simp only [status]
      rw [composed]
      simp

/-- The end of the input is the end after the held-back bytes, as the source's recursion has it. -/
theorem finish_released {parser : Parser} (opened : Open parser)
    (undecided : parser.bomDone = false) :
    finish parser = (feedLoop [] parser.released 0).resume finish := by
  have replayed := released_replayed opened.settled 0
  have first : finish parser = (feedLoop [] parser.released 0).resume finishRead := by
    simp only [finish, opened.live, opened.unended, undecided, if_true, Bool.false_eq_true,
      if_false]
  rw [first]
  generalize feedLoop [] parser.released 0 = fed at replayed
  cases replayed with
  | @more after keeps =>
    have live : after.failed = none := (congrArg Carried.failed keeps).trans opened.live
    have unended : after.ended = false := (congrArg Carried.ended keeps).trans opened.unended
    have decided : after.bomDone = true := congrArg Carried.bomDone keeps
    show finishRead after = finish after
    simp only [finish, live, unended, decided, Bool.false_eq_true, Bool.true_eq_false, if_false]
  | record reason keeps => exact absurd reason id
  | failed => rfl

/-- A call of the parser's interface. -/
inductive Call where
  | feed (bytes : Bytes) (start : Int)
  | finish

/-- The result of a call. -/
def Parser.call (parser : Parser) : Call → Feed
  | .feed bytes start => feed parser bytes start
  | .finish => finish parser

/-- The parser after calls in order. -/
def Parser.later (parser : Parser) (calls : List Call) : Parser :=
  calls.foldl (fun parser call => (parser.call call).parser) parser

/-- A parser whose input has neither failed nor ended is between two bytes. -/
def Between (parser : Parser) : Prop :=
  parser.failed = none → parser.ended = false → Settled parser

/-- What any call does: it fails and keeps the error, it reports the end, or it reads on. -/
inductive Answers : Call → Feed → Prop where
  | failed {call : Call} {fed : Feed} {error : Error} (status : fed.status = .failed error)
    (fails : fed.parser.failed = some error) : Answers call fed
  | ended {call : Call} {fed : Feed} (status : fed.status = .ended)
    (live : fed.parser.failed = none) (finished : fed.parser.ended = true) : Answers call fed
  | more {bytes : Bytes} {start : Int} {fed : Feed} (status : fed.status = .needInput)
    (opened : Open fed.parser) (low : start ≤ fed.next) (next : fed.next = bytes.length) :
    Answers (.feed bytes start) fed
  | record {bytes : Bytes} {start : Int} {fed : Feed} {record : Record Bytes}
    (status : fed.status = .recordReady record) (opened : Open fed.parser)
    (low : start < fed.next) (high : fed.next ≤ bytes.length) : Answers (.feed bytes start) fed
  | last {fed : Feed} {record : Record Bytes} (status : fed.status = .recordReady record)
    (live : fed.parser.failed = none) (finished : fed.parser.ended = true) : Answers .finish fed

/-- A call of `feed` does one of these. -/
theorem feed_answers {parser : Parser} (between : Between parser) (bytes : Bytes) (start : Int) :
    Answers (.feed bytes start) (feed parser bytes start) := by
  cases live : parser.failed with
  | some error =>
    simp only [feed, live]
    exact .failed rfl rfl
  | none =>
    by_cases outside : start < 0 ∨ (bytes.length : Int) < start
    · simp only [feed, live, if_pos outside]
      exact .failed rfl rfl
    cases finished : parser.ended with
    | true =>
      simp only [feed, live, if_neg outside, finished, if_true]
      split
      · exact .ended rfl live finished
      · exact .failed rfl rfl
    | false =>
      have opened : Open parser := ⟨between live finished, live, finished⟩
      cases feed_fed opened bytes start (by omega) (by omega) with
      | more status opened next read => exact .more status opened (by omega) next
      | record status opened low high read => exact .record status opened low high
      | failed status fails read => exact .failed status fails

/-- A call of `finish` does one of these. -/
theorem finish_answers {parser : Parser} (between : Between parser) :
    Answers .finish (finish parser) := by
  cases live : parser.failed with
  | some error =>
    simp only [finish, live]
    exact .failed rfl rfl
  | none =>
    cases finished : parser.ended with
    | true =>
      simp only [finish, live, finished, if_true]
      exact .ended rfl live finished
    | false =>
      cases finish_closed (between live finished) live with
      | ended status finished live => exact .ended status live finished
      | record status finished live => exact .last status live finished
      | failed status fails => exact .failed status fails

/-- Any call does one of these. -/
theorem call_answers {parser : Parser} (between : Between parser) (call : Call) :
    Answers call (parser.call call) := by
  cases call with
  | feed bytes start => exact feed_answers between bytes start
  | finish => exact finish_answers between

/-- A call leaves the parser between two bytes. -/
theorem Answers.between {call : Call} {fed : Feed} (answers : Answers call fed) :
    Between fed.parser := by
  intro live unended
  cases answers with
  | failed status fails => simp [fails] at live
  | ended status live finished => simp [finished] at unended
  | more status opened low next => exact opened.settled
  | record status opened low high => exact opened.settled
  | last status live finished => simp [finished] at unended

/-- Calls leave the parser between two bytes. -/
theorem later_between {parser : Parser} (between : Between parser) (calls : List Call) :
    Between (parser.later calls) := by
  induction calls generalizing parser with
  | nil => exact between
  | cons call calls hypothesis => exact hypothesis (call_answers between call).between

/-- A failed parser answers every call with its error and keeps it. -/
theorem call_of_failed {parser : Parser} {error : Error} (fails : parser.failed = some error)
    (call : Call) :
    (parser.call call).status = .failed error ∧
      (parser.call call).parser.failed = some error := by
  cases call with
  | feed bytes start => simp [Parser.call, feed, fails, failed]
  | finish => simp [Parser.call, finish, fails, failed]

/-- Calls after a failure keep its error. -/
theorem later_of_failed {parser : Parser} {error : Error} (fails : parser.failed = some error)
    (calls : List Call) : (parser.later calls).failed = some error := by
  induction calls generalizing parser with
  | nil => exact fails
  | cons call calls hypothesis => exact hypothesis (call_of_failed fails call).2

/-- Every call that goes on reads on: a record costs at least a byte, a call that needs input has
read its chunk, and after the last record the input ends. -/
structure Advances (parser : Parser) : Prop where
  /-- A record is ready after at least one byte of the chunk. -/
  record : ∀ bytes start record, (feed parser bytes start).status = .recordReady record →
    start < (feed parser bytes start).next ∧ (feed parser bytes start).next ≤ bytes.length
  /-- A call that needs input has consumed the rest of the chunk. -/
  more : ∀ bytes start, (feed parser bytes start).status = .needInput →
    start ≤ (feed parser bytes start).next ∧ (feed parser bytes start).next = bytes.length
  /-- The end of the input needs no input. -/
  finished : (finish parser).status ≠ .needInput
  /-- The end of the input has at most one more record. -/
  last : ∀ record, (finish parser).status = .recordReady record →
    (finish (finish parser).parser).status = .ended

/-- A parser between two bytes reads on. -/
theorem Between.advances {parser : Parser} (between : Between parser) : Advances parser := by
  constructor
  · intro bytes start record ready
    cases feed_answers between bytes start with
    | failed status fails => simp [status] at ready
    | ended status live finished => simp [status] at ready
    | more status opened low next => simp [status] at ready
    | record status opened low high => exact ⟨low, high⟩
  · intro bytes start asks
    cases feed_answers between bytes start with
    | failed status fails => simp [status] at asks
    | ended status live finished => simp [status] at asks
    | more status opened low next => exact ⟨low, next⟩
    | record status opened low high => simp [status] at asks
  · intro asks
    cases finish_answers between with
    | failed status fails => simp [status] at asks
    | ended status live finished => simp [status] at asks
    | last status live finished => simp [status] at asks
  · intro record ready
    cases finish_answers between with
    | failed status fails => simp [status] at ready
    | ended status live finished => simp [status] at ready
    | last status live finished => exact finish_ended live finished

/-- What driving a new parser yields depends on the bytes and not on their chunks, within a number
of calls that the bytes and the chunks bound; after any calls every call reads on, and after a
failure every call reports the same error. -/
theorem drive_chunks {text : Bool} {options : Options} {made : Parser}
    (built : parser text options = .ok made) :
    (∀ chunks : List Bytes, ∃ driven,
      (∀ calls, chunks.flatten.length + chunks.length + 3 ≤ calls →
        drive calls made chunks = some driven) ∧
      ∀ calls, chunks.flatten.length + 4 ≤ calls →
        drive calls made [chunks.flatten] = some driven) ∧
    (∀ calls, Advances (made.later calls)) ∧
    ∀ calls call error, ((made.later calls).call call).status = .failed error →
      ∀ between later,
        ((((made.later calls).call call).parser.later between).call later).status =
          .failed error := by
  have opened := parser_open built
  have between : Between made := fun _ _ => opened.settled
  refine ⟨?_, ?_, ?_⟩
  · intro chunks
    refine ⟨_, fun calls enough => run_driven calls made chunks [] 0 [] opened
      (Int.le_refl 0) ?_ ?_, ?_⟩
    · simp
    · simpa using enough
    · intro calls enough
      have whole := run_driven calls made [chunks.flatten] [] 0 [] opened (Int.le_refl 0) (by simp)
        (by simp only [List.length_nil, List.flatten_cons, List.flatten_nil, List.append_nil,
          List.length_cons]; omega)
      simpa [drive] using whole
  · exact fun calls => (later_between between calls).advances
  · intro calls call error fails middle later
    have kept : ((made.later calls).call call).parser.failed = some error := by
      cases call_answers (later_between between calls) call with
      | failed status broken =>
        simp only [status, Status.failed.injEq] at fails
        rw [broken, fails]
      | ended status live finished => simp [status] at fails
      | more status opened low next => simp [status] at fails
      | record status opened low high => simp [status] at fails
      | last status live finished => simp [status] at fails
    exact (call_of_failed (later_of_failed kept middle) later).1

/-- A text cut inside a false byte-order mark and between CR and LF. -/
theorem drive_chunks_text :
    ∃ made, parser true options = .ok made ∧ ∃ driven,
      drive 11 made [[0xEF], [0xBC, 0x81, 13], [10]] = some driven ∧
      drive 9 made [[0xEF, 0xBC, 0x81, 13, 10]] = some driven := by
  obtain ⟨made, built⟩ : ∃ made, parser true options = .ok made := ⟨_, rfl⟩
  refine ⟨made, built, ?_⟩
  obtain ⟨driven, cut, whole⟩ := (drive_chunks built).1 [[0xEF], [0xBC, 0x81, 13], [10]]
  exact ⟨driven, cut 11 (by decide), whole 9 (by decide)⟩

/-- A call on an empty chunk neither fails nor ends, and consumes nothing. -/
theorem feed_empty_chunk :
    ¬ ∀ text options made, parser text options = .ok made → ∀ bytes start,
      (∀ error, (feed made bytes start).status ≠ .failed error) →
      (feed made bytes start).status ≠ .ended → start < (feed made bytes start).next := by
  intro consumes
  obtain ⟨made, built⟩ : ∃ made, parser true options = .ok made := ⟨_, rfl⟩
  have opened := parser_open built
  cases feed_fed opened [] 0 (Int.le_refl 0) (by simp) with
  | more status later next read =>
    have wrong := consumes true options made built [] 0 (by simp [status]) (by simp [status])
    simp [next] at wrong
  | record status later low high read =>
    simp only [List.length_nil] at high
    omega
  | failed status fails read => simp [transduce] at read

end Fai.Csv
