import FaiVerif.Csv.Core
import FaiVerif.Lib.Incremental

/-!
# Chunks of CSV input

The parser is a machine that reads one byte at a time: a call of `feed` is a scan of that machine,
so driving `feed` over the chunks of an input and then `finish` gives what the machine gives on the
bytes, however they are cut. Between two bytes the parser holds back at most a proper beginning of
a byte-order mark; a byte that shows there is no mark is replayed after the held-back ones, none of
which can end a record.
-/

namespace Fai.Csv

open Incremental

/-- What no byte changes once it is past the byte-order mark. -/
structure Carried where
  bomDone : Bool
  ended : Bool
  failed : Option Error
  inputBytes : Int
  options : Options
  prefixBytes : List UInt8
  replay : List UInt8
  text : Bool

/-- The carried part of a parser. -/
def Parser.carried (parser : Parser) : Carried where
  bomDone := parser.bomDone
  ended := parser.ended
  failed := parser.failed
  inputBytes := parser.inputBytes
  options := parser.options
  prefixBytes := parser.prefixBytes
  replay := parser.replay
  text := parser.text

/-- The carried part with nothing left to replay. -/
def Carried.replayed (carried : Carried) : Carried := { carried with replay := [] }

/-- A report of a byte: the carried part is kept, and a record needs a reason. -/
inductive Reports (before : Parser) (next : Int) (ready : Prop) : Feed → Prop where
  | more {after : Parser} (keeps : after.carried = before.carried) :
    Reports before next ready (result after next .needInput)
  | record {after : Parser} {record : Record Bytes} (reason : ready)
    (keeps : after.carried = before.carried) :
    Reports before next ready (result after next (.recordReady record))
  | failed {after : Parser} {error : Error} (keeps : after.carried = before.carried) :
    Reports before next ready (failed after next error)

/-- A report from a parser with the same carried part. -/
theorem Reports.from_kept {before middle : Parser} {next : Int} {ready : Prop} {fed : Feed}
    (reports : Reports middle next ready fed) (keeps : middle.carried = before.carried) :
    Reports before next ready fed := by
  cases reports with
  | more kept => exact .more (kept.trans keeps)
  | record reason kept => exact .record reason (kept.trans keeps)
  | failed kept => exact .failed (kept.trans keeps)

/-- A computation that keeps the carried part, followed by a report. -/
theorem orFail_reports {before parser : Parser} {next : Int} {ready : Prop}
    {computed : Except Error Parser} {go : Parser → Feed}
    (same : parser.carried = before.carried)
    (keeps : ∀ after, computed = .ok after → after.carried = before.carried)
    (goes : ∀ after, computed = .ok after → Reports after next ready (go after)) :
    Reports before next ready (orFail parser next computed go) := by
  cases found : computed with
  | error error => exact .failed same
  | ok after => exact (goes after found).from_kept (keeps after found)

/-- Moving the position keeps the carried part. -/
theorem advance_carried {before after : Parser} {byte : UInt8}
    (advanced : advance before byte = .ok after) : after.carried = before.carried := by
  simp only [advance] at advanced
  split at advanced
  · cases advanced
  · cases advanced
    rfl

/-- Validating a byte keeps the carried part. -/
theorem validateByte_carried {before after : Parser} {byte : UInt8}
    (validated : validateByte before byte = .ok after) : after.carried = before.carried := by
  simp only [validateByte] at validated
  split at validated
  · cases validated
    rfl
  split at validated
  · split at validated
    · cases validated
    · cases validated
      rfl
  split at validated
  · cases validated
    rfl
  split at validated
  · cases validated
  · cases validated
    rfl

/-- Adding a byte to the field keeps the carried part. -/
theorem payload_carried {before after : Parser} {byte : UInt8}
    (added : payload before byte = .ok after) : after.carried = before.carried := by
  simp only [payload] at added
  split at added
  · cases added
  · cases added
    rfl

/-- Completing a field keeps the carried part. -/
theorem fieldEnd_carried {before after : Parser} (ended : fieldEnd before = .ok after) :
    after.carried = before.carried := by
  simp only [fieldEnd] at ended
  split at ended
  · cases ended
  · cases ended
    rfl

/-- Adding a byte and moving to another mode keeps the carried part. -/
theorem payload_map_carried {before after : Parser} {byte : UInt8} {mode : Mode}
    (added : (payload before byte).map (fun parser => { parser with mode := mode }) = .ok after) :
    after.carried = before.carried := by
  cases found : payload before byte with
  | error error => simp [found, Except.map] at added
  | ok middle =>
    simp only [found, Except.map, Except.ok.injEq] at added
    subst added
    have kept := payload_carried found
    exact kept

/-- A byte of a field keeps the carried part. -/
theorem changed_carried {before after : Parser} {byte : UInt8}
    (made : changed before byte = .ok after) : after.carried = before.carried := by
  simp only [changed] at made
  split at made
  · split at made
    · cases made
      rfl
    · exact payload_map_carried made
  · split at made
    · cases made
    · exact payload_carried made
  · split at made
    · cases made
      rfl
    · exact payload_carried made
  · split at made
    · exact payload_map_carried made
    · cases made
  · cases made

/-- Completing a record is a report. -/
theorem emit_reports (parser : Parser) (finish : Position) (next : Int) {ready : Prop}
    (reason : ready) : Reports parser next ready (emit parser finish next) := by
  simp only [emit]
  split
  · exact .failed rfl
  split
  · exact .failed rfl
  split
  · exact .failed rfl
  · exact .record reason rfl

/-- The byte LF after a CR is a report. -/
theorem expectLf_reports (parser : Parser) (finish : Position) (byte : UInt8) (next : Int) :
    Reports parser next (byte = 10 ∨ byte = 13) (expectLf parser finish byte next) := by
  simp only [expectLf]
  split
  · exact .failed rfl
  · next lf =>
    refine orFail_reports rfl (fun after advanced => advance_carried advanced) ?_
    exact fun after _ => emit_reports after finish next (.inl (not_not.mp lf))

/-- A skipped byte is a report without a record. -/
theorem skipByte_reports (parser : Parser) (byte : UInt8) (next : Int) {ready : Prop} :
    Reports parser next ready (skipByte parser byte next) :=
  orFail_reports rfl (fun _ advanced => advance_carried advanced) fun _ _ => .more rfl

/-- A line ending is a report. -/
theorem recordEnd_reports (parser : Parser) (byte : UInt8) (next : Int) {ready : Prop}
    (reason : ready) : Reports parser next ready (recordEnd parser byte next) := by
  simp only [recordEnd]
  split
  · exact .failed rfl
  · refine orFail_reports rfl (fun after ended => fieldEnd_carried ended) ?_
    intro ended completed
    refine orFail_reports (fieldEnd_carried completed).symm
      (fun after advanced => advance_carried advanced) ?_
    intro advanced _
    split
    · exact .more rfl
    · exact (emit_reports _ _ next reason).from_kept rfl

/-- A byte of a record is a report without a record. -/
theorem content_reports (parser : Parser) (byte : UInt8) (next : Int) {ready : Prop} :
    Reports parser next ready (content parser byte next) := by
  simp only [content]
  split
  · exact .failed rfl
  split
  · refine orFail_reports rfl (fun after ended => fieldEnd_carried ended) ?_
    intro ended completed
    refine orFail_reports (fieldEnd_carried completed).symm
      (fun after advanced => advance_carried advanced) ?_
    exact fun _ _ => .more rfl
  · refine orFail_reports rfl (fun after made => changed_carried made) ?_
    intro changed made
    refine orFail_reports (changed_carried made).symm
      (fun after advanced => advance_carried advanced) ?_
    exact fun _ _ => .more rfl

/-- A grammar byte is a report, with a record only at a line ending. -/
theorem grammar_reports (parser : Parser) (byte : UInt8) (next : Int) :
    Reports parser next (byte = 10 ∨ byte = 13) (grammar parser byte next) := by
  simp only [grammar]
  split
  · exact expectLf_reports parser _ byte next
  · split
    · exact skipByte_reports parser byte next
    · split
      · next ending => exact (recordEnd_reports _ byte next ending.2).from_kept rfl
      · exact (content_reports _ byte next).from_kept rfl

/-- A byte is a report, with a record only at a line ending. -/
theorem process_reports (parser : Parser) (byte : UInt8) (next : Int) :
    Reports parser next (byte = 10 ∨ byte = 13) (process parser byte next) :=
  orFail_reports rfl (fun _ validated => validateByte_carried validated)
    fun after _ => grammar_reports after byte next

/-- The same report with another unconsumed offset. -/
def Feed.moved (fed : Feed) (next : Int) : Feed := { fed with next := next }

/-- A computation and a report that does not depend on the offset. -/
theorem orFail_moved (parser : Parser) (old next : Int) (computed : Except Error Parser)
    {before after : Parser → Feed} (goes : ∀ parser, after parser = (before parser).moved next) :
    orFail parser next computed after = (orFail parser old computed before).moved next := by
  cases computed with
  | error error => rfl
  | ok parser => exact goes parser

/-- Completing a record does not depend on the offset. -/
theorem emit_moved (parser : Parser) (finish : Position) (old next : Int) :
    emit parser finish next = (emit parser finish old).moved next := by
  simp only [emit]
  split_ifs <;> rfl

/-- A line ending does not depend on the offset. -/
theorem recordEnd_moved (parser : Parser) (byte : UInt8) (old next : Int) :
    recordEnd parser byte next = (recordEnd parser byte old).moved next := by
  simp only [recordEnd]
  split
  · rfl
  · refine orFail_moved parser old next _ fun ended => ?_
    refine orFail_moved parser old next _ fun advanced => ?_
    split
    · rfl
    · exact emit_moved _ _ old next

/-- A byte of a record does not depend on the offset. -/
theorem content_moved (parser : Parser) (byte : UInt8) (old next : Int) :
    content parser byte next = (content parser byte old).moved next := by
  simp only [content]
  split
  · rfl
  split
  · exact orFail_moved parser old next _ fun ended =>
      orFail_moved parser old next _ fun advanced => rfl
  · exact orFail_moved parser old next _ fun changed =>
      orFail_moved parser old next _ fun advanced => rfl

/-- A byte does not depend on the offset. -/
theorem process_moved (parser : Parser) (byte : UInt8) (old next : Int) :
    process parser byte next = (process parser byte old).moved next := by
  refine orFail_moved parser old next _ fun parser => ?_
  simp only [grammar]
  split
  · simp only [expectLf]
    split
    · rfl
    · exact orFail_moved parser old next _ fun parser => emit_moved parser _ old next
  · split
    · exact orFail_moved parser old next _ fun parser => rfl
    · split
      · exact recordEnd_moved _ byte old next
      · exact content_moved _ byte old next

/-- The parser holds back nothing but a proper beginning of a byte-order mark. -/
structure Settled (parser : Parser) : Prop where
  /-- Nothing is left to replay. -/
  replayed : parser.replay = []
  /-- Nothing is held back once the mark is decided. -/
  decided : parser.bomDone = true → parser.prefixBytes = []
  /-- The held-back bytes begin a mark. -/
  held : parser.prefixBytes = [] ∨ parser.prefixBytes = [239] ∨ parser.prefixBytes = [239, 187]

/-- The held-back bytes are no line ending. -/
theorem Settled.held_bytes {parser : Parser} (settled : Settled parser) :
    ∀ byte ∈ parser.prefixBytes, ¬ (byte = 10 ∨ byte = 13) := by
  intro byte member
  have known : byte = 239 ∨ byte = 187 := by
    obtain held | held | held := settled.held <;> rw [held] at member <;>
      simp only [List.not_mem_nil, List.mem_cons, or_false] at member
    · exact .inl member
    · exact member
  obtain rfl | rfl := known <;> decide

/-- The answer of a report. -/
def Feed.answer (fed : Feed) : Answer (Record Bytes) Error :=
  match fed.status with
  | .needInput => .more
  | .recordReady record => .out record
  | .ended => .more
  | .failed error => .stop error

/-- A report is after all the bytes to be replayed, or a failure; a record needs a reason. -/
inductive Replayed (before : Parser) (next : Int) (ready : Prop) : Feed → Prop where
  | more {after : Parser} (keeps : after.carried = before.carried.replayed) :
    Replayed before next ready (result after next .needInput)
  | record {after : Parser} {record : Record Bytes} (reason : ready)
    (keeps : after.carried = before.carried.replayed) :
    Replayed before next ready (result after next (.recordReady record))
  | failed {after : Parser} {error : Error} :
    Replayed before next ready (failed after next error)

/-- A record that is ready during a replay is ready at its last byte. -/
theorem replayLoop_replayed (held : List UInt8) (last : List UInt8) (parser : Parser) (next : Int)
    (plain : ∀ byte ∈ held, ¬ (byte = 10 ∨ byte = 13)) (short : last.length ≤ 1) :
    Replayed parser next (last ≠ []) (replayLoop (held ++ last) parser next) := by
  induction held generalizing parser with
  | nil =>
    obtain _ | ⟨byte, _ | ⟨other, more⟩⟩ := last
    · exact .more rfl
    · have reports := process_reports { parser with replay := [] } byte next
      simp only [List.nil_append, replayLoop]
      generalize process { parser with replay := [] } byte next = fed at reports
      cases reports with
      | more keeps =>
        have same := congrArg Carried.replayed keeps
        exact .more same
      | record reason keeps => exact .record (by simp) keeps
      | failed keeps => exact .failed
    · simp only [List.length_cons] at short
      omega
  | cons byte held hypothesis =>
    have reports := process_reports { parser with replay := held ++ last } byte next
    simp only [List.cons_append, replayLoop]
    generalize process { parser with replay := held ++ last } byte next = fed at reports
    have plain_head := plain byte List.mem_cons_self
    have later : ∀ after : Parser,
        after.carried = ({ parser with replay := held ++ last } : Parser).carried →
        Replayed parser next (last ≠ []) (replayLoop (held ++ last) after next) := by
      intro after keeps
      have again := hypothesis after fun byte member => plain byte (List.mem_cons_of_mem _ member)
      have same := congrArg Carried.replayed keeps
      generalize replayLoop (held ++ last) after next = fed at again
      cases again with
      | more kept => exact .more (kept.trans same)
      | record reason kept => exact .record reason (kept.trans same)
      | failed => exact .failed
    cases reports with
    | more keeps => exact later _ keeps
    | record reason keeps => exact absurd reason plain_head
    | failed keeps => exact .failed

/-- A report that the offset does not change goes on from the same parser. -/
theorem resume_moved {before after : Feed} {next : Int} {goBefore goAfter : Parser → Feed}
    (same : after = before.moved next)
    (goes : ∀ parser, goAfter parser = (goBefore parser).moved next) :
    after.resume goAfter = (before.resume goBefore).moved next := by
  subst same
  obtain ⟨old, parser, status⟩ := before
  cases status with
  | needInput => exact goes parser
  | recordReady record => rfl
  | ended => rfl
  | failed error => rfl

/-- A replay does not depend on the offset. -/
theorem replayLoop_moved (pending : List UInt8) (parser : Parser) (old next : Int) :
    replayLoop pending parser next = (replayLoop pending parser old).moved next := by
  induction pending generalizing parser with
  | nil => rfl
  | cons byte pending hypothesis =>
    simp only [replayLoop]
    exact resume_moved (process_moved _ byte old next) hypothesis

/-- The byte machine of the parser. -/
def consume (parser : Parser) (byte : UInt8) : Parser × Answer (Record Bytes) Error :=
  let fed :=
    if parser.exhausted = true then failed parser 0 (inputProblem parser)
    else if parser.bomDone = false then
      replayLoop (holdByte parser.counted byte).replay (holdByte parser.counted byte) 0
    else process parser.counted byte 0
  (fed.parser, fed.answer)

/-- Being settled is a fact about the carried part. -/
theorem Settled.of_carried {before after : Parser} (settled : Settled before)
    (same : after.carried = before.carried) : Settled after := by
  have replayed : after.replay = before.replay := congrArg Carried.replay same
  have decided : after.bomDone = before.bomDone := congrArg Carried.bomDone same
  have held : after.prefixBytes = before.prefixBytes := congrArg Carried.prefixBytes same
  constructor
  · rw [replayed, settled.replayed]
  · intro done
    rw [held]
    exact settled.decided (decided ▸ done)
  · rw [held]
    exact settled.held

/-- A byte that may belong to a mark is held back, or all held-back bytes are replayed. -/
theorem holdByte_cases (parser : Parser) (byte : UInt8) (settled : Settled parser)
    (undecided : parser.bomDone = false) :
    Settled (holdByte parser byte) ∨
      ∃ held : List UInt8, (∀ byte ∈ held, ¬ (byte = 10 ∨ byte = 13)) ∧
        (holdByte parser byte).replay = held ++ [byte] ∧
        (holdByte parser byte).prefixBytes = [] := by
  simp only [holdByte]
  split
  · exact .inr ⟨parser.prefixBytes, settled.held_bytes, rfl, rfl⟩
  · next expected =>
    left
    split
    · next short =>
      refine ⟨settled.replayed, fun done => absurd done (by simp [undecided]), ?_⟩
      obtain held | held | held := settled.held
      · simp only [held, List.nil_append, List.length_singleton, bomByte, ite_true,
          ne_eq, not_not] at expected
        simp [held, expected]
      · simp only [held, List.cons_append, List.nil_append, List.length_cons, List.length_nil,
          bomByte, ne_eq, not_not] at expected
        simp [held, expected]
      · simp [held] at short
    · exact ⟨settled.replayed, fun _ => rfl, .inl rfl⟩

/-- A parser with nothing to replay goes on as it is. -/
theorem replayLoop_settled {parser : Parser} (replayed : parser.replay = []) (next : Int) :
    replayLoop parser.replay parser next = result parser next .needInput := by
  cases parser
  simp only at replayed
  subst replayed
  rfl

/-- A chunk is read after the replay of the held-back bytes. -/
theorem feedLoop_replayed {parser : Parser} {next : Int} {ready : Prop} (bytes : Bytes)
    (replayed : Replayed parser next ready (replayLoop parser.replay parser next)) :
    feedLoop bytes parser next =
      (replayLoop parser.replay parser next).resume fun parser => feedLoop bytes parser next := by
  generalize replays : replayLoop parser.replay parser next = fed at replayed
  cases replayed with
  | @more after keeps =>
    have empty : after.replay = [] := congrArg Carried.replay keeps
    cases bytes with
    | nil => rw [feedLoop, replays]; exact (replayLoop_settled empty next).symm
    | cons byte bytes =>
      rw [feedLoop, replays]
      show _ = feedLoop (byte :: bytes) after next
      rw [feedLoop, replayLoop_settled empty]
  | record reason keeps => cases bytes <;> rw [feedLoop, replays] <;> rfl
  | failed => cases bytes <;> rw [feedLoop, replays] <;> rfl

/-- A settled parser reads the first byte of a chunk. -/
theorem feedLoop_cons {parser : Parser} (settled : Settled parser) (byte : UInt8) (bytes : Bytes)
    (next : Int) :
    feedLoop (byte :: bytes) parser next =
      if parser.exhausted = true then failed parser next (inputProblem parser)
      else if parser.bomDone = false then
        feedLoop bytes (holdByte parser.counted byte) (next + 1)
      else
        (process parser.counted byte (next + 1)).resume fun parser =>
          feedLoop bytes parser (next + 1) := by
  rw [feedLoop, replayLoop_settled settled.replayed]
  rfl

/-- What a byte does to a parser between two bytes. -/
inductive Consumed (before : Parser) : Parser × Answer (Record Bytes) Error → Prop where
  | more {after : Parser} (settled : Settled after) (live : after.failed = none)
    (going : after.ended = before.ended) : Consumed before (after, .more)
  | out {after : Parser} {record : Record Bytes} (settled : Settled after)
    (live : after.failed = none) (going : after.ended = before.ended) :
    Consumed before (after, .out record)
  | stop {after : Parser} {error : Error} (failed : after.failed = some error) :
    Consumed before (after, .stop error)

/-- A report with the carried part kept is what a byte may do. -/
theorem Reports.consumed {before middle : Parser} {next : Int} {ready : Prop} {fed : Feed}
    (reports : Reports middle next ready fed) (settled : Settled middle)
    (live : middle.failed = none) (going : middle.ended = before.ended) :
    Consumed before (fed.parser, fed.answer) := by
  cases reports with
  | more keeps =>
    exact .more (settled.of_carried keeps) ((congrArg Carried.failed keeps).trans live)
      ((congrArg Carried.ended keeps).trans going)
  | record reason keeps =>
    exact .out (settled.of_carried keeps) ((congrArg Carried.failed keeps).trans live)
      ((congrArg Carried.ended keeps).trans going)
  | failed keeps => exact .stop rfl

/-- A replay of all held-back bytes is what a byte may do. -/
theorem Replayed.consumed {before middle : Parser} {next : Int} {ready : Prop} {fed : Feed}
    (replayed : Replayed middle next ready fed) (undecided : middle.prefixBytes = [])
    (live : middle.failed = none) (going : middle.ended = before.ended) :
    Consumed before (fed.parser, fed.answer) := by
  have settled : ∀ after : Parser, after.carried = middle.carried.replayed → Settled after := by
    intro after keeps
    have held : after.prefixBytes = [] := (congrArg Carried.prefixBytes keeps).trans undecided
    exact ⟨congrArg Carried.replay keeps, fun _ => held, .inl held⟩
  cases replayed with
  | more keeps =>
    exact .more (settled _ keeps) ((congrArg Carried.failed keeps).trans live)
      ((congrArg Carried.ended keeps).trans going)
  | record reason keeps =>
    exact .out (settled _ keeps) ((congrArg Carried.failed keeps).trans live)
      ((congrArg Carried.ended keeps).trans going)
  | failed => exact .stop rfl

/-- Holding a byte back changes neither the failure nor the end. -/
theorem holdByte_kept (parser : Parser) (byte : UInt8) :
    (holdByte parser byte).failed = parser.failed ∧
      (holdByte parser byte).ended = parser.ended := by
  simp only [holdByte]
  split_ifs <;> exact ⟨rfl, rfl⟩

/-- The byte machine before the byte-order mark is decided. -/
theorem consume_undecided {parser : Parser} (byte : UInt8) (within : ¬ parser.exhausted = true)
    (undecided : parser.bomDone = false) :
    consume parser byte =
      ((replayLoop (holdByte parser.counted byte).replay (holdByte parser.counted byte) 0).parser,
        (replayLoop (holdByte parser.counted byte).replay (holdByte parser.counted byte)
          0).answer) := by
  simp only [consume, if_neg within, if_pos undecided]

/-- The byte machine after the byte-order mark is decided. -/
theorem consume_decided {parser : Parser} (byte : UInt8) (within : ¬ parser.exhausted = true)
    (decided : ¬ parser.bomDone = false) :
    consume parser byte =
      ((process parser.counted byte 0).parser, (process parser.counted byte 0).answer) := by
  simp only [consume, if_neg within, if_neg decided]

/-- Counting a byte keeps the parser settled. -/
theorem Settled.counted {parser : Parser} (settled : Settled parser) : Settled parser.counted :=
  ⟨settled.replayed, settled.decided, settled.held⟩

/-- A byte leads from between two bytes to between two bytes, or to a failure. -/
theorem consume_consumed {parser : Parser} (settled : Settled parser)
    (live : parser.failed = none) (byte : UInt8) : Consumed parser (consume parser byte) := by
  simp only [consume]
  by_cases exhausted : parser.exhausted = true
  · rw [if_pos exhausted]
    exact .stop rfl
  rw [if_neg exhausted]
  by_cases undecided : parser.bomDone = false
  · rw [if_pos undecided]
    obtain ⟨kept, going⟩ := holdByte_kept parser.counted byte
    obtain held | ⟨held, plain, replays, none_held⟩ :=
      holdByte_cases _ byte settled.counted undecided
    · rw [replayLoop_settled held.replayed]
      exact .more held (kept.trans live) going
    · rw [replays]
      exact (replayLoop_replayed held [byte] _ 0 plain (Nat.le_refl 1)).consumed none_held
        (kept.trans live) going
  · rw [if_neg undecided]
    exact (process_reports _ byte 0).consumed settled.counted live rfl

/-- A report of a call is a scan of the byte machine. -/
structure Scans (before : Parser) (bytes : Bytes) (next : Int) (fed : Feed) : Prop where
  /-- The parser is the one the scan stops at. -/
  parser : fed.parser = (scan consume before bytes).2.1
  /-- The report is the answer of the scan. -/
  answer : fed.answer = (scan consume before bytes).2.2
  /-- A chunk does not end the input. -/
  unended : fed.status ≠ .ended
  /-- The bytes of the scan are consumed. -/
  next : (∀ error, fed.status ≠ .failed error) → fed.next = next + (scan consume before bytes).1

/-- A byte that only asks for more leaves the scan to the bytes after it. -/
theorem Scans.cons_more {before after : Parser} {byte : UInt8} {bytes : Bytes} {next : Int}
    {fed : Feed} (step : consume before byte = (after, .more))
    (later : Scans after bytes (next + 1) fed) : Scans before (byte :: bytes) next fed := by
  have scanned : scan consume before (byte :: bytes) =
      ((scan consume after bytes).1 + 1, (scan consume after bytes).2) := by
    simp only [scan, step]
  refine ⟨?_, ?_, later.unended, ?_⟩
  · rw [scanned, later.parser]
  · rw [scanned, later.answer]
  · intro succeeds
    rw [scanned, later.next succeeds]
    push_cast
    omega

/-- A byte with an answer ends the scan. -/
theorem Scans.cons_answered {before : Parser} {byte : UInt8} {bytes : Bytes} {next : Int}
    {fed : Feed} (step : consume before byte = (fed.parser, fed.answer))
    (reported : fed.status ≠ .needInput) (unended : fed.status ≠ .ended)
    (consumed : (∀ error, fed.status ≠ .failed error) → fed.next = next + 1) :
    Scans before (byte :: bytes) next fed := by
  have scanned : scan consume before (byte :: bytes) = (1, fed.parser, fed.answer) := by
    simp only [scan, step]
    cases status : fed.status with
    | needInput => exact absurd status reported
    | ended => exact absurd status unended
    | recordReady record => simp [Feed.answer, status]
    | failed error => simp [Feed.answer, status]
  exact ⟨by rw [scanned], by rw [scanned], unended, fun succeeds => by
    rw [scanned, consumed succeeds]
    rfl⟩

/-- A report of the last byte read, whatever the bytes after it. -/
theorem Scans.of_report {before : Parser} {byte : UInt8} {bytes : Bytes} {next : Int} {fed : Feed}
    (step : consume before byte = (fed.parser, fed.answer)) (unended : fed.status ≠ .ended)
    (settled : Settled before) (live : before.failed = none)
    (later : ∀ after : Parser, Settled after → after.failed = none →
      Scans after bytes (next + 1) (feedLoop bytes after (next + 1))) :
    Scans before (byte :: bytes) next
      ((fed.moved (next + 1)).resume fun parser => feedLoop bytes parser (next + 1)) := by
  have known := consume_consumed settled live byte
  rw [step] at known
  obtain ⟨old, parser, status⟩ := fed
  cases status with
  | needInput =>
    cases known with
    | more settled live going => exact Scans.cons_more step (later parser settled live)
  | recordReady record =>
    exact Scans.cons_answered step (by simp [Feed.moved, Feed.resume])
      (by simp [Feed.moved, Feed.resume]) fun _ => rfl
  | ended => exact absurd rfl unended
  | failed error =>
    exact Scans.cons_answered step (by simp [Feed.moved, Feed.resume])
      (by simp [Feed.moved, Feed.resume]) fun _ => rfl

/-- Reading a chunk is a scan of the byte machine. -/
theorem feedLoop_scans (bytes : Bytes) (parser : Parser) (next : Int) (settled : Settled parser)
    (live : parser.failed = none) : Scans parser bytes next (feedLoop bytes parser next) := by
  induction bytes generalizing parser next with
  | nil =>
    rw [feedLoop, replayLoop_settled settled.replayed]
    exact ⟨rfl, rfl, by simp [result], fun _ => by simp [result, scan]⟩
  | cons byte bytes hypothesis =>
    have later : ∀ after : Parser, Settled after → after.failed = none →
        Scans after bytes (next + 1) (feedLoop bytes after (next + 1)) :=
      fun after settled live => hypothesis after (next + 1) settled live
    rw [feedLoop_cons settled]
    by_cases exhausted : parser.exhausted = true
    · rw [if_pos exhausted]
      refine Scans.cons_answered ?_ (by simp [failed]) (by simp [failed]) ?_
      · simp only [consume, if_pos exhausted]
        rfl
      · exact fun succeeds => absurd rfl (succeeds (inputProblem parser))
    rw [if_neg exhausted]
    by_cases undecided : parser.bomDone = false
    · rw [if_pos undecided]
      have step := consume_undecided byte exhausted undecided
      obtain held | ⟨held, plain, replays, none_held⟩ :=
        holdByte_cases _ byte settled.counted undecided
      · rw [replayLoop_settled held.replayed] at step
        have live := (holdByte_kept parser.counted byte).1.trans live
        exact Scans.cons_more step (later _ held live)
      · have replayed : ∀ next, Replayed (holdByte parser.counted byte) next ([byte] ≠ [])
            (replayLoop (holdByte parser.counted byte).replay (holdByte parser.counted byte)
              next) := by
          intro next
          rw [replays]
          exact replayLoop_replayed held [byte] _ next plain (Nat.le_refl 1)
        rw [feedLoop_replayed bytes (replayed (next + 1)), replayLoop_moved _ _ 0 (next + 1)]
        refine Scans.of_report step ?_ settled live later
        have finished := replayed 0
        generalize replayLoop (holdByte parser.counted byte).replay (holdByte parser.counted byte)
          0 = fed at finished
        cases finished <;> simp [result, failed]
    · rw [if_neg undecided, process_moved parser.counted byte 0 (next + 1)]
      refine Scans.of_report (consume_decided byte exhausted undecided) ?_ settled live later
      have reports := process_reports parser.counted byte 0
      generalize process parser.counted byte 0 = fed at reports
      cases reports <;> simp [result, failed]

end Fai.Csv
