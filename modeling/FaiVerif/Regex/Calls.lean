import FaiVerif.Regex.Iteration
import Mathlib.Algebra.Ring.Nat

/-!
# Calls of an iterator

Calls of `next`, one after another from an open cursor, hand out a chain of matches, with the
captures of each, and collecting them returns.
-/

namespace Fai.Regex

open Spans (First Chain)
open Fueled (Returns)

/-- The bytes of a match that was handed out. -/
def Captures.place (found : Captures) : Nat × Nat :=
  ((whole found).span.startByte.toNat, (whole found).span.endByte.toNat)

/-- The captures of a match lie where it lies. -/
theorem Captures.Of.place {found : Captures} {regex : Compiled} {source : Source} {m : Nat × Nat}
    (captures : found.Of regex source m) : found.place = m := by
  rw [Captures.place, captures.whole.startByte, captures.whole.endByte]
  rfl

/-- Calls of `next`, one after another. -/
inductive Calls : Cursor → List Captures → Cursor → Prop where
  | none (cursor : Cursor) : Calls cursor [] cursor
  | call {cursor rest final : Cursor} {found : Captures} {founds : List Captures}
      (gives : Returns (fun fuel => next fuel cursor) (.ok (some (found, rest))))
      (later : Calls rest founds final) : Calls cursor (found :: founds) final

/-- The end of the last of some matches, or of the one before them. -/
def lastEnd (last : Option Nat) (founds : List Captures) : Option Nat :=
  (founds.getLast?.map fun found => found.place.2).or last

/-- The position behind some matches. -/
def reached (start : Nat) (founds : List Captures) : Nat :=
  Spans.behind start (founds.map Captures.place)

/-- The capture slots that some matches take. -/
def slotsOf (founds : List Captures) : Nat := (founds.map fun found => found.groups.length).sum

/-- The end of the last match is that of a match when none follows it. -/
@[simp] theorem lastEnd_cons (last : Option Nat) (found : Captures) (founds : List Captures) :
    lastEnd last (found :: founds) = lastEnd (some found.place.2) founds := by
  cases founds with
  | nil => rfl
  | cons next founds =>
    rw [lastEnd, lastEnd, List.getLast?_cons_cons, List.getLast?_cons]
    rfl

/-- The position behind matches is that behind those after the first. -/
@[simp] theorem reached_cons (start : Nat) (found : Captures) (founds : List Captures) :
    reached start (found :: founds) = reached found.place.2 founds := by
  rw [reached, List.map_cons, Spans.behind_cons]
  rfl

/-- Where the last match ends is the position behind it. -/
theorem reached_of_lastEnd {last : Option Nat} {start : Nat}
    (recent : ∀ e, last = some e → e = start) (founds : List Captures) :
    ∀ e, lastEnd last founds = some e → e = reached start founds := by
  induction founds generalizing last start with
  | nil => exact recent
  | cons found founds hypothesis =>
    rw [lastEnd_cons, reached_cons]
    exact hypothesis fun e same => (Option.some.inj same).symm

/-- Where a cursor stands, and on what, after some calls, and what it has left of its limits. -/
structure After (matchAt : Nat → Option Nat) (cursor : Cursor) (last : Option Nat) (start : Nat)
    (founds : List Captures) (final : Cursor) : Prop where
  chain : Chain matchAt last start (founds.map Captures.place)
  captures : ∀ found ∈ founds, found.Of cursor.regex cursor.source found.place
  stands : ∃ base, final.At base (reached start founds) (lastEnd last founds)
  regex_eq : final.regex = cursor.regex
  source_eq : final.source = cursor.source
  limits_eq : final.limits = cursor.limits
  remaining : final.remaining = cursor.remaining - founds.length
  slots : final.slots = cursor.slots - slotsOf founds

section

variable {matchAt : Nat → Option Nat} {cursor final : Cursor} {base start : Nat}
  {last : Option Nat} {founds : List Captures}

/-- A call that gives something gives an outcome. -/
theorem Cursor.At.outcome (at_ : cursor.At base start last)
    (sound : Engine.Leftmost cursor.regex.program cursor.source.bytes matchAt)
    (recent : ∀ e, last = some e → e = start) {given : Except Error (Option (Captures × Cursor))}
    (gives : Returns (fun fuel => next fuel cursor) given) :
    Outcome matchAt cursor last start given := by
  obtain ⟨outcome, always, what⟩ := next_spec at_ sound recent
  have same := gives.unique ⟨2, fun fuel enough => by
    obtain ⟨more, rfl⟩ := Nat.exists_eq_add_of_le' enough
    exact always more⟩
  rw [same]
  exact what

/-- Calls of `next` hand out a chain of matches. -/
theorem Calls.after (calls : Calls cursor founds final) (at_ : cursor.At base start last)
    (sound : Engine.Leftmost cursor.regex.program cursor.source.bytes matchAt)
    (recent : ∀ e, last = some e → e = start) : After matchAt cursor last start founds final := by
  induction calls generalizing base start last with
  | none cursor =>
    exact ⟨.nil _ _, fun found member => absurd member List.not_mem_nil, ⟨base, at_⟩, rfl, rfl,
      rfl, (Int.sub_zero _).symm, (Int.sub_zero _).symm⟩
  | @call cursor rest final found founds gives later hypothesis =>
    cases at_.outcome sound recent gives with
    | @handed m found rest first hands =>
      have sound' : Engine.Leftmost rest.regex.program rest.source.bytes matchAt := by
        rw [hands.regex_eq, hands.source_eq]
        exact sound
      have after := hypothesis hands.stands sound' fun e same => (Option.some.inj same).symm
      have place := hands.captures.place
      have here := hands.captures
      rw [← place] at here
      refine ⟨?_, ?_, ?_, after.regex_eq.trans hands.regex_eq,
        after.source_eq.trans hands.source_eq, after.limits_eq.trans hands.limits_eq, ?_, ?_⟩
      · rw [List.map_cons, place]
        exact .cons first after.chain
      · intro other member
        rcases List.mem_cons.mp member with rfl | member
        · exact here
        · rw [← hands.regex_eq, ← hands.source_eq]
          exact after.captures other member
      · rw [lastEnd_cons, reached_cons, place]
        exact after.stands
      · have left := after.remaining
        rw [hands.remaining] at left
        rw [left, List.length_cons]
        omega
      · have left := after.slots
        rw [hands.slots] at left
        rw [left, slotsOf, slotsOf, List.map_cons, List.sum_cons]
        omega

/-- What `next` gives after some calls, when it hands out nothing more: the end, or the failure of
a limit. -/
structure Ends (matchAt : Nat → Option Nat) (final : Cursor) (last : Option Nat) (start : Nat)
    (failure : Option Error) : Prop where
  gives : Returns (fun fuel => next fuel final) (failure.elim (.ok none) .error)
  outcome : Outcome matchAt final last start (failure.elim (.ok none) .error)

/-- Collecting returns: after calls up to the end it gives what they handed out, or the failure of
the limit that they ended at. -/
def Collects (matchAt : Nat → Option Nat) (cursor : Cursor) (last : Option Nat) (start : Nat)
    (values : List Captures) : Prop :=
  ∃ founds final failure, Calls cursor founds final ∧
    Ends matchAt final (lastEnd last founds) (reached start founds) failure ∧
    Returns (fun fuel => collectInto fuel cursor values)
      (failure.elim (.ok (values ++ founds)) .error)

/-- A call that always gives something returns it. -/
theorem returns_next {outcome : Except Error (Option (Captures × Cursor))}
    (gives : ∀ fuel, next (fuel + 2) cursor = some outcome) :
    Returns (fun fuel => next fuel cursor) outcome :=
  ⟨2, fun fuel enough => by
    obtain ⟨more, rfl⟩ := Nat.exists_eq_add_of_le' enough
    exact gives more⟩

/-- A cursor collects the matches that calls of `next` hand out, up to the end or a limit. -/
theorem collectInto_spec (at_ : cursor.At base start last)
    (sound : Engine.Leftmost cursor.regex.program cursor.source.bytes matchAt)
    (recent : ∀ e, last = some e → e = start) :
    ∀ values, Collects matchAt cursor last start values := by
  refine Cursor.At.induction (motive := fun cursor last start => ∀ values,
    Collects matchAt cursor last start values) ?_ at_ sound recent
  intro cursor base start last outcome _ _ gives given later values
  have called (fuel : Nat) (enough : fuel ≥ 2) : next fuel cursor = some outcome := by
    obtain ⟨more, rfl⟩ := Nat.exists_eq_add_of_le' enough
    exact gives more
  have failing (reason : Error) (failed : outcome = .error reason) :
      Collects matchAt cursor last start values := by
    subst failed
    refine ⟨[], cursor, some reason, .none cursor, ⟨returns_next gives, given⟩, ?_⟩
    refine Returns.succ 2 (fun fuel enough => ?_) (Fueled.returns_const _)
    rw [collectInto, called fuel enough]
    rfl
  cases given with
  | ended finished =>
    refine ⟨[], cursor, none, .none cursor, ⟨returns_next gives, .ended finished⟩, ?_⟩
    refine Returns.succ 2 (fun fuel enough => ?_) (Fueled.returns_const _)
    rw [collectInto, called fuel enough, List.append_nil]
    rfl
  | spent first budget => exact failing _ rfl
  | crowded first captures budget slots => exact failing _ rfl
  | @handed m found rest first hands =>
    obtain ⟨founds, final, failure, calls, ends, returns⟩ :=
      later m found rest rfl first hands (values ++ [found])
    refine ⟨found :: founds, final, failure, .call (returns_next gives) calls, ?_, ?_⟩
    · rw [lastEnd_cons, reached_cons, hands.captures.place]
      exact ends
    · rw [List.append_assoc] at returns
      refine Returns.succ 2 (fun fuel enough => ?_) returns
      rw [collectInto, called fuel enough]

end

/-- What a search asks for: limits that are not negative, a source of the mode of the expression
and no larger than its limit, and a start in it, in text on a character boundary. -/
structure Searches (limits : Limits) (regex : Compiled) (source : Source) (start : Int) : Prop where
  limits_ok : validateLimits limits = .ok ()
  mode : source.isBinary = regex.binary
  small : (source.bytes.length : Int) ≤ limits.maxInputBytes
  starts : ∃ i : Nat, start = i ∧ regex.program.Starts source.bytes i

/-- A source that is searched passes the checks. -/
theorem validate_ok {limits : Limits} {regex : Compiled} {source : Source} {start size : Int}
    (valid : validate limits regex source start = .ok size) :
    size = source.bytes.length ∧ Searches limits regex source start := by
  rw [validate] at valid
  cases checked : validateLimits limits with
  | error failed =>
    rw [checked] at valid
    cases valid
  | ok _ =>
    rw [checked, sourceSize_eq] at valid
    simp only at valid
    split_ifs at valid with mode large outside
    have same : source.isBinary = regex.binary := not_not.mp mode
    obtain ⟨i, rfl⟩ := Int.eq_ofNat_of_zero_le (show 0 ≤ start by omega)
    clear mode
    cases source with
    | binary bytes =>
      refine ⟨(Except.ok.inj valid).symm, checked, same, by omega, i, rfl, by omega,
        fun textual => ?_⟩
      rw [regex.mode, ← same] at textual
      cases textual
    | text text =>
      have probe := Engine.slice_boundary text i
      simp only at valid
      split_ifs at probe with boundary
      · rw [probe] at valid
        exact ⟨(Except.ok.inj valid).symm, checked, same, by omega, i, rfl, by omega,
          fun _ => boundary⟩
      · obtain ⟨failed, refused⟩ := probe
        rw [refused] at valid
        cases valid

/-- An open cursor stands at the start, with nothing found yet. -/
theorem cursor_ok {limits : Limits} {regex : Compiled} {source : Source} {start : Int}
    {captures : Bool} {first : Cursor}
    (opened : cursor limits regex source start captures = .ok first) :
    first.At 0 start.toNat none ∧ first.regex = regex ∧ first.source = source ∧
      first.limits = limits ∧ first.remaining = limits.maxResults ∧
        first.slots = limits.maxCaptureSlots ∧ Searches limits regex source start := by
  rw [cursor] at opened
  cases valid : validate limits regex source start with
  | error failed =>
    rw [valid] at opened
    cases opened
  | ok size =>
    rw [valid] at opened
    obtain rfl := Except.ok.inj opened
    obtain ⟨rfl, searches⟩ := validate_ok valid
    obtain ⟨i, rfl, starts⟩ := searches.starts
    have zero : regex.program.Starts source.bytes 0 := by
      refine ⟨Nat.zero_le _, fun textual => ?_⟩
      cases source with
      | text text => exact Utf8.boundary_encode.mpr ⟨[], text, rfl, rfl⟩
      | binary bytes =>
        rw [regex.mode, ← searches.mode] at textual
        cases textual
    refine ⟨⟨searches.mode, searches.small, rfl, rfl, rfl, Nat.zero_le _, zero, starts, fun _ => ?_,
      rfl, fun done => absurd done Bool.false_ne_true⟩, rfl, rfl, rfl, rfl, rfl, searches⟩
    simp [Spans.slice, Utf8.scalars]

/-- A cursor opens on what can be searched. -/
theorem Searches.opens {limits : Limits} {regex : Compiled} {source : Source} {start : Int}
    (searches : Searches limits regex source start) (captures : Bool) :
    ∃ first, cursor limits regex source start captures = .ok first := by
  obtain ⟨valid, mode, small, i, rfl, starts⟩ := searches
  have inside : ¬ ((i : Int) < 0 ∨ (i : Int) > source.bytes.length) := by
    have bounded := starts.1
    omega
  have checked : validate limits regex source i = .ok (source.bytes.length : Int) := by
    rw [validate, valid, sourceSize_eq]
    simp only
    rw [if_neg (not_not.mpr mode), if_neg (by omega), if_neg inside]
    cases source with
    | binary bytes => rfl
    | text text =>
      have probe := Engine.slice_boundary text i
      have boundary : Utf8.boundary (Utf8.encode text) i = true :=
        starts.2 (regex.mode.trans mode.symm)
      rw [if_pos boundary] at probe
      simp only
      rw [probe]
  exact ⟨_, by rw [cursor, checked]⟩

end Fai.Regex
