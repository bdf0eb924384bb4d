import FaiVerif.Regex.Pieces
import Mathlib.Data.List.Forall2

/-!
# Iteration, replacement and splitting are exact

With an engine that finds leftmost matches, an open cursor hands out every match that does not
overlap the ones before, a replacement changes these and nothing else, and a split cuts the source
at them.
-/

namespace Fai.Regex

open Spans (Chain fronts gaps interleave)
open Fueled (Returns)

/-- A match as a source of its own: its text or its bytes. -/
def own (found : Captures) : Source :=
  match found.source with
  | .text _ => .text (text (whole found))
  | .binary _ => .binary (bytes (whole found))

/-- The text of a match is what it covers. -/
theorem own_holds {found : Captures} {regex : Compiled} {source : Source} {m : Nat × Nat}
    (captures : found.Of regex source m) :
    Holds source (own found) (Spans.slice m.1 m.2 source.bytes) := by
  have covers := captures.whole
  cases source with
  | binary input =>
    rw [own, captures.source_eq]
    refine ⟨rfl, ?_⟩
    show bytes (whole found) = _
    have whole_source : (whole found).source = .binary input := captures.source_eq
    rw [bytes, whole_source]
    simp only
    rw [covers.startByte, covers.endByte]
    rfl
  | text input =>
    rw [own, captures.source_eq]
    refine ⟨rfl, ?_⟩
    show Utf8.encode (text (whole found)) = _
    have whole_source : (whole found).source = .text input := captures.source_eq
    obtain ⟨front, middle, back, parts, start, finish, -, -⟩ := covers.characters input rfl
    obtain ⟨piece, sliced, bytes⟩ := Engine.slice_cuts ⟨parts, start⟩
      (⟨by rw [parts, List.append_assoc], finish⟩ : Utf8.Cut input m.2 (front ++ middle) back)
      covers.forward.1
    rw [text, whole_source]
    simp only
    rw [covers.startByte, covers.endByte, sliced]
    exact bytes

/-- The iteration of an open cursor. Calls hand out a chain of matches, which advance and do not
overlap, with captures that cover their bytes and characters, and take of the limits what these
need; every further call returns; and collecting all of them returns. -/
structure Iterates (matchAt : Nat → Option Nat) (limits : Limits) (regex : Compiled)
    (source : Source) (start : Nat) (first : Cursor) : Prop where
  calls : ∀ founds final, Calls first founds final →
    Chain matchAt none start (founds.map Captures.place) ∧
    (founds.map Captures.place).Pairwise Spans.Advances ∧
    Spans.Ordered source.bytes.length start (founds.map Captures.place) ∧
    (∀ found ∈ founds, found.Of regex source found.place) ∧
    final.limits = limits ∧ final.remaining = limits.maxResults - founds.length ∧
    final.slots = limits.maxCaptureSlots - slotsOf founds ∧
    ∃ outcome, (∀ fuel, next (fuel + 2) final = some outcome) ∧
      Outcome matchAt final (lastEnd none founds) (reached start founds) outcome
  collects : Collects matchAt first none start []

section

variable {matchAt : Nat → Option Nat} {limits : Limits} {regex : Compiled} {source : Source}
  {captures : Bool} {first final : Cursor} {founds : List Captures}

/-- An open cursor iterates. -/
theorem cursor_iterates (sound : Engine.Leftmost regex.program source.bytes matchAt) {start : Int}
    (opened : cursor limits regex source start captures = .ok first) :
    Iterates matchAt limits regex source start.toNat first := by
  obtain ⟨at_, rfl, rfl, rfl, remaining, slots, -⟩ := cursor_ok opened
  have none_yet : ∀ e, (none : Option Nat) = some e → e = start.toNat := by simp
  refine ⟨fun founds final calls => ?_, collectInto_spec at_ sound none_yet []⟩
  have after := calls.after at_ sound none_yet
  obtain ⟨base, stands⟩ := after.stands
  refine ⟨after.chain, after.chain.advances sound.forward,
    after.chain.ordered sound.forward at_.starts.1, after.captures, after.limits_eq, ?_, ?_, ?_⟩
  · rw [← remaining]
    exact after.remaining
  · rw [← slots]
    exact after.slots
  · refine next_spec stands ?_ (reached_of_lastEnd none_yet founds)
    rw [after.regex_eq, after.source_eq]
    exact sound

/-- Calls from an open cursor hand out matches in order from the start of the source on. -/
theorem calls_ordered (sound : Engine.Leftmost regex.program source.bytes matchAt)
    (opened : cursor limits regex source 0 captures = .ok first)
    (calls : Calls first founds final) :
    Spans.Ordered source.bytes.length 0 (founds.map Captures.place) ∧
      (∀ found ∈ founds, found.Of regex source found.place) ∧ final.source = source := by
  obtain ⟨at_, rfl, rfl, -⟩ := cursor_ok opened
  have after := calls.after at_ sound (by simp)
  exact ⟨after.chain.ordered sound.forward at_.starts.1, after.captures, after.source_eq⟩

/-- The replacement of a source, when there is one, has the pieces between the first matches and
what is put for these. -/
theorem Replaced.interleave {ε : Type} {replacement : Captures → Except ε Source} {maximum : Int}
    {output : Source} (sound : Engine.Leftmost regex.program source.bytes matchAt)
    (opened : cursor limits regex source 0 captures = .ok first)
    (replaced : Replaced replacement maximum matchAt first none 0 0 [] (.ok output)) :
    ∃ founds final pieces, Calls first founds final ∧ (founds.length : Int) ≤ maximum ∧
      (founds.length < maximum →
        Ends matchAt final (lastEnd none founds) (reached 0 founds) none) ∧
      Replacements replacement source founds pieces ∧
      Holds source output (interleave (gaps source.bytes 0 (founds.map Captures.place))
        (pieces.map Source.bytes)) := by
  obtain ⟨founds, final, pieces, calls, count, put, finishes⟩ := replaced
  obtain ⟨-, -, source_eq, -⟩ := cursor_ok opened
  obtain ⟨-, -, final_eq⟩ := calls_ordered sound opened calls
  rw [source_eq] at put finishes
  cases finishes with
  | done ends fits holds =>
    rw [Int.zero_add] at count ends
    refine ⟨founds, final, pieces, calls, count, ends, put, ?_⟩
    rw [final_eq, List.nil_append] at holds
    rw [Spans.gaps_eq, Spans.interleave_concat ?_]
    · exact holds
    · rw [Spans.length_fronts, List.length_map, List.length_map, put.length_eq]

/-- Sources that hold bytes have them. -/
theorem bytes_of_holds {pieces : List Source} {parts : List (List UInt8)}
    (holds : List.Forall₂ (Holds source) pieces parts) : pieces.map Source.bytes = parts := by
  induction holds with
  | nil => rfl
  | cons here rest hypothesis => rw [List.map_cons, here.bytes_eq, hypothesis]

/-- The own texts of matches are the slices that these cover. -/
theorem bytes_of_own (each : ∀ found ∈ founds, found.Of regex source found.place) :
    founds.map (fun found => (own found).bytes) = (founds.map Captures.place).map fun span =>
      Spans.slice span.1 span.2 source.bytes := by
  rw [List.map_map]
  exact List.map_congr_left fun found member => (own_holds (each found member)).bytes_eq

/-- Replacing each match by its own text gives the source back. -/
theorem replaced_own {ε : Type} {maximum : Int} {output : Source}
    (sound : Engine.Leftmost regex.program source.bytes matchAt)
    (opened : cursor limits regex source 0 captures = .ok first)
    (replaced : Replaced (fun found => (.ok (own found) : Except ε Source)) maximum matchAt first
      none 0 0 [] (.ok output)) : output = source := by
  obtain ⟨founds, final, pieces, calls, -, -, put, holds⟩ := replaced.interleave sound opened
  obtain ⟨ordered, each, -⟩ := calls_ordered sound opened calls
  have same : pieces.map Source.bytes = founds.map fun found => (own found).bytes := by
    clear holds ordered calls each
    induction put with
    | nil => rfl
    | cons here rest hypothesis =>
      rw [List.map_cons, List.map_cons, ← Except.ok.inj here.1, hypothesis]
  rw [same, bytes_of_own each, Spans.interleave_gaps ordered] at holds
  exact holds.eq

/-- The pieces of a split, when there are any, are those between the first matches, and with these
they give the source back. -/
theorem Splits.pieces {maximum : Int} {all : List Source}
    (sound : Engine.Leftmost regex.program source.bytes matchAt)
    (opened : cursor limits regex source 0 captures = .ok first)
    (splits : Splits maximum matchAt first none 0 [] (.ok all)) :
    ∃ founds final, Calls first founds final ∧ (all.length : Int) ≤ maximum ∧
      (all.length < maximum →
        Ends matchAt final (lastEnd none founds) (reached 0 founds) none) ∧
      all.length = founds.length + 1 ∧
      List.Forall₂ (Holds source) all (gaps source.bytes 0 (founds.map Captures.place)) ∧
      interleave (all.map Source.bytes) (founds.map fun found => (own found).bytes) =
        source.bytes := by
  obtain ⟨founds, final, more, calls, count, each, halts⟩ := splits
  obtain ⟨-, -, source_eq, -⟩ := cursor_ok opened
  obtain ⟨ordered, captured, final_eq⟩ := calls_ordered sound opened calls
  rw [List.nil_append] at count halts
  rw [source_eq] at each
  cases halts with
  | @done piece ends room fits holds =>
    rw [final_eq] at holds
    have pieces : List.Forall₂ (Holds source) (more ++ [piece])
        (gaps source.bytes 0 (founds.map Captures.place)) := by
      rw [Spans.gaps_eq]
      exact List.rel_append each (.cons holds .nil)
    have length : (more ++ [piece]).length = founds.length + 1 := by
      rw [pieces.length_eq, Spans.length_gaps, List.length_map]
    refine ⟨founds, final, calls, ?_, ?_, length, pieces, ?_⟩
    · rw [List.length_append, List.length_singleton]
      omega
    · rw [List.length_append, List.length_singleton]
      exact ends
    · rw [bytes_of_holds pieces, bytes_of_own captured, Spans.interleave_gaps ordered]
      rfl

end

/-- With an engine that finds leftmost matches: a cursor opens on what can be searched, and then
iterates over the matches that do not overlap; a replacement returns the source with the first
matches replaced, or the failure of a limit that is exceeded or of a replacement, and with their
own texts put for them the source itself; and a split into one piece or more returns the pieces
between the first matches, which give the source back with these, or the failure of a limit that
is exceeded. -/
theorem iteration_replacement_split {limits : Limits} {regex : Compiled} {source : Source}
    {matchAt : Nat → Option Nat} (sound : Engine.Leftmost regex.program source.bytes matchAt) :
    (∀ start captures, (∃ first, cursor limits regex source start captures = .ok first) ↔
      Searches limits regex source start) ∧
    (∀ start captures first, cursor limits regex source start captures = .ok first →
      Iterates matchAt limits regex source start.toNat first) ∧
    (∀ (ε : Type) maximum captures first (replacement : Captures → Except ε Source), 0 ≤ maximum →
      cursor limits regex source 0 captures = .ok first → ∃ result,
        Returns (fun fuel => replace fuel limits maximum regex source captures replacement) result ∧
        Replaced replacement maximum matchAt first none 0 0 [] result ∧
        (∀ output, result = .ok output → ∃ founds final pieces, Calls first founds final ∧
          (founds.length : Int) ≤ maximum ∧
          (founds.length < maximum →
            Ends matchAt final (lastEnd none founds) (reached 0 founds) none) ∧
          Replacements replacement source founds pieces ∧
          Holds source output (interleave (gaps source.bytes 0 (founds.map Captures.place))
            (pieces.map Source.bytes))) ∧
        (replacement = (fun found => .ok (own found)) →
          ∀ output, result = .ok output → output = source)) ∧
    (∀ maximum first, 0 < maximum → cursor limits regex source 0 false = .ok first → ∃ result,
      Returns (fun fuel => split fuel limits maximum regex source) result ∧
      Splits maximum matchAt first none 0 [] result ∧
      ∀ all, result = .ok all →
        ∃ founds final, Calls first founds final ∧ (all.length : Int) ≤ maximum ∧
          (all.length < maximum →
            Ends matchAt final (lastEnd none founds) (reached 0 founds) none) ∧
          all.length = founds.length + 1 ∧
          List.Forall₂ (Holds source) all (gaps source.bytes 0 (founds.map Captures.place)) ∧
          interleave (all.map Source.bytes) (founds.map fun found => (own found).bytes) =
            source.bytes) := by
  refine ⟨fun start captures => ⟨?_, fun searches => searches.opens captures⟩,
    fun start captures first opened => cursor_iterates sound opened, ?_, ?_⟩
  · rintro ⟨first, opened⟩
    exact (cursor_ok opened).2.2.2.2.2.2
  · intro ε maximum captures first replacement nonneg opened
    obtain ⟨at_, regex_eq, source_eq, -⟩ := cursor_ok opened
    obtain ⟨result, returns, replaced⟩ := replaceLoop_spec replacement maximum at_
      (by rw [regex_eq, source_eq]; exact sound) (by simp) 0 ⟨0, []⟩ [] ⟨rfl, by simp, rfl⟩
      (Int.le_refl _) nonneg (fun _ => rfl)
    refine ⟨result, ?_, replaced, ?_, ?_⟩
    · have loop (fuel : Nat) : replace fuel limits maximum regex source captures replacement =
          replaceLoop replacement maximum fuel first 0 0 ⟨0, []⟩ := by
        rw [replace, if_neg (by omega), opened]
      simp only [loop]
      exact returns
    · rintro output rfl
      exact replaced.interleave sound opened
    · rintro rfl output rfl
      exact replaced_own sound opened replaced
  · intro maximum first positive opened
    obtain ⟨at_, regex_eq, source_eq, -⟩ := cursor_ok opened
    obtain ⟨result, returns, splits⟩ := splitLoop_spec at_
      (by rw [regex_eq, source_eq]; exact sound) (by simp) 0 [] rfl positive
    refine ⟨result, ?_, splits, ?_⟩
    · have loop (fuel : Nat) : split fuel limits maximum regex source =
          splitLoop maximum fuel first 0 0 [] := by
        rw [split, if_neg (by omega), opened]
        simp only
        rw [if_neg (by omega)]
      simp only [loop]
      exact returns
    · rintro all rfl
      exact splits.pieces sound opened

/-- A program that finds the letter `a` in the text `ba`. -/
def letterA : Compiled where
  binary := false
  program :=
    { binary := false
      searchWith := fun _ start => if start ≤ 1 then some (1, 2) else none
      searchCapturesWith := fun _ start => if start ≤ 1 then some [some (1, 2)] else none }
  mode := rfl

/-- The match of `letterA`. -/
def letterAt (p : Nat) : Option Nat := if p = 1 then some 2 else none

/-- The engine of `letterA` finds leftmost matches of the text `ba`. -/
theorem letterA_leftmost :
    Engine.Leftmost letterA.program (Source.text ['b', 'a']).bytes letterAt := by
  have starts (i : Nat) : letterA.program.Starts (Source.text ['b', 'a']).bytes i ↔ i ≤ 2 := by
    constructor
    · exact fun inside => inside.1
    · intro inside
      refine ⟨inside, fun _ => ?_⟩
      match i, inside with
      | 0, _ => decide
      | 1, _ => decide
      | 2, _ => decide
  have matched {a b : Nat} : letterAt a = some b ↔ a = 1 ∧ b = 2 := by
    rw [letterAt]
    split_ifs with first
    · simp [first, eq_comm]
    · simp [first]
  refine ⟨?_, ?_, ?_, ?_, ?_⟩
  · intro a b here
    obtain ⟨rfl, rfl⟩ := matched.mp here
    decide
  · intro a b here
    obtain ⟨rfl, rfl⟩ := matched.mp here
    exact ⟨(starts 1).mpr (by decide), (starts 2).mpr (by decide)⟩
  · intro start inside a b
    show (if start ≤ 1 then some (1, 2) else none) = some (a, b) ↔ _
    rw [matched]
    split_ifs with before
    · simp only [Option.some.injEq, Prod.mk.injEq]
      constructor
      · rintro ⟨rfl, rfl⟩
        refine ⟨before, ⟨rfl, rfl⟩, fun p _ below => ?_⟩
        rw [letterAt, if_neg (by omega)]
      · rintro ⟨-, ⟨rfl, rfl⟩, -⟩
        exact ⟨rfl, rfl⟩
    · refine ⟨fun impossible => absurd impossible (by simp), fun found => ?_⟩
      omega
  · intro start inside
    show (if start ≤ 1 then some [some (1, 2)] else none).map List.head? =
      (if start ≤ 1 then some (1, 2) else none).map fun m => some (some m)
    split_ifs <;> rfl
  · intro start groups m captured found group listed
    have spans : (if start ≤ 1 then some [some (1, 2)] else none) = some groups := captured
    have span : (if start ≤ 1 then some (1, 2) else none) = some m := found
    split_ifs at spans span
    obtain rfl := Option.some.inj spans
    obtain rfl := Option.some.inj span
    obtain rfl : group = (1, 2) := by simpa using listed
    exact ⟨by decide, by decide, by decide, (starts 1).mpr (by decide), (starts 2).mpr (by decide)⟩

/-- The text `ba` can be searched from its start on. -/
theorem letterA_searches : Searches limits letterA (.text ['b', 'a']) 0 :=
  ⟨rfl, rfl, by decide, 0, rfl, by decide, fun _ => by decide⟩

/-- The match of `letterA` in the text `ba`. -/
def letterHit : Captures := ⟨[some ⟨2, 2, 1, 1⟩], letterA, .text ['b', 'a']⟩

/-- A search of the text `ba` from its start finds the match. -/
theorem letterA_search :
    search limits letterA (.text ['b', 'a']) 0 0 0 false = .ok (some letterHit) := by
  have sorted : [1, 2].mergeSort (fun a b => decide (a ≤ b)) = [1, 2] :=
    List.mergeSort_of_pairwise (by decide)
  have asked : Engine.request letterA.program (Utf8.encode ['b', 'a']) 0 0 limits.maxInputBytes
      false = .ok (0, 0) := rfl
  have found : Engine.search letterA.program (Utf8.encode ['b', 'a']) 0 false 0 =
      some [⟨1, 2, 1, 2⟩] := by
    show (Engine.characters (Utf8.encode ['b', 'a']) 0 0
      (Engine.dedup ([1, 2].mergeSort fun a b => decide (a ≤ b)))).map _ = _
    rw [sorted]
    rfl
  simp only [search, Engine.findText, Engine.find, asked, found]
  rfl

/-- The text `ba` is split at its `a`. -/
theorem split_letterA (fuel : Nat) : split (fuel + 3) limits 5 letterA (.text ['b', 'a']) =
    some (.ok [.text ['b'], .text []]) := by
  have opened : cursor limits letterA (.text ['b', 'a']) 0 false = .ok _ := rfl
  rw [split, if_neg (by decide), opened]
  simp only []
  rw [if_neg (by decide), splitLoop, if_neg (by decide), next, if_neg (by decide)]
  simp only [letterA_search]
  rfl

/-- The `a` of the text `ba` is replaced. -/
theorem replace_letterA (fuel : Nat) : replace (fuel + 2) limits 1 letterA (.text ['b', 'a']) false
    (fun _ => (.ok (.text ['c']) : Except Empty Source)) = some (.ok (.text ['b', 'c'])) := by
  have opened : cursor limits letterA (.text ['b', 'a']) 0 false = .ok _ := rfl
  rw [replace, if_neg (by decide), opened]
  simp only []
  rw [replaceLoop, if_neg (by decide), next, if_neg (by decide)]
  simp only [letterA_search]
  rfl

/-- The text `ba` is searched for `a`, and split and changed at it. -/
theorem iteration_replacement_split_ba : ∃ first,
    cursor limits letterA (.text ['b', 'a']) 0 false = .ok first ∧
      Iterates letterAt limits letterA (.text ['b', 'a']) 0 first ∧
      Returns (fun fuel => split fuel limits 5 letterA (.text ['b', 'a']))
        (.ok [.text ['b'], .text []]) ∧
      Splits 5 letterAt first none 0 [] (.ok [.text ['b'], .text []]) ∧
      Returns (fun fuel => replace fuel limits 1 letterA (.text ['b', 'a']) false
        fun _ => (.ok (.text ['c']) : Except Empty Source)) (.ok (.text ['b', 'c'])) ∧
      Replaced (fun _ => (.ok (.text ['c']) : Except Empty Source)) 1 letterAt first none 0 0 []
        (.ok (.text ['b', 'c'])) := by
  obtain ⟨opens, iterates, replaces, splits⟩ :=
    @iteration_replacement_split limits _ _ _ letterA_leftmost
  obtain ⟨first, opened⟩ := (opens 0 false).mpr letterA_searches
  have splitting : Returns (fun fuel => split fuel limits 5 letterA (.text ['b', 'a']))
      (.ok [.text ['b'], .text []]) := by
    refine ⟨3, fun fuel enough => ?_⟩
    obtain ⟨more, rfl⟩ := Nat.exists_eq_add_of_le' enough
    exact split_letterA more
  have replacing : Returns (fun fuel => replace fuel limits 1 letterA (.text ['b', 'a']) false
      fun _ => (.ok (.text ['c']) : Except Empty Source)) (.ok (.text ['b', 'c'])) := by
    refine ⟨2, fun fuel enough => ?_⟩
    obtain ⟨more, rfl⟩ := Nat.exists_eq_add_of_le' enough
    exact replace_letterA more
  obtain ⟨pieces, split_returns, split_is, -⟩ := splits 5 first (by decide) opened
  obtain ⟨output, returns, replaced, -⟩ := replaces Empty 1 false first
    (fun _ => .ok (.text ['c'])) (by decide) opened
  obtain rfl := split_returns.unique splitting
  obtain rfl := returns.unique replacing
  exact ⟨first, opened, iterates 0 false first opened, splitting, split_is, replacing, replaced⟩

/-- A split into no piece gives none, also of the text `ba`, which nothing put between the pieces
gives back. -/
theorem split_into_none : (∀ fuel, split fuel limits 0 letterA (.text ['b', 'a']) = some (.ok [])) ∧
    ∀ delimiters, interleave [] delimiters ≠ (Source.text ['b', 'a']).bytes := by
  obtain ⟨first, opened⟩ := letterA_searches.opens false
  refine ⟨fun fuel => ?_, fun delimiters => ?_⟩
  · have opened' : cursor limits letterA (.text ['b', 'a']) 0 false = .ok first := opened
    rw [split, if_neg (by decide), opened']
    rfl
  · show [] ≠ (Source.text ['b', 'a']).bytes
    decide

end Fai.Regex
