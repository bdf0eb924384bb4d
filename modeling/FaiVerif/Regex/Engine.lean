import FaiVerif.Lib.Utf8Boundary
import Mathlib.Data.List.ReduceOption

/-!
# The native side of regular expressions

A compiled program searches bytes from a position on. The runtime (`fai-runtime/regex_engine.rs`)
checks the request, counts the scalars up to the ends of the spans found from a base on, and
answers with spans; it also slices texts and converts scalar positions. The automaton inside a
program belongs to a library, and is a parameter here.
-/

namespace Fai.Regex.Engine

/-- A native error: its code, its message and the span of the pattern, if any. -/
structure Error where
  code : Int
  message : String
  start : Int
  finish : Int

/-- An error without a span of the pattern. -/
def error (code : Int) (message : String) : Error := ⟨code, message, -1, -1⟩

/-- A compiled program: its mode, and what its automaton finds from a position on. -/
structure Program where
  binary : Bool
  /-- The span of the match. -/
  searchWith : List UInt8 → Nat → Option (Nat × Nat)
  /-- The spans of the groups of the match, the whole match first. -/
  searchCapturesWith : List UInt8 → Nat → Option (List (Option (Nat × Nat)))

/-- A span on the wire: its bytes, and its scalars from the base of the request on. -/
structure Span where
  start : Int
  finish : Int
  startChar : Int
  endChar : Int

/-- The checked start and base of a request. -/
def request (program : Program) (hay : List UInt8) (start base limit : Int) (binary : Bool) :
    Except Error (Nat × Nat) :=
  if program.binary ≠ binary then .error (error 8 "text/binary regex mode mismatch")
  else if limit < 0 ∨ limit < hay.length then .error (error 10 "input byte limit exceeded")
  else if start < 0 ∨ base < 0 ∨ base > start ∨ start > hay.length then
    .error (error 7 "invalid search offset")
  else if !binary && !(Utf8.boundary hay start.toNat && Utf8.boundary hay base.toNat) then
    .error (error 7 "search offset splits a Unicode scalar")
  else .ok (start.toNat, base.toNat)

/-- Elements without the repetitions that follow one another. -/
def dedup : List Nat → List Nat
  | [] => []
  | [point] => [point]
  | point :: next :: points =>
    if point = next then dedup (next :: points) else point :: dedup (next :: points)

/-- The scalars before each point, counted on from an offset; nothing for a point out of range,
where the runtime panics. -/
def characters (hay : List UInt8) : Nat → Nat → List Nat → Option (List (Nat × Nat))
  | _, _, [] => some []
  | offset, count, point :: points =>
    if offset ≤ point ∧ point ≤ hay.length then
      let count := count + Utf8.scalars (Spans.slice offset point hay)
      (characters hay point count points).map ((point, count) :: ·)
    else none

/-- The count of a point, or the point where there is none. -/
def place (characters : List (Nat × Nat)) (point : Nat) : Nat :=
  ((characters.find? fun entry => entry.1 == point).map Prod.snd).getD point

/-- A span of the automaton on the wire. -/
def encodeSpan (characters : List (Nat × Nat)) : Option (Nat × Nat) → Span
  | none => ⟨-1, -1, -1, -1⟩
  | some (a, b) => ⟨a, b, place characters a, place characters b⟩

/-- The spans of the match from a position on, without spans when there is no match. -/
def search (program : Program) (hay : List UInt8) (start : Nat) (captures : Bool) (base : Nat) :
    Option (List Span) :=
  let found := if captures then program.searchCapturesWith hay start
    else (program.searchWith hay start).map fun m => [some m]
  match found with
  | none => some []
  | some spans =>
    let points := dedup ((spans.reduceOption.flatMap fun span => [span.1, span.2]).mergeSort
      fun a b => decide (a ≤ b))
    let counted := if program.binary then some [] else characters hay base 0 points
    counted.map fun counted => spans.map (encodeSpan counted)

/-- Answers a search; a panic is an internal failure. -/
def find (program : Program) (hay : List UInt8) (start : Int) (captures : Bool) (base limit : Int)
    (binary : Bool) : Except Error (List Span) :=
  match request program hay start base limit binary with
  | .error failed => .error failed
  | .ok (start, base) =>
    match search program hay start captures base with
    | none => .error (error 9 "regex engine internal failure")
    | some spans => .ok spans

/-- Searches a text. -/
def findText (program : Program) (text : List Char) (start : Int) (captures : Bool)
    (base limit : Int) : Except Error (List Span) :=
  find program (Utf8.encode text) start captures base limit false

/-- Searches bytes. -/
def findBytes (program : Program) (bytes : List UInt8) (start : Int) (captures : Bool)
    (base limit : Int) : Except Error (List Span) :=
  find program bytes start captures base limit true

/-- The offsets of the characters of a text from an offset on, and its end. -/
def charOffsets : Nat → List Char → List Nat
  | offset, [] => [offset]
  | offset, char :: text => offset :: charOffsets (offset + char.utf8Size) text

/-- The offset of a scalar, and the size of the text. -/
def byteIndex (text : List Char) (index : Int) : Except Error (Nat × Nat) :=
  if index < 0 then .error (error 7 "negative scalar index")
  else match (charOffsets 0 text)[index.toNat]? with
    | none => .error (error 7 "scalar index exceeds input")
    | some offset => .ok (offset, (Utf8.encode text).length)

/-- The text between two offsets, where both are boundaries in order. -/
def slice (text : List Char) (start finish : Int) : Except Error (List Char) :=
  let bytes := Utf8.encode text
  if start < 0 ∨ finish < start then .error (error 7 "invalid text span")
  else if Utf8.boundary bytes start.toNat && Utf8.boundary bytes finish.toNat then
    match Utf8.decode (Spans.slice start.toNat finish.toNat bytes) with
    | none => .error (error 7 "invalid text span")
    | some piece => .ok piece
  else .error (error 7 "invalid text span")

/-- The size of a text is known from its first scalar on. -/
theorem byteIndex_zero (text : List Char) :
    byteIndex text 0 = .ok (0, (Utf8.encode text).length) := by
  cases text <;> rfl

/-- The text between two cuts. -/
theorem slice_cuts {text front back front' back' : List Char} {i j : Nat}
    (first : Utf8.Cut text i front back) (second : Utf8.Cut text j front' back') (order : i ≤ j) :
    ∃ piece, slice text i j = .ok piece ∧
      Utf8.encode piece = Spans.slice i j (Utf8.encode text) := by
  obtain ⟨middle, -, -, between⟩ := first.between second order
  have start := Utf8.boundary_encode.mpr ⟨_, _, first⟩
  have finish := Utf8.boundary_encode.mpr ⟨_, _, second⟩
  have forward : ¬ ((i : Int) < 0 ∨ (j : Int) < i) := by omega
  refine ⟨middle, ?_, between.symm⟩
  rw [slice, if_neg forward, Int.toNat_natCast, Int.toNat_natCast, start, finish, between,
    Utf8.decode_encode]
  rfl

/-- An empty slice succeeds at boundaries only. -/
theorem slice_boundary (text : List Char) (i : Nat) :
    if Utf8.boundary (Utf8.encode text) i then slice text i i = .ok []
    else ∃ failed, slice text i i = .error failed := by
  have forward : ¬ ((i : Int) < 0 ∨ (i : Int) < i) := by omega
  have empty : Spans.slice i i (Utf8.encode text) = [] := by simp [Spans.slice]
  have nothing : Utf8.decode [] = some [] := Utf8.decode_encode []
  rw [slice, if_neg forward, Int.toNat_natCast, Bool.and_self, empty, nothing]
  split_ifs
  · rfl
  · exact ⟨_, rfl⟩

/-- Only repetitions are lost. -/
theorem mem_dedup {points : List Nat} {point : Nat} : point ∈ dedup points ↔ point ∈ points := by
  fun_induction dedup points with
  | case1 => rfl
  | case2 => rfl
  | case3 first points hypothesis => simp [hypothesis]
  | case4 first next points other hypothesis => simp [hypothesis]

/-- What is left is in order. -/
theorem pairwise_dedup {points : List Nat} (sorted : points.Pairwise (· ≤ ·)) :
    (dedup points).Pairwise (· ≤ ·) := by
  fun_induction dedup points with
  | case1 => exact .nil
  | case2 => exact sorted
  | case3 first points hypothesis => exact hypothesis sorted.tail
  | case4 first next points other hypothesis =>
    rw [List.pairwise_cons] at sorted ⊢
    exact ⟨fun point member => sorted.1 point (mem_dedup.mp member), hypothesis sorted.2⟩

/-- The scalars before a later position go on from those before an earlier one. -/
theorem scalars_slice {start middle finish : Nat} (first : start ≤ middle)
    (second : middle ≤ finish) (hay : List UInt8) : Utf8.scalars (Spans.slice start finish hay) =
      Utf8.scalars (Spans.slice start middle hay) +
        Utf8.scalars (Spans.slice middle finish hay) := by
  rw [← Spans.slice_append first second, Utf8.scalars, Utf8.scalars, Utf8.scalars,
    List.countP_append]

/-- Points in order, from the base on, are counted from the base. -/
theorem characters_spec (hay : List UInt8) {base offset : Nat} (from_base : base ≤ offset)
    {points : List Nat} (sorted : points.Pairwise (· ≤ ·))
    (bounded : ∀ point ∈ points, offset ≤ point ∧ point ≤ hay.length) :
    ∃ counted, characters hay offset (Utf8.scalars (Spans.slice base offset hay)) points =
      some counted ∧ counted.map Prod.fst = points ∧
        ∀ entry ∈ counted, entry.2 = Utf8.scalars (Spans.slice base entry.1 hay) := by
  induction points generalizing offset with
  | nil => exact ⟨[], rfl, rfl, fun entry member => absurd member List.not_mem_nil⟩
  | cons point points hypothesis =>
    rw [List.pairwise_cons] at sorted
    have inside := bounded point List.mem_cons_self
    obtain ⟨counted, read, keys, counts⟩ := hypothesis (Nat.le_trans from_base inside.1) sorted.2
      fun later member =>
        ⟨sorted.1 later member, (bounded later (List.mem_cons_of_mem _ member)).2⟩
    have total := scalars_slice from_base inside.1 hay
    refine ⟨(point, Utf8.scalars (Spans.slice base point hay)) :: counted, ?_, ?_, ?_⟩
    · rw [characters, if_pos inside]
      simp only
      rw [← total, read, Option.map_some]
    · rw [List.map_cons, keys]
    · intro entry member
      rcases List.mem_cons.mp member with rfl | member
      · rfl
      · exact counts entry member

/-- A counted point has its count. -/
theorem place_counted {counted : List (Nat × Nat)} (count : Nat → Nat)
    (counts : ∀ entry ∈ counted, entry.2 = count entry.1) {point : Nat}
    (member : point ∈ counted.map Prod.fst) : place counted point = count point := by
  obtain ⟨entry, listed, rfl⟩ := List.mem_map.mp member
  cases found : counted.find? fun other => other.1 == entry.1 with
  | none =>
    have absent := List.find?_eq_none.mp found entry listed
    exact absurd (beq_self_eq_true entry.1) absent
  | some other =>
    have same : other.1 = entry.1 := by simpa using List.find?_some found
    rw [place, found, Option.map_some, Option.getD_some,
      counts other (List.mem_of_find?_eq_some found), same]

/-- Where a search of bytes may start: anywhere, in text at boundaries only. -/
def Program.Starts (program : Program) (hay : List UInt8) (i : Nat) : Prop :=
  i ≤ hay.length ∧ (program.binary = false → Utf8.boundary hay i = true)

/-- The scalars from a base up to a position; in binary, its bytes from the start on. -/
def Program.charAt (program : Program) (hay : List UInt8) (base i : Nat) : Nat :=
  if program.binary then i else Utf8.scalars (Spans.slice base i hay)

/-- What the automaton finds: from a position on the leftmost match, whose end is that of the match
preferred where it starts, and its groups inside it, the whole match first. -/
structure Leftmost (program : Program) (hay : List UInt8) (matchAt : Nat → Option Nat) : Prop where
  forward : Spans.Forward matchAt hay.length
  starts : ∀ a b, matchAt a = some b → program.Starts hay a ∧ program.Starts hay b
  leftmost : ∀ start, program.Starts hay start → ∀ a b, program.searchWith hay start = some (a, b) ↔
    start ≤ a ∧ matchAt a = some b ∧ ∀ p, start ≤ p → p < a → matchAt p = none
  whole : ∀ start, program.Starts hay start →
    (program.searchCapturesWith hay start).map List.head? =
      (program.searchWith hay start).map fun m => some (some m)
  inside : ∀ start groups m, program.searchCapturesWith hay start = some groups →
    program.searchWith hay start = some m → ∀ group, some group ∈ groups →
      m.1 ≤ group.1 ∧ group.1 ≤ group.2 ∧ group.2 ≤ m.2 ∧
        program.Starts hay group.1 ∧ program.Starts hay group.2

/-- A span of the automaton on the wire, counted from a base on. -/
def Program.wire (program : Program) (hay : List UInt8) (base : Nat) : Option (Nat × Nat) → Span
  | none => ⟨-1, -1, -1, -1⟩
  | some (a, b) => ⟨a, b, program.charAt hay base a, program.charAt hay base b⟩

section Find

variable {program : Program} {hay : List UInt8} {matchAt : Nat → Option Nat}

/-- Spans inside the bytes from the base on are counted from the base. -/
theorem search_counted {start : Nat} (base : Nat) {captures : Bool}
    {groups : List (Option (Nat × Nat))}
    (found : (if captures then program.searchCapturesWith hay start
      else (program.searchWith hay start).map fun m => [some m]) = some groups)
    (bounded : ∀ group, some group ∈ groups →
      base ≤ group.1 ∧ group.1 ≤ group.2 ∧ group.2 ≤ hay.length) :
    search program hay start captures base = some (groups.map (program.wire hay base)) := by
  obtain ⟨points, atPoints⟩ : ∃ points, points = dedup ((groups.reduceOption.flatMap fun span =>
    [span.1, span.2]).mergeSort fun a b => decide (a ≤ b)) := ⟨_, rfl⟩
  have member (point : Nat) : point ∈ points ↔
      ∃ group, some group ∈ groups ∧ (point = group.1 ∨ point = group.2) := by
    rw [atPoints, mem_dedup, List.mem_mergeSort, List.mem_flatMap]
    simp only [List.reduceOption_mem_iff, List.mem_cons, List.not_mem_nil, or_false]
  have sorted : points.Pairwise (· ≤ ·) := by
    rw [atPoints]
    apply pairwise_dedup
    refine (List.pairwise_mergeSort ?_ ?_ _).imp of_decide_eq_true
    · intro a b c
      simp only [decide_eq_true_eq]
      omega
    · intro a b
      simp only [Bool.or_eq_true, decide_eq_true_eq]
      omega
  have wires {counted : List (Nat × Nat)} (places : ∀ point ∈ points,
      place counted point = program.charAt hay base point) :
      groups.map (encodeSpan counted) = groups.map (program.wire hay base) := by
    apply List.map_congr_left
    intro group listed
    cases group with
    | none => rfl
    | some span =>
      rw [encodeSpan, Program.wire, places _ ((member _).mpr ⟨span, listed, Or.inl rfl⟩),
        places _ ((member _).mpr ⟨span, listed, Or.inr rfl⟩)]
  rw [search, found]
  simp only
  rw [← atPoints]
  by_cases binary : program.binary = true
  · rw [if_pos binary, Option.map_some]
    exact congrArg some (wires fun point _ => by rw [Program.charAt, if_pos binary]; rfl)
  · have nothing : Utf8.scalars (Spans.slice base base hay) = 0 := by
      simp [Spans.slice, Utf8.scalars]
    obtain ⟨counted, read, keys, counts⟩ := characters_spec hay (Nat.le_refl base) sorted
      fun point listed => by
        obtain ⟨group, inside, place⟩ := (member point).mp listed
        have range := bounded group inside
        omega
    rw [nothing] at read
    rw [if_neg binary, read, Option.map_some]
    refine congrArg some (wires fun point listed => ?_)
    rw [place_counted (fun i => Utf8.scalars (Spans.slice base i hay)) counts (by rwa [keys]),
      Program.charAt, if_neg binary]

/-- A request between boundaries, within the limit, is checked. -/
theorem request_ok {start base : Nat} {limit : Int} (starts : program.Starts hay start)
    (anchored : program.Starts hay base) (order : base ≤ start) (small : hay.length ≤ limit) :
    request program hay start base limit program.binary = .ok (start, base) := by
  have within : ¬ (limit < 0 ∨ limit < hay.length) := by omega
  have range : ¬ ((start : Int) < 0 ∨ (base : Int) < 0 ∨ (base : Int) > start ∨
      (start : Int) > hay.length) := by
    have inside := starts.1
    omega
  have boundaries : ¬ ((!program.binary && !(Utf8.boundary hay (start : Int).toNat &&
      Utf8.boundary hay (base : Int).toNat)) = true) := by
    rw [Int.toNat_natCast, Int.toNat_natCast]
    cases mode : program.binary with
    | true => simp
    | false => simp [starts.2 mode, anchored.2 mode]
  rw [request, if_neg (by simp), if_neg within, if_neg range, if_neg boundaries,
    Int.toNat_natCast, Int.toNat_natCast]

/-- What the engine answers for a match: the spans of its groups, the whole match first. -/
structure Answers (program : Program) (hay : List UInt8) (m : Nat × Nat)
    (groups : List (Option (Nat × Nat))) : Prop where
  head : groups.head? = some (some m)
  inside : ∀ group, some group ∈ groups → m.1 ≤ group.1 ∧ group.1 ≤ group.2 ∧ group.2 ≤ m.2 ∧
    program.Starts hay group.1 ∧ program.Starts hay group.2

/-- A search between boundaries answers with the leftmost match, counted from the base. -/
theorem find_spec (sound : Leftmost program hay matchAt) {start base : Nat} {limit : Int}
    (starts : program.Starts hay start) (anchored : program.Starts hay base) (order : base ≤ start)
    (small : hay.length ≤ limit) (captures : Bool) :
    (program.searchWith hay start = none ∧
      find program hay start captures base limit program.binary = .ok []) ∨
    ∃ m groups, program.searchWith hay start = some m ∧ Answers program hay m groups ∧
      find program hay start captures base limit program.binary =
        .ok (groups.map (program.wire hay base)) := by
  have whole := sound.whole start starts
  cases one : program.searchWith hay start with
  | none =>
    refine Or.inl ⟨rfl, ?_⟩
    have nothing : search program hay start captures base = some [] := by
      rw [one, Option.map_none, Option.map_eq_none_iff] at whole
      cases captures <;> simp [search, whole, one]
    rw [find, request_ok starts anchored order small]
    simp only
    rw [nothing]
  | some m =>
    obtain ⟨after, matched, -⟩ := (sound.leftmost start starts m.1 m.2).mp one
    obtain ⟨ahead, bounded⟩ := sound.forward _ _ matched
    obtain ⟨startsFirst, startsLast⟩ := sound.starts _ _ matched
    obtain ⟨groups, found, answers⟩ : ∃ groups, (if captures then
        program.searchCapturesWith hay start
        else (program.searchWith hay start).map fun m => [some m]) = some groups ∧
          Answers program hay m groups := by
      cases captures with
      | false =>
        refine ⟨[some m], by simp [one], rfl, ?_⟩
        intro group listed
        obtain rfl : group = m := by simpa using listed
        exact ⟨Nat.le_refl _, ahead, Nat.le_refl _, startsFirst, startsLast⟩
      | true =>
        rw [one, Option.map_some, Option.map_eq_some_iff] at whole
        obtain ⟨groups, found, head⟩ := whole
        exact ⟨groups, found, head, sound.inside start groups m found one⟩
    refine Or.inr ⟨m, groups, rfl, answers, ?_⟩
    have counted := search_counted base found fun group listed => by
      have range := answers.inside group listed
      omega
    rw [find, request_ok starts anchored order small]
    simp only
    rw [counted]

/-- Without a match from a position on, none starts there or later. -/
theorem Leftmost.none (sound : Leftmost program hay matchAt) {start : Nat}
    (starts : program.Starts hay start) (absent : program.searchWith hay start = .none) {p : Nat}
    (after : start ≤ p) : matchAt p = .none := by
  induction p using Nat.strongRecOn with
  | ind p hypothesis =>
    cases matched : matchAt p with
    | none => rfl
    | some e =>
      have found := (sound.leftmost start starts p e).mpr ⟨after, matched, fun q from_start below =>
        hypothesis q below from_start⟩
      rw [absent] at found
      cases found

end Find

end Fai.Regex.Engine
