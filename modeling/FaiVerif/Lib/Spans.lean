import Mathlib.Data.List.Basic
import Mathlib.Tactic.Common

/-!
# Spans of a list

A list is cut by spans that follow one another: what lies between them and what lies under them,
taken in turn, give the list back. Matches are found one after another, each the first after the
end of the one before, where the empty match at that end does not count.
-/

namespace Spans

variable {α : Type}

/-- The elements of a list from one position up to another. -/
def slice (start finish : Nat) (xs : List α) : List α := (xs.drop start).take (finish - start)

/-- A slice goes on with the slice after it. -/
theorem slice_append {start middle finish : Nat} (first : start ≤ middle) (second : middle ≤ finish)
    (xs : List α) : slice start middle xs ++ slice middle finish xs = slice start finish xs := by
  obtain ⟨m, rfl⟩ := Nat.exists_eq_add_of_le first
  obtain ⟨n, rfl⟩ := Nat.exists_eq_add_of_le second
  rw [slice, slice, slice, Nat.add_sub_cancel_left, Nat.add_sub_cancel_left, Nat.add_assoc,
    Nat.add_sub_cancel_left, ← List.drop_drop, List.take_add]

/-- A slice up to the end goes on to the end. -/
theorem slice_drop {start finish : Nat} (forward : start ≤ finish) (xs : List α) :
    slice start finish xs ++ xs.drop finish = xs.drop start := by
  obtain ⟨n, rfl⟩ := Nat.exists_eq_add_of_le forward
  rw [slice, Nat.add_sub_cancel_left, ← List.drop_drop, List.take_append_drop]

/-- The slice up to the length is the rest. -/
theorem slice_length (start : Nat) (xs : List α) : slice start xs.length xs = xs.drop start := by
  rw [slice, List.take_of_length_le (Nat.le_of_eq List.length_drop)]

/-- A slice inside the list is as long as its range. -/
theorem length_slice {start finish : Nat} {xs : List α} (forward : start ≤ finish)
    (inside : finish ≤ xs.length) : (slice start finish xs).length + start = finish := by
  rw [slice, List.length_take, List.length_drop]
  omega

/-- The whole list is a slice. -/
theorem slice_all (xs : List α) : slice 0 xs.length xs = xs := by
  rw [slice_length, List.drop_zero]

/-- Spans that follow one another from a position on, inside a size. -/
def Ordered (size : Nat) : Nat → List (Nat × Nat) → Prop
  | start, [] => start ≤ size
  | start, span :: spans => start ≤ span.1 ∧ span.1 ≤ span.2 ∧ Ordered size span.2 spans

/-- The pieces of a list before, between and after spans. -/
def gaps (xs : List α) : Nat → List (Nat × Nat) → List (List α)
  | start, [] => [xs.drop start]
  | start, span :: spans => slice start span.1 xs :: gaps xs span.2 spans

/-- The pieces of a list before spans, without what lies behind the last of them. -/
def fronts (xs : List α) : Nat → List (Nat × Nat) → List (List α)
  | _, [] => []
  | start, span :: spans => slice start span.1 xs :: fronts xs span.2 spans

/-- The position behind spans. -/
def behind (start : Nat) (spans : List (Nat × Nat)) : Nat :=
  (spans.getLast?.map Prod.snd).getD start

/-- The position behind spans is that behind those after the first. -/
@[simp] theorem behind_cons (start : Nat) (span : Nat × Nat) (spans : List (Nat × Nat)) :
    behind start (span :: spans) = behind span.2 spans := by
  cases spans with
  | nil => rfl
  | cons next spans =>
    rw [behind, behind, List.getLast?_cons_cons, List.getLast?_cons]
    rfl

/-- Behind the last span lies the last piece. -/
theorem gaps_eq (xs : List α) (start : Nat) (spans : List (Nat × Nat)) :
    gaps xs start spans = fronts xs start spans ++ [xs.drop (behind start spans)] := by
  induction spans generalizing start with
  | nil => rfl
  | cons span spans hypothesis => rw [gaps, fronts, behind_cons, hypothesis, List.cons_append]

/-- There are as many pieces before spans as spans. -/
theorem length_fronts (xs : List α) (start : Nat) (spans : List (Nat × Nat)) :
    (fronts xs start spans).length = spans.length := by
  induction spans generalizing start with
  | nil => rfl
  | cons span spans hypothesis => rw [fronts, List.length_cons, hypothesis, List.length_cons]

/-- Pieces and what stands between them, taken in turn. -/
def interleave : List (List α) → List (List α) → List α
  | [], _ => []
  | piece :: pieces, [] => piece ++ pieces.flatten
  | piece :: pieces, between :: rest => piece ++ (between ++ interleave pieces rest)

/-- A last piece stands at the end. -/
theorem interleave_concat {pieces between : List (List α)} (same : pieces.length = between.length)
    (piece : List α) :
    interleave (pieces ++ [piece]) between = interleave pieces between ++ piece := by
  induction pieces generalizing between with
  | nil =>
    obtain rfl := List.length_eq_zero_iff.mp same.symm
    simp [interleave]
  | cons first pieces hypothesis =>
    cases between with
    | nil => cases same
    | cons other between =>
      rw [List.cons_append, interleave, interleave, hypothesis (Nat.succ_inj.mp same)]
      simp only [List.append_assoc]

/-- There is one piece more than spans. -/
theorem length_gaps (xs : List α) (start : Nat) (spans : List (Nat × Nat)) :
    (gaps xs start spans).length = spans.length + 1 := by
  induction spans generalizing start with
  | nil => rfl
  | cons span spans hypothesis => rw [gaps, List.length_cons, hypothesis, List.length_cons]

/-- The pieces between spans and the spans give the list back. -/
theorem interleave_gaps {xs : List α} {start : Nat} {spans : List (Nat × Nat)}
    (ordered : Ordered xs.length start spans) :
    interleave (gaps xs start spans) (spans.map fun span => slice span.1 span.2 xs) =
      xs.drop start := by
  induction spans generalizing start with
  | nil => simp [gaps, interleave]
  | cons span spans hypothesis =>
    obtain ⟨first, forward, rest⟩ := ordered
    rw [gaps, List.map_cons, interleave, hypothesis rest, slice_drop forward, slice_drop first]

section Matches

variable {matchAt : Nat → Option Nat} {last : Option Nat} {start a b : Nat}

/-- A match is the first at or after a position, but for the empty match at the end of the last. -/
structure First (matchAt : Nat → Option Nat) (last : Option Nat) (start a b : Nat) : Prop where
  after : start ≤ a
  matched : matchAt a = some b
  fresh : ¬ (a = b ∧ last = some a)
  least : ∀ p, start ≤ p → p < a → ∀ e, matchAt p = some e → p = e ∧ last = some p

/-- Matches found one after another. -/
inductive Chain (matchAt : Nat → Option Nat) : Option Nat → Nat → List (Nat × Nat) → Prop where
  | nil (last : Option Nat) (start : Nat) : Chain matchAt last start []
  | cons {last : Option Nat} {start a b : Nat} {spans : List (Nat × Nat)}
      (first : First matchAt last start a b) (rest : Chain matchAt (some b) b spans) :
      Chain matchAt last start ((a, b) :: spans)

/-- Matches go forward and inside a size. -/
def Forward (matchAt : Nat → Option Nat) (size : Nat) : Prop :=
  ∀ a b, matchAt a = some b → a ≤ b ∧ b ≤ size

/-- Matches found one after another do not overlap. -/
theorem Chain.ordered {size : Nat} (forward : Forward matchAt size) (inside : start ≤ size)
    {spans : List (Nat × Nat)} (chain : Chain matchAt last start spans) :
    Ordered size start spans := by
  induction chain with
  | nil last start => exact inside
  | cons found rest hypothesis =>
    obtain ⟨ahead, bounded⟩ := forward _ _ found.matched
    exact ⟨found.after, ahead, hypothesis bounded⟩

/-- Matches found one after another advance: both ends of a later one lie beyond those of an
earlier one, it starts where that one ends at the earliest, and it is not empty there. -/
def Advances (span later : Nat × Nat) : Prop :=
  span.1 < later.1 ∧ span.2 < later.2 ∧ span.2 ≤ later.1 ∧ ¬ (later.1 = later.2 ∧ later.1 = span.2)

/-- A later match lies beyond the position and the last match. -/
theorem Chain.beyond {size : Nat} (forward : Forward matchAt size) {spans : List (Nat × Nat)}
    (chain : Chain matchAt last start spans) (recent : last = some start) :
    ∀ later ∈ spans, start ≤ later.1 ∧ start < later.2 := by
  induction chain with
  | nil last start => exact fun later member => absurd member List.not_mem_nil
  | @cons last start a b spans found rest hypothesis =>
    obtain ⟨ahead, bounded⟩ := forward _ _ found.matched
    have after := found.after
    have fresh := found.fresh
    intro later member
    rcases List.mem_cons.mp member with rfl | member
    · refine ⟨after, ?_⟩
      by_contra stuck
      have here : a = start := by simp only at stuck; omega
      have empty : a = b := by simp only at stuck; omega
      exact fresh ⟨empty, by rw [recent, here]⟩
    · have further := hypothesis rfl later member
      omega

/-- The members of a chain are matches. -/
theorem Chain.matched {spans : List (Nat × Nat)} (chain : Chain matchAt last start spans) :
    ∀ span ∈ spans, matchAt span.1 = some span.2 := by
  induction chain with
  | nil last start => exact fun span member => absurd member List.not_mem_nil
  | cons found rest hypothesis =>
    intro span member
    rcases List.mem_cons.mp member with rfl | member
    · exact found.matched
    · exact hypothesis span member

/-- Matches found one after another advance. -/
theorem Chain.advances {size : Nat} (forward : Forward matchAt size) {spans : List (Nat × Nat)}
    (chain : Chain matchAt last start spans) : spans.Pairwise Advances := by
  induction chain with
  | nil last start => exact .nil
  | @cons last start a b spans found rest hypothesis =>
    obtain ⟨ahead, bounded⟩ := forward _ _ found.matched
    refine .cons (fun later member => ?_) hypothesis
    obtain ⟨from_end, further⟩ := rest.beyond forward rfl later member
    have other := rest.matched later member
    obtain ⟨c, d⟩ := later
    simp only at from_end further other
    refine ⟨?_, further, from_end, ?_⟩
    · -- a match where an empty match was found is that match
      show a < c
      by_contra stuck
      have here : c = a := by omega
      have same := found.matched
      rw [← here, other, Option.some.injEq] at same
      omega
    · rintro ⟨empty, here⟩
      simp only at empty here further
      omega

end Matches

end Spans
