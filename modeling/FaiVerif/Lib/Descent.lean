import Mathlib.Data.List.Forall2
import Mathlib.Data.List.Count
import Mathlib.Logic.Function.Iterate

/-!
# Descending iteration

A loop repeats a round until it changes nothing. When every round that changes something lowers a
rank, as many rounds as the rank are enough; and when rounds are monotone, the loop ends above every
value that a round does not lower. Lists of flags, lowered one flag at a time, are the order most
loops descend in.
-/

namespace Descent

section Loop

variable {α : Type} [DecidableEq α] (round : α → α)

/-- Repeat a round until it changes nothing, at most `fuel` times. -/
def loop : Nat → α → α
  | 0, value => value
  | fuel + 1, value => if round value = value then value else loop fuel (round value)

variable {round}

/-- With as many rounds as the rank, the loop ends where a round changes nothing. -/
theorem loop_fixed {kept : α → Prop} (keeps : ∀ value, kept value → kept (round value))
    (rank : α → Nat)
    (lowers : ∀ value, kept value → round value = value ∨ rank (round value) < rank value) :
    ∀ (fuel : Nat) (value : α), kept value → rank value ≤ fuel →
      round (loop round fuel value) = loop round fuel value
  | 0, value, holds, bounded => by
    rcases lowers value holds with fixed | lower
    · exact fixed
    · omega
  | fuel + 1, value, holds, bounded => by
    unfold loop
    by_cases fixed : round value = value
    · rw [if_pos fixed]
      exact fixed
    · rw [if_neg fixed]
      apply loop_fixed keeps rank lowers fuel _ (keeps value holds)
      have lower := (lowers value holds).resolve_left fixed
      omega

/-- What every round keeps, the loop keeps. -/
theorem loop_keeps {kept : α → Prop} (keeps : ∀ value, kept value → kept (round value)) :
    ∀ (fuel : Nat) (value : α), kept value → kept (loop round fuel value)
  | 0, _, holds => holds
  | fuel + 1, value, holds => by
    unfold loop
    split
    · exact holds
    · exact loop_keeps keeps fuel _ (keeps value holds)

end Loop

/-- A sequence that changes only by lowering a rank stops changing. -/
theorem sequence_settles {α : Type} (rank : α → Nat) (values : Nat → α)
    (lowers : ∀ index, values (index + 1) = values index ∨
      rank (values (index + 1)) < rank (values index)) :
    ∃ index ≤ rank (values 0), values (index + 1) = values index := by
  by_contra unsettled
  have falling : ∀ index ≤ rank (values 0) + 1, rank (values index) + index ≤ rank (values 0) := by
    intro index bounded
    induction index with
    | zero => omega
    | succ index inductionHypothesis =>
      have before := inductionHypothesis (by omega)
      rcases lowers index with same | lower
      · exact absurd ⟨index, by omega, same⟩ unsettled
      · omega
  have last := falling (rank (values 0) + 1) (Nat.le_refl _)
  omega

/-- The flags of one list are among those of another of the same length. -/
def Fewer (few many : List Bool) : Prop :=
  List.Forall₂ (fun left right => left = true → right = true) few many

namespace Fewer

variable {few many most : List Bool}

/-- A list has its own flags. -/
theorem refl (flags : List Bool) : Fewer flags flags :=
  List.forall₂_same.mpr fun _ _ => id

/-- Flags along a chain. -/
theorem trans (first : Fewer few many) (second : Fewer many most) : Fewer few most := by
  induction first generalizing most with
  | nil => exact second
  | cons head _ inductionHypothesis =>
    cases second with
    | cons head' rest => exact .cons (fun flag => head' (head flag)) (inductionHypothesis rest)

/-- The lists have the same length. -/
theorem length_eq (fewer : Fewer few many) : few.length = many.length :=
  List.Forall₂.length_eq fewer

/-- A flag that is set in fewer flags is set. -/
theorem getD (fewer : Fewer few many) {index : Nat} (flag : few.getD index false = true) :
    many.getD index false = true := by
  induction fewer generalizing index with
  | nil => exact flag
  | cons head _ inductionHypothesis =>
    cases index with
    | zero => exact head flag
    | succ index => exact inductionHypothesis flag

/-- Nothing is above a list of set flags. -/
theorem replicate (flags : List Bool) : Fewer flags (List.replicate flags.length true) := by
  induction flags with
  | nil => exact .nil
  | cons flag rest inductionHypothesis => exact .cons (fun _ => rfl) inductionHypothesis

/-- Fewer flags are counted as fewer. -/
theorem count_le (fewer : Fewer few many) : few.count true ≤ many.count true := by
  induction fewer with
  | nil => exact Nat.le_refl _
  | @cons left right _ _ head _ inductionHypothesis =>
    have single : (if left == true then 1 else 0) ≤ (if right == true then 1 else 0) := by
      revert head
      cases left <;> cases right <;> decide
    rw [List.count_cons, List.count_cons]
    omega

/-- Fewer flags are the same or strictly fewer. -/
theorem eq_or_count_lt (fewer : Fewer few many) :
    few = many ∨ few.count true < many.count true := by
  induction fewer with
  | nil => exact .inl rfl
  | @cons left right few many head rest inductionHypothesis =>
    have below := count_le rest
    have single : left = right ∨
        (if left == true then 1 else 0) < (if right == true then 1 else 0) := by
      revert head
      cases left <;> cases right <;> decide
    rw [List.count_cons, List.count_cons]
    rcases single with rfl | less
    · rcases inductionHypothesis with rfl | less
      · exact .inl rfl
      · exact .inr (by omega)
    · exact .inr (by omega)

end Fewer

/-- A monotone loop of flags ends above every list that a round does not lower. -/
theorem fewer_loop {round : List Bool → List Bool}
    (monotone : ∀ few many, Fewer few many → Fewer (round few) (round many)) {low : List Bool}
    (kept : Fewer low (round low)) :
    ∀ (fuel : Nat) (value : List Bool), Fewer low value → Fewer low (loop round fuel value) :=
  loop_keeps fun value below => kept.trans (monotone low value below)

end Descent
