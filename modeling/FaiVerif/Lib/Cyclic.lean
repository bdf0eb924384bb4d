import Mathlib.Data.Nat.Basic
import Mathlib.Tactic.Common

/-!
# Runs around a circle

Positions below `n`, taken around a circle. Every notion is a comparison of plain numbers, so that
facts about runs that wrap are linear arithmetic.
-/

namespace Cyclic

/-- The next position. -/
def succ (n i : Nat) : Nat := if i + 1 = n then 0 else i + 1

/-- The position lies in the run from one position up to, but not including, another. -/
def Between (start x stop : Nat) : Prop :=
  if start ≤ stop then start ≤ x ∧ x < stop else start ≤ x ∨ x < stop

/-- The number of steps from one position to another. -/
def distance (n start stop : Nat) : Nat :=
  if start ≤ stop then stop - start else stop + n - start

variable {n start stop x : Nat}

/-- The next position is one of the circle. -/
theorem succ_lt (inside : start < n) : succ n start < n := by
  unfold succ
  split
  · omega
  · omega

/-- Nothing lies in a run of no steps. -/
theorem not_between_self : ¬ Between start x start := by
  unfold Between
  rw [if_pos (Nat.le_refl _)]
  omega

/-- A run starts at its first position. -/
theorem between_start (differ : start ≠ stop) : Between start start stop := by
  unfold Between
  split
  · omega
  · omega

/-- What lies in a run lies in the rest of it or is its first position. -/
theorem between_iff_succ (differ : start ≠ stop) (stopIn : stop < n) (inside : x < n) :
    Between start x stop ↔ x = start ∨ Between (succ n start) x stop := by
  unfold Between succ
  by_cases last : start + 1 = n
  · simp only [if_pos last]
    split
    · split
      · omega
      · omega
    · split
      · omega
      · omega
  · simp only [if_neg last]
    split
    · split
      · omega
      · omega
    · split
      · omega
      · omega

/-- A run one step longer also has the position it ended before. -/
theorem between_succ_iff (unclosed : succ n stop ≠ start) (startIn : start < n) (inside : x < n) :
    Between start x (succ n stop) ↔ Between start x stop ∨ x = stop := by
  unfold Between succ at *
  by_cases last : stop + 1 = n
  · simp only [if_pos last] at *
    split
    · split
      · omega
      · omega
    · split
      · omega
      · omega
  · simp only [if_neg last] at *
    split
    · split
      · omega
      · omega
    · split
      · omega
      · omega

/-- A position is fewer steps away than the circle is long. -/
theorem distance_lt (startIn : start < n) (stopIn : stop < n) : distance n start stop < n := by
  unfold distance
  split
  · omega
  · omega

/-- One step comes nearer. -/
theorem distance_succ (differ : start ≠ stop) (startIn : start < n) (stopIn : stop < n) :
    distance n (succ n start) stop + 1 = distance n start stop := by
  unfold distance succ
  by_cases last : start + 1 = n
  · simp only [if_pos last]
    split
    · split
      · omega
      · omega
    · split
      · omega
      · omega
  · simp only [if_neg last]
    split
    · split
      · omega
      · omega
    · split
      · omega
      · omega

/-- Induction along a run towards its end. -/
theorem run_induction {motive : Nat → Prop} (stopIn : stop < n) (last : motive stop)
    (step : ∀ i < n, i ≠ stop → motive (succ n i) → motive i) : ∀ start < n, motive start := by
  have byDistance : ∀ steps start, start < n → distance n start stop = steps → motive start := by
    intro steps
    induction steps with
    | zero =>
      intro start inside none
      have same : start = stop := by
        unfold distance at none
        split at none
        · omega
        · omega
      rw [same]
      exact last
    | succ steps induct =>
      intro start inside some
      by_cases same : start = stop
      · rw [same]
        exact last
      · have nearer := distance_succ same inside stopIn
        exact step start inside same (induct _ (succ_lt inside) (by omega))
  intro start inside
  exact byDistance _ start inside rfl

/-- From any position there is a first position that has a property some position has. -/
theorem exists_first (holds : Nat → Prop) {witness : Nat} (witnessIn : witness < n)
    (held : holds witness) (startIn : start < n) :
    ∃ stop < n, holds stop ∧ ∀ x < n, Between start x stop → ¬ holds x := by
  refine run_induction (motive := fun start => ∃ stop < n, holds stop ∧
    ∀ x < n, Between start x stop → ¬ holds x) witnessIn ?_ ?_ start startIn
  · exact ⟨witness, witnessIn, held, fun x _ between => absurd between not_between_self⟩
  · rintro i inside - ⟨stop, stopIn, stopHolds, before⟩
    by_cases here : holds i
    · exact ⟨i, inside, here, fun x _ between => absurd between not_between_self⟩
    · refine ⟨stop, stopIn, stopHolds, ?_⟩
      intro x xIn between
      have differ : i ≠ stop := fun same => here (same ▸ stopHolds)
      rcases (between_iff_succ differ stopIn xIn).mp between with same | later
      · rw [same]
        exact here
      · exact before x xIn later

/-- Of two ends of runs from one start, one lies in the run to the other unless they are the
same. -/
theorem between_or_between (start : Nat) {first second : Nat} (differ : first ≠ second) :
    Between start first second ∨ Between start second first := by
  unfold Between
  split
  · split
    · omega
    · omega
  · split
    · omega
    · omega

end Cyclic
