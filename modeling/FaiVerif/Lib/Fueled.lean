import Mathlib.Data.List.Basic
import Mathlib.Tactic.Common

/-!
# Computations that return with enough fuel

A loop without a bound of its own takes fuel and gives no answer when it is used up. Such a
computation returns a value when every large enough amount of fuel gives that value.
-/

namespace Fueled

variable {α β γ : Type}

/-- With enough fuel the computation gives the value. -/
def Returns (run : Nat → Option α) (a : α) : Prop := ∃ bound, ∀ fuel ≥ bound, run fuel = some a

/-- A computation that does not depend on the fuel. -/
theorem returns_const (a : α) : Returns (fun _ => some a) a := ⟨0, fun _ _ => rfl⟩

/-- A computation returns at most one value. -/
theorem Returns.unique {run : Nat → Option α} {a b : α} (first : Returns run a)
    (second : Returns run b) : a = b := by
  obtain ⟨boundA, givesA⟩ := first
  obtain ⟨boundB, givesB⟩ := second
  have both := (givesA (max boundA boundB) (Nat.le_max_left _ _)).symm.trans
    (givesB (max boundA boundB) (Nat.le_max_right _ _))
  exact Option.some_inj.mp both

/-- A loop that goes on as another computation, with one unit of fuel less, returns its value. -/
theorem Returns.succ {run later : Nat → Option α} {a : α} (enough : Nat)
    (unfolds : ∀ fuel ≥ enough, run (fuel + 1) = later fuel) (returns : Returns later a) :
    Returns run a := by
  obtain ⟨bound, gives⟩ := returns
  refine ⟨max bound enough + 1, fun fuel large => ?_⟩
  obtain ⟨less, rfl⟩ := Nat.exists_eq_add_of_le' (show 1 ≤ fuel by omega)
  rw [unfolds less (by omega)]
  exact gives less (by omega)

/-- A computation that goes on with the value of another. -/
theorem Returns.bind {run : Nat → Option α} {a : α} {f : Nat → α → Option β} {b : β}
    (first : Returns run a) (second : Returns (fun fuel => f fuel a) b) :
    Returns (fun fuel => (run fuel).bind (f fuel)) b := by
  obtain ⟨boundA, givesA⟩ := first
  obtain ⟨boundB, givesB⟩ := second
  refine ⟨max boundA boundB, fun fuel enough => ?_⟩
  show (run fuel).bind (f fuel) = some b
  rw [givesA fuel (by omega)]
  exact givesB fuel (by omega)

/-- A fold returns when each of its steps does, from every state that satisfies an invariant of
the elements folded so far. -/
theorem returns_foldlM {step : Nat → β → α → Option β} (holds : List α → β → Prop)
    (each : ∀ done a state, holds done state → ∃ after,
      Returns (fun fuel => step fuel state a) after ∧ holds (done ++ [a]) after)
    (list : List α) : ∀ done state, holds done state → ∃ after,
      Returns (fun fuel => list.foldlM (step fuel) state) after ∧ holds (done ++ list) after := by
  induction list with
  | nil =>
    intro done state start
    refine ⟨state, returns_const state, ?_⟩
    rw [List.append_nil]
    exact start
  | cons a rest induct =>
    intro done state start
    obtain ⟨middle, first, kept⟩ := each done a state start
    obtain ⟨after, others, final⟩ := induct (done ++ [a]) middle kept
    refine ⟨after, ?_, ?_⟩
    · simp only [List.foldlM_cons]
      exact first.bind others
    · rw [List.append_assoc] at final
      exact final

end Fueled
