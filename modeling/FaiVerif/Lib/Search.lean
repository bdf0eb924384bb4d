/-!
# Budgeted searches

A search spends a step budget and answers yes or no with what is left of it. A search that runs
out answers no. Searches built from the combinators here are stable: an answer given before the
budget ran out is given again, with the same steps spent, under any larger budget.
-/

/-- A search: from a budget, an answer and the remaining budget. -/
abbrev Search := Nat → Bool × Nat

namespace Search

/-- Answer without spending. -/
def answer (verdict : Bool) : Search := fun budget => (verdict, budget)

/-- Spend one step, or answer no when there is none left. -/
def step (next : Search) : Search
  | 0 => (false, 0)
  | budget + 1 => next budget

/-- Search on with the second only when the first answers yes. -/
def both (first second : Search) : Search := fun budget =>
  match first budget with
  | (true, left) => second left
  | (false, left) => (false, left)

/-- Search on with the second only when the first answers no. -/
def either (first second : Search) : Search := fun budget =>
  match first budget with
  | (true, left) => (true, left)
  | (false, left) => second left

/-- An answer given before exhaustion does not change with a larger budget. -/
def Stable (search : Search) : Prop :=
  ∀ budget verdict left extra, search budget = (verdict, left) → verdict = true ∨ 0 < left →
    search (budget + extra) = (verdict, left + extra)

/-- An exhausted budget answers no. -/
def Strict (search : Search) : Prop := search 0 = (false, 0)

/-- A fixed answer is stable. -/
theorem stable_answer (verdict : Bool) : Stable (answer verdict) := by
  intro budget given left extra ran _
  cases ran
  rfl

/-- Spending a step keeps stability. -/
theorem stable_step {next : Search} (stable : Stable next) : Stable (step next) := by
  intro budget verdict left extra ran certain
  cases budget with
  | zero =>
    cases ran
    rcases certain with impossible | impossible
    · cases impossible
    · exact absurd impossible (Nat.lt_irrefl 0)
  | succ budget =>
    have shifted : budget + 1 + extra = (budget + extra) + 1 := by omega
    rw [shifted]
    exact stable budget verdict left extra ran certain

/-- Stability of a conjunction. -/
theorem stable_both {first second : Search} (one : Stable first) (two : Stable second) :
    Stable (both first second) := by
  intro budget verdict left extra ran certain
  simp only [both] at ran ⊢
  cases found : first budget with
  | mk given remaining =>
    rw [found] at ran
    cases given with
    | true =>
      rw [one budget true remaining extra found (.inl rfl)]
      exact two remaining verdict left extra ran certain
    | false =>
      cases ran
      rcases certain with impossible | positive
      · cases impossible
      · rw [one budget false left extra found (.inr positive)]

/-- Stability of a disjunction whose second search is strict. -/
theorem stable_either {first second : Search} (one : Stable first) (two : Stable second)
    (strict : Strict second) : Stable (either first second) := by
  intro budget verdict left extra ran certain
  simp only [either] at ran ⊢
  cases found : first budget with
  | mk given remaining =>
    rw [found] at ran
    cases given with
    | true =>
      cases ran
      rw [one budget true left extra found (.inl rfl)]
    | false =>
      -- an exhausted first search leaves the second nothing to answer yes with
      have positive : 0 < remaining := by
        rcases Nat.eq_zero_or_pos remaining with exhausted | positive
        · rw [exhausted] at ran
          have refused := ran.symm.trans strict
          cases refused
          rcases certain with impossible | impossible
          · cases impossible
          · exact absurd impossible (Nat.lt_irrefl 0)
        · exact positive
      rw [one budget false remaining extra found (.inr positive)]
      exact two remaining verdict left extra ran certain

/-- A search never gains budget. -/
def Shrinks (search : Search) : Prop := ∀ budget, (search budget).2 ≤ budget

/-- A fixed answer gains nothing. -/
theorem shrinks_answer (verdict : Bool) : Shrinks (answer verdict) := fun budget => budget.le_refl

/-- Spending a step gains nothing. -/
theorem shrinks_step {next : Search} (shrinks : Shrinks next) : Shrinks (step next) := by
  intro budget
  cases budget with
  | zero => exact Nat.le_refl 0
  | succ budget => exact Nat.le_succ_of_le (shrinks budget)

/-- A conjunction gains nothing. -/
theorem shrinks_both {first second : Search} (one : Shrinks first) (two : Shrinks second) :
    Shrinks (both first second) := by
  intro budget
  have before := one budget
  simp only [both]
  cases found : first budget with
  | mk given remaining =>
    rw [found] at before
    cases given with
    | true => exact Nat.le_trans (two remaining) before
    | false => exact before

/-- What a conjunction that answers yes says of its second search. -/
theorem both_yes {first second : Search} (shrinks : Shrinks first) {budget : Nat}
    (found : (both first second budget).1 = true) :
    ∃ left, left ≤ budget ∧ (second left).1 = true := by
  have before := shrinks budget
  simp only [both] at found
  cases ran : first budget with
  | mk given remaining =>
    rw [ran] at found before
    cases given with
    | true => exact ⟨remaining, before, found⟩
    | false => cases found

/-- What a disjunction that answers yes says of its searches. -/
theorem either_yes {first second : Search} (shrinks : Shrinks first) {budget : Nat}
    (found : (either first second budget).1 = true) :
    (first budget).1 = true ∨ ∃ left, left ≤ budget ∧ (second left).1 = true := by
  have before := shrinks budget
  simp only [either] at found
  cases ran : first budget with
  | mk given remaining =>
    rw [ran] at found before
    cases given with
    | true => exact .inl rfl
    | false => exact .inr ⟨remaining, before, found⟩

/-- A disjunction gains nothing. -/
theorem shrinks_either {first second : Search} (one : Shrinks first) (two : Shrinks second) :
    Shrinks (either first second) := by
  intro budget
  have before := one budget
  simp only [either]
  cases found : first budget with
  | mk given remaining =>
    rw [found] at before
    cases given with
    | true => exact before
    | false => exact Nat.le_trans (two remaining) before

/-- A yes is kept by every larger budget. -/
theorem Stable.mono {search : Search} (stable : Stable search) {budget larger : Nat}
    (found : (search budget).1 = true) (ordered : budget ≤ larger) :
    (search larger).1 = true := by
  obtain ⟨extra, rfl⟩ := Nat.exists_eq_add_of_le ordered
  rw [stable budget true (search budget).2 extra (Prod.ext found rfl) (.inl rfl)]

end Search
