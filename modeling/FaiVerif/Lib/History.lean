import Mathlib.Data.List.Basic

/-!
# Histories

A history is the list of what has happened, first event first. It is justified when each of its
events stands in a given relation to the events before it.
-/

namespace Fai.History

variable {ε : Type} {P : List ε → ε → Prop}

/-- Every event of a history is justified by the events before it. -/
def Justified (P : List ε → ε → Prop) (log : List ε) : Prop :=
  ∀ before e after, log = before ++ e :: after → P before e

/-- The empty history is justified. -/
theorem justified_nil : Justified P [] := by
  intro before e after split
  simp at split

/-- A history grows by a justified event. -/
theorem Justified.snoc {log : List ε} {e : ε} (justified : Justified P log) (last : P log e) :
    Justified P (log ++ [e]) := by
  intro before x after split
  rcases List.eq_nil_or_concat after with rfl | ⟨front, final, rfl⟩
  · obtain ⟨rfl, same⟩ := List.append_inj' split rfl
    simp only [List.cons.injEq, and_true] at same
    exact same ▸ last
  · rw [List.concat_eq_append, ← List.cons_append, ← List.append_assoc] at split
    exact justified before x front (List.append_inj' split rfl).1

/-- A history grows by events that need no justification. -/
theorem Justified.append {log more : List ε} (justified : Justified P log)
    (free : ∀ before, ∀ e ∈ more, P before e) : Justified P (log ++ more) := by
  induction more generalizing log with
  | nil => simpa using justified
  | cons e rest ih =>
    rw [List.append_cons]
    apply ih (justified.snoc (free log e (by simp)))
    exact fun before x member => free before x (List.mem_cons_of_mem _ member)

end Fai.History
