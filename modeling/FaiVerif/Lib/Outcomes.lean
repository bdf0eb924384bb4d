import FaiVerif.Lib.Slots
import Mathlib.Control.Monad.Basic

/-!
# Postconditions of computations that may abort

A computation in an arbitrary monad that may abort ensures a condition when it never aborts and
every value that it returns meets the condition, whatever its effects are. The rules follow the
structure of a program.
-/

namespace Fai.Outcomes

open Slots

variable {m : Type → Type} [Monad m] {α β : Type}

/-- A computation never aborts, and returns only values that meet a condition. -/
def Ensures (post : α → Prop) (run : OptionT m α) : Prop :=
  ∃ proved : m {value // post value}, (fun value => some value.val) <$> proved = run.run

/-- What a run returns without any condition. -/
theorem yields_true [LawfulMonad m] (run : m α) : Yields (fun _ => True) run :=
  ⟨(fun value => ⟨value, trivial⟩) <$> run, by rw [← comp_map]; exact id_map run⟩

variable [LawfulMonad m] {post : α → Prop} {post' : β → Prop}

/-- A returned value yields what it meets. -/
theorem yields_pure {value : α} (meets : post value) : Yields post (pure value : m α) :=
  ⟨pure ⟨value, meets⟩, by rw [map_pure]⟩

/-- A sequence yields what its second part does on every value of the first. -/
theorem yields_bind {first : m α} {second : α → m β} (before : Yields post first)
    (after : ∀ value, post value → Yields post' (second value)) :
    Yields post' (first >>= second) := by
  obtain ⟨proved, same⟩ := before
  choose rest rests using after
  refine ⟨proved >>= fun value => rest value.val value.property, ?_⟩
  rw [← same, map_bind, bind_map_left]
  exact bind_congr fun value => rests value.val value.property

/-- A weaker condition on what is yielded. -/
theorem yields_imp {weaker : α → Prop} {run : m α} (yields : Yields post run)
    (weakens : ∀ value, post value → weaker value) : Yields weaker run := by
  obtain ⟨proved, same⟩ := yields
  refine ⟨(fun value => ⟨value.val, weakens value.val value.property⟩) <$> proved, ?_⟩
  rw [← comp_map, ← same]
  rfl

/-- What follows a computation that cannot abort matters on the values it yields only. -/
theorem lift_bind_congr {run : m α} (yields : Yields post run) {first second : α → OptionT m β}
    (agree : ∀ value, post value → first value = second value) :
    OptionT.lift run >>= first = OptionT.lift run >>= second := by
  apply OptionT.ext
  simp only [OptionT.run_bind, OptionT.run_lift, Option.elimM, bind_assoc, pure_bind,
    Option.elim_some]
  exact yields.bind_congr fun value meets => by rw [agree value meets]

/-- Returning a value ensures what the value meets. -/
theorem ensures_pure {value : α} (meets : post value) :
    Ensures post (pure value : OptionT m α) := by
  refine ⟨pure ⟨value, meets⟩, ?_⟩
  rw [map_pure, OptionT.run_pure]

/-- A sequence ensures what its second part does on every value of the first. -/
theorem ensures_bind {first : OptionT m α} {second : α → OptionT m β} (before : Ensures post first)
    (after : ∀ value, post value → Ensures post' (second value)) :
    Ensures post' (first >>= second) := by
  obtain ⟨proved, same⟩ := before
  choose rest rests using after
  refine ⟨proved >>= fun value => rest value.val value.property, ?_⟩
  rw [OptionT.run_bind, ← same, map_bind]
  simp only [Option.elimM, bind_map_left, Option.elim_some]
  exact bind_congr fun value => rests value.val value.property

/-- A computation that cannot abort ensures what the values it returns meet. -/
theorem ensures_lift {run : m α} (yields : Yields post run) :
    Ensures post (OptionT.lift run) := by
  obtain ⟨proved, same⟩ := yields
  refine ⟨proved, ?_⟩
  rw [OptionT.run_lift, ← same, bind_map_left, map_eq_pure_bind]

/-- A weaker condition. -/
theorem Ensures.imp {weaker : α → Prop} {run : OptionT m α} (ensures : Ensures post run)
    (weakens : ∀ value, post value → weaker value) : Ensures weaker run := by
  obtain ⟨proved, same⟩ := ensures
  refine ⟨(fun value => ⟨value.val, weakens value.val value.property⟩) <$> proved, ?_⟩
  rw [← comp_map, ← same]
  rfl

/-- Without effects, a computation that ensures a condition returns a value that meets it. -/
theorem Ensures.exists_value {run : OptionT Id α} (ensures : Ensures post run) :
    ∃ value, run.run = some value ∧ post value := by
  obtain ⟨proved, same⟩ := ensures
  exact ⟨(Id.run proved).val, same.symm, (Id.run proved).property⟩

end Fai.Outcomes
