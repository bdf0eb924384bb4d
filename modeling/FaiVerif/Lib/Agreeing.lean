import Mathlib.Tactic.Common

/-!
# Pairs of runs that agree

Two runs of a computation with state and errors, from two states, agree when they fail with the
same error or end with the same value; a condition on the error and one on the value and the two
final states are kept along.
-/

namespace Agreeing

variable {σ ε α β : Type}

/-- The outcomes of two runs agree. -/
inductive Agree (bad : ε → Prop) (good : α → σ → σ → Prop) :
    Except ε (α × σ) → Except ε (α × σ) → Prop
  | failed (error : ε) : bad error → Agree bad good (.error error) (.error error)
  | ended (a : α) (first second : σ) : good a first second →
    Agree bad good (.ok (a, first)) (.ok (a, second))

variable {bad : ε → Prop} {good : α → σ → σ → Prop} {s t : σ}

/-- Weaker conditions. -/
theorem Agree.imp {bad' : ε → Prop} {good' : α → σ → σ → Prop} {x y : Except ε (α × σ)}
    (agree : Agree bad good x y) (errors : ∀ e, bad e → bad' e)
    (values : ∀ a s t, good a s t → good' a s t) : Agree bad' good' x y := by
  cases agree with
  | failed error held => exact .failed error (errors error held)
  | ended a first second held => exact .ended a first second (values a first second held)

/-- A returned value. -/
theorem agree_pure {a : α} (held : good a s t) :
    Agree bad good ((pure a : StateT σ (Except ε) α) s) ((pure a : StateT σ (Except ε) α) t) :=
  .ended a s t held

/-- An error. -/
theorem agree_throw {e : ε} (held : bad e) :
    Agree bad good ((throw e : StateT σ (Except ε) α) s) ((throw e : StateT σ (Except ε) α) t) :=
  .failed e held

/-- Two computations in turn. -/
theorem agree_bind {x y : StateT σ (Except ε) α} {f g : α → StateT σ (Except ε) β}
    {good' : β → σ → σ → Prop} (first : Agree bad good (x s) (y t))
    (second : ∀ a s t, good a s t → Agree bad good' (f a s) (g a t)) :
    Agree bad good' ((x >>= f) s) ((y >>= g) t) := by
  show Agree bad good' (x s >>= fun p => f p.1 p.2) (y t >>= fun p => g p.1 p.2)
  cases left : x s with
  | error e =>
    rw [left] at first
    cases right : y t with
    | error e' =>
      rw [right] at first
      cases first with
      | failed _ held => exact .failed e held
    | ok =>
      rw [right] at first
      cases first
  | ok p =>
    rw [left] at first
    cases right : y t with
    | error =>
      rw [right] at first
      cases first
    | ok q =>
      rw [right] at first
      cases first with
      | ended a s' t' held => exact second a s' t' held

/-- A computation that reads its state. -/
theorem agree_get {f g : σ → StateT σ (Except ε) α} (rest : Agree bad good (f s s) (g t t)) :
    Agree bad good ((get >>= f) s) ((get >>= g) t) := rest

/-- A computation that changes its state first. -/
theorem agree_modify {change : σ → σ} {f g : Unit → StateT σ (Except ε) α}
    (rest : Agree bad good (f () (change s)) (g () (change t))) :
    Agree bad good ((modify change >>= f) s) ((modify change >>= g) t) := rest

end Agreeing
