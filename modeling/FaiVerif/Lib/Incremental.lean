import Mathlib.Data.List.Basic

/-!
# Incremental machines

A machine that reads one symbol at a time, and answers each with nothing, an output or a final
failure. A whole word gives a list of outputs with the last state or the failure; words compose, so
the outputs of a word do not depend on how it is cut. A scan reads up to the first answer, as the
calls of an incremental interface do; the outputs of a word are those of its scans.
-/

namespace Fai.Incremental

/-- The answer of a machine to one symbol. -/
inductive Answer (ω ε : Type) where
  | more
  | out (value : ω)
  | stop (reason : ε)

/-- The outputs of a computation with its last state or its failure. -/
abbrev Outputs (ω ε σ : Type) := List ω × Except ε σ

variable {σ τ υ β ω ε : Type}

/-- Goes on from the last state of a computation, keeping its outputs. -/
def Outputs.andThen (first : Outputs ω ε σ) (next : σ → Outputs ω ε τ) : Outputs ω ε τ :=
  match first.2 with
  | .error reason => (first.1, .error reason)
  | .ok state => (first.1 ++ (next state).1, (next state).2)

/-- Nothing happens before a continuation from a state alone. -/
@[simp] theorem Outputs.andThen_ok (state : σ) (next : σ → Outputs ω ε τ) :
    Outputs.andThen ([], .ok state) next = next state := rfl

/-- Nothing happens after a failure. -/
@[simp] theorem Outputs.andThen_error (outputs : List ω) (reason : ε)
    (next : σ → Outputs ω ε τ) :
    Outputs.andThen (outputs, .error reason) next = (outputs, .error reason) := rfl

/-- An output before a computation. -/
def Outputs.after (value : ω) (later : Outputs ω ε σ) : Outputs ω ε σ := (value :: later.1, later.2)

/-- An output before a computation stands before what follows it. -/
@[simp] theorem Outputs.after_andThen (value : ω) (later : Outputs ω ε σ)
    (next : σ → Outputs ω ε τ) :
    (later.after value).andThen next = (later.andThen next).after value := by
  obtain ⟨outputs, ending⟩ := later
  cases ending <;> rfl

section Machine

variable (step : σ → β → σ × Answer ω ε)

/-- What a computation does after an answer. -/
def Answer.follow (answer : Answer ω ε) (later : Outputs ω ε σ) : Outputs ω ε σ :=
  match answer with
  | .more => later
  | .out value => later.after value
  | .stop reason => ([], .error reason)

/-- The outputs of a word. -/
@[simp] def transduce : σ → List β → Outputs ω ε σ
  | state, [] => ([], .ok state)
  | state, symbol :: word =>
    (step state symbol).2.follow (transduce (step state symbol).1 word)

/-- A word in two parts is its first part and then its second. -/
theorem transduce_append (state : σ) (front back : List β) :
    transduce step state (front ++ back) =
      (transduce step state front).andThen fun state => transduce step state back := by
  induction front generalizing state with
  | nil => rfl
  | cons symbol front hypothesis =>
    simp only [List.cons_append, transduce]
    rw [hypothesis]
    cases (step state symbol).2 with
    | more => rfl
    | out value => simp [Answer.follow]
    | stop reason => rfl

/-- The first answer over a word, with the state there and the symbols read for it. -/
@[simp] def scan : σ → List β → Nat × σ × Answer ω ε
  | state, [] => (0, state, .more)
  | state, symbol :: word =>
    match (step state symbol).2 with
    | .more =>
      let later := scan (step state symbol).1 word
      (later.1 + 1, later.2)
    | answer => (1, (step state symbol).1, answer)

/-- A scan reads at most the word. -/
theorem scan_used (state : σ) (word : List β) : (scan step state word).1 ≤ word.length := by
  induction word generalizing state with
  | nil => simp [scan]
  | cons symbol word hypothesis =>
    simp only [scan]
    cases (step state symbol).2 with
    | more =>
      have bounded := hypothesis (step state symbol).1
      simp only [List.length_cons]
      omega
    | out value => simp
    | stop reason => simp

/-- A scan without an answer reads the word, which has no output. -/
theorem scan_more {state : σ} {word : List β} {last : σ} {used : Nat}
    (scanned : scan step state word = (used, last, .more)) :
    used = word.length ∧ transduce step state word = ([], .ok last) := by
  induction word generalizing state used with
  | nil =>
    simp only [scan, Prod.mk.injEq] at scanned
    obtain ⟨rfl, rfl, -⟩ := scanned
    exact ⟨rfl, rfl⟩
  | cons symbol word hypothesis =>
    simp only [scan] at scanned
    cases answer : (step state symbol).2 with
    | more =>
      simp only [answer, Prod.mk.injEq] at scanned
      obtain ⟨count, rest⟩ := scanned
      obtain ⟨read, outputs⟩ := hypothesis (Prod.ext rfl rest)
      constructor
      · rw [List.length_cons, ← read, count]
      · simp only [transduce, answer, Answer.follow, outputs]
    | out value => simp [answer] at scanned
    | stop reason => simp [answer] at scanned

/-- A scan up to an output reads a symbol, and the outputs of the word go on from there. -/
theorem scan_out {state : σ} {word : List β} {last : σ} {used : Nat} {value : ω}
    (scanned : scan step state word = (used, last, .out value)) :
    0 < used ∧ used ≤ word.length ∧
      transduce step state word = (transduce step last (word.drop used)).after value := by
  have bounded := scan_used step state word
  rw [scanned] at bounded
  refine ⟨?_, bounded, ?_⟩ <;> clear bounded
  · induction word generalizing state used with
    | nil => simp [scan] at scanned
    | cons symbol word hypothesis =>
      simp only [scan] at scanned
      cases answer : (step state symbol).2 with
      | more =>
        simp only [answer, Prod.mk.injEq] at scanned
        omega
      | out found =>
        simp only [answer, Prod.mk.injEq] at scanned
        omega
      | stop reason => simp [answer] at scanned
  · induction word generalizing state used with
    | nil => simp [scan] at scanned
    | cons symbol word hypothesis =>
      simp only [scan] at scanned
      cases answer : (step state symbol).2 with
      | more =>
        simp only [answer, Prod.mk.injEq] at scanned
        obtain ⟨rfl, rest⟩ := scanned
        simp only [transduce, answer, Answer.follow, List.drop_succ_cons]
        exact hypothesis (Prod.ext rfl rest)
      | out found =>
        simp only [answer, Prod.mk.injEq, Answer.out.injEq] at scanned
        obtain ⟨rfl, rfl, rfl⟩ := scanned
        simp only [transduce, answer, Answer.follow, List.drop_succ_cons, List.drop_zero]
      | stop reason => simp [answer] at scanned

/-- A scan up to a failure is the failure of the word. -/
theorem scan_stop {state : σ} {word : List β} {last : σ} {used : Nat} {reason : ε}
    (scanned : scan step state word = (used, last, .stop reason)) :
    transduce step state word = ([], .error reason) := by
  induction word generalizing state used with
  | nil => simp [scan] at scanned
  | cons symbol word hypothesis =>
    simp only [scan] at scanned
    cases answer : (step state symbol).2 with
    | more =>
      simp only [answer, Prod.mk.injEq] at scanned
      simp only [transduce, answer, Answer.follow]
      exact hypothesis (Prod.ext rfl scanned.2)
    | out value => simp [answer] at scanned
    | stop found =>
      simp only [answer, Prod.mk.injEq, Answer.stop.injEq] at scanned
      simp only [transduce, answer, Answer.follow, scanned.2.2]

/-- A property of states that steps keep holds where a scan ends without a failure. -/
theorem scan_keeps {holds : σ → Prop}
    (keeps : ∀ state symbol, holds state → (∀ reason, (step state symbol).2 ≠ .stop reason) →
      holds (step state symbol).1)
    (state : σ) (word : List β) (initial : holds state)
    (going : ∀ reason, (scan step state word).2.2 ≠ .stop reason) :
    holds (scan step state word).2.1 := by
  induction word generalizing state with
  | nil => exact initial
  | cons symbol word hypothesis =>
    simp only [scan] at going ⊢
    cases answer : (step state symbol).2 with
    | more =>
      simp only [answer] at going ⊢
      have kept := keeps state symbol initial (by simp [answer])
      exact hypothesis _ kept going
    | out value => exact keeps state symbol initial (by simp [answer])
    | stop reason => simp [answer] at going

/-- What a failing step establishes holds where a scan fails. -/
theorem scan_stops {holds : σ → Prop} (broken : σ → ε → Prop)
    (keeps : ∀ state symbol, holds state → (∀ reason, (step state symbol).2 ≠ .stop reason) →
      holds (step state symbol).1)
    (breaks : ∀ state symbol reason, holds state → (step state symbol).2 = .stop reason →
      broken (step state symbol).1 reason)
    (state : σ) (word : List β) (initial : holds state) {reason : ε}
    (stopped : (scan step state word).2.2 = .stop reason) :
    broken (scan step state word).2.1 reason := by
  induction word generalizing state with
  | nil => simp [scan] at stopped
  | cons symbol word hypothesis =>
    simp only [scan] at stopped ⊢
    cases answer : (step state symbol).2 with
    | more =>
      simp only [answer] at stopped ⊢
      have kept := keeps state symbol initial (by simp [answer])
      exact hypothesis _ kept stopped
    | out value => simp [answer] at stopped
    | stop found =>
      simp only [answer, Answer.stop.injEq] at stopped ⊢
      subst stopped
      exact breaks state symbol found initial answer

end Machine

end Fai.Incremental
