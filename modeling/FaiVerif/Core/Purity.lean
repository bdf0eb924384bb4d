import FaiVerif.Core.Ir
import FaiVerif.Lib.Descent

/-!
# Pure and total code

`fai-core`'s `purity.rs`: whether running an expression, or applying a definition to a number of
arguments, has no effect, cannot abort, and returns. A call is followed into the body of its target.
A definition that its own body leads back to stays impure: the answers start at impure, and a round
asks every body again under the answers of the round before, until no answer changes.
-/

namespace Fai.Purity

open CExpr Descent

/-- A top-level definition as it is lowered: its entry function. -/
structure Definition where
  /-- Its name. -/
  target : DefId
  /-- The locals of its parameters. -/
  params : List LocalId
  /-- Its body. -/
  body : CExpr

mutual

/-- `comparison_is_total`: the types whose values a structural operation can always walk. -/
def comparisonIsTotal : Ty → Bool
  | .con .int | .con .float | .con .bool | .con .char | .con .string | .con .bytes | .unit => true
  | .app (.con .list) elem | .app (.con .array) elem => comparisonIsTotal elem
  | .tuple fields => comparisonsAreTotal fields
  | .record fields .closed => fieldComparisonsAreTotal fields
  | _ => false

/-- The same of every component of a tuple. -/
def comparisonsAreTotal : List Ty → Bool
  | [] => true
  | ty :: rest => comparisonIsTotal ty && comparisonsAreTotal rest

/-- The same of every field of a record. -/
def fieldComparisonsAreTotal : List (Symbol × Ty) → Bool
  | [] => true
  | (_, ty) :: rest => comparisonIsTotal ty && fieldComparisonsAreTotal rest

end

/-- `divisor_is_nonzero_literal`: the second operand is a literal integer other than zero. -/
def divisorIsNonzeroLiteral (args : List CExpr) : Bool :=
  match args[1]? with
  | some (CExpr.lit (.int n) _) => n != 0
  | _ => false

/-- The first operand is the literal integer zero. -/
def reservesNothing (args : List CExpr) : Bool :=
  match args.head? with
  | some (CExpr.lit (.int n) _) => n == 0
  | _ => false

/-- `op_unsafe_to_reorder`: whether a primitive on these operands may not be moved. -/
def opUnsafeToReorder (op : Prim) (args : List CExpr) : Bool :=
  match op with
  | .intDiv | .intRem => !divisorIsNonzeroLiteral args
  | .eq | .compare | .hash => args.isEmpty || args.any fun arg => !comparisonIsTotal arg.ty
  | .arrayWithCapacity => !reservesNothing args
  | .arrayGet | .arrayPeek | .dataPeek | .arraySet | .arrayUnique | .arrayRepeat | .arrayTake
  | .arrayPut | .arrayPush | .arrayPushReserved | .bytesGet | .charFromCode | .bytesToString => true
  | _ => false

section Expressions

variable (application : DefId → Nat → Bool)

mutual

/-- `expr_pure_total`, given which applications of definitions are pure and total. -/
def exprPureTotalWith : CExpr → Bool
  | .lit _ _ | .loc _ _ | .makeClosure _ _ _ _ => true
  -- A definition without parameters is run when it is read.
  | .global target _ => application target 0
  | .prim op args _ => !opUnsafeToReorder op args && allPureTotalWith args
  | .foreign _ _ _ _ | .recur _ _ | .error _ => false
  | .app (.global target _) args _ _ _ => application target args.length && allPureTotalWith args
  | .app _ _ _ _ _ => false
  | .makeData _ args _ _ _ _ | .spread args _ => allPureTotalWith args
  | .ite cond yes no _ => exprPureTotalWith cond && exprPureTotalWith yes && exprPureTotalWith no
  | .letIn _ value body _ | .letMany _ value body _ | .reset value _ body _ =>
    exprPureTotalWith value && exprPureTotalWith body
  | .dataTag e _ _ | .dataField e _ _ _ _ | .freeReuse _ e _ | .dup _ e _ | .drop _ e _
  | .join _ e _ | .holeStart _ e _ | .holeFill _ e _ _ | .holeClose _ e _ => exprPureTotalWith e

/-- The same of every operand. -/
def allPureTotalWith : List CExpr → Bool
  | [] => true
  | e :: rest => exprPureTotalWith e && allPureTotalWith rest

end

end Expressions

section Module

variable (definitions : List Definition)

/-- `application_pure_total`, given which definitions are taken to be impure when they are run. -/
def applicationPureTotalWith (impure : List Bool) (target : DefId) (arity : Nat) : Bool :=
  match (definitions.zip impure).find? fun entry => entry.1.target = target with
  | none => false
  | some (definition, flag) =>
    match compare arity definition.params.length with
    | .lt => true
    | .eq => !flag
    | .gt => false

/-- One round asks every body again. -/
def round (impure : List Bool) : List Bool :=
  definitions.map fun definition =>
    !exprPureTotalWith (applicationPureTotalWith definitions impure) definition.body

/-- Which definitions are impure when the answers no longer change. -/
def impureDefinitions : List Bool :=
  loop (round definitions) definitions.length (List.replicate definitions.length true)

/-- `application_pure_total`: whether applying a definition to a number of arguments is pure and
total. -/
def applicationPureTotal (target : DefId) (arity : Nat) : Bool :=
  applicationPureTotalWith definitions (impureDefinitions definitions) target arity

/-- `expr_pure_total`: whether running an expression is pure and total. -/
def exprPureTotal (e : CExpr) : Bool := exprPureTotalWith (applicationPureTotal definitions) e

end Module

section Rounds

variable {definitions : List Definition}

mutual

/-- Fewer impure applications leave no more expressions impure. -/
theorem exprPureTotalWith_mono {few many : DefId → Nat → Bool}
    (more : ∀ target arity, few target arity = true → many target arity = true) :
    ∀ e : CExpr, exprPureTotalWith few e = true → exprPureTotalWith many e = true
  | .lit _ _, held | .loc _ _, held | .makeClosure _ _ _ _, held => held
  | .global target _, held => more target 0 held
  | .prim op args _, held => by
    rw [exprPureTotalWith, Bool.and_eq_true] at held ⊢
    exact ⟨held.1, allPureTotalWith_mono more args held.2⟩
  | .foreign _ _ _ _, held | .recur _ _, held | .error _, held => held
  | .app func args _ _ _, held => by
    cases func with
    | global target =>
      rw [exprPureTotalWith, Bool.and_eq_true] at held ⊢
      exact ⟨more target args.length held.1, allPureTotalWith_mono more args held.2⟩
    | _ => cases held
  | .makeData _ args _ _ _ _, held | .spread args _, held => allPureTotalWith_mono more args held
  | .ite cond yes no _, held => by
    rw [exprPureTotalWith, Bool.and_eq_true, Bool.and_eq_true] at held ⊢
    obtain ⟨⟨first, second⟩, third⟩ := held
    exact ⟨⟨exprPureTotalWith_mono more cond first, exprPureTotalWith_mono more yes second⟩,
      exprPureTotalWith_mono more no third⟩
  | .letIn _ value body _, held | .letMany _ value body _, held | .reset value _ body _, held => by
    rw [exprPureTotalWith, Bool.and_eq_true] at held ⊢
    exact ⟨exprPureTotalWith_mono more value held.1, exprPureTotalWith_mono more body held.2⟩
  | .dataTag e _ _, held | .dataField e _ _ _ _, held | .freeReuse _ e _, held | .dup _ e _, held
  | .drop _ e _, held | .join _ e _, held | .holeStart _ e _, held | .holeFill _ e _ _, held
  | .holeClose _ e _, held => exprPureTotalWith_mono more e held

/-- The same of every operand. -/
theorem allPureTotalWith_mono {few many : DefId → Nat → Bool}
    (more : ∀ target arity, few target arity = true → many target arity = true) :
    ∀ es : List CExpr, allPureTotalWith few es = true → allPureTotalWith many es = true
  | [], held => held
  | e :: rest, held => by
    rw [allPureTotalWith, Bool.and_eq_true] at held ⊢
    exact ⟨exprPureTotalWith_mono more e held.1, allPureTotalWith_mono more rest held.2⟩

end

/-- Operands that are all pure and total are so one by one. -/
theorem allPureTotalWith_mem {application : DefId → Nat → Bool} {es : List CExpr}
    (all : allPureTotalWith application es = true) :
    ∀ e ∈ es, exprPureTotalWith application e = true := by
  induction es with
  | nil => exact fun e member => absurd member List.not_mem_nil
  | cons first rest hypothesis =>
    rw [allPureTotalWith, Bool.and_eq_true] at all
    exact List.forall_mem_cons.mpr ⟨all.1, hypothesis all.2⟩

/-- What is found beside the flags of one list is found beside those of a list with fewer. -/
theorem find_zip_fewer {kind : Definition × Bool → Bool}
    (apart : ∀ definition flag flag', kind (definition, flag) = kind (definition, flag'))
    {few many : List Bool} (fewer : Fewer few many) {definition : Definition} {flag : Bool} :
    ∀ {definitions : List Definition}, (definitions.zip many).find? kind = some (definition, flag) →
      ∃ flag', (definitions.zip few).find? kind = some (definition, flag') ∧
        (flag' = true → flag = true) := by
  induction fewer with
  | nil =>
    intro definitions found
    rw [List.zip_nil_right] at found
    cases found
  | @cons left right few many held fewer hypothesis =>
    intro definitions found
    cases definitions with
    | nil => cases found
    | cons first rest =>
      rw [List.zip_cons_cons, List.find?_cons] at found ⊢
      rw [apart first left right]
      by_cases here : kind (first, right) = true
      · rw [here] at found ⊢
        simp only [Option.some.injEq, Prod.mk.injEq] at found
        obtain ⟨rfl, rfl⟩ := found
        exact ⟨left, rfl, held⟩
      · rw [Bool.not_eq_true] at here
        rw [here] at found ⊢
        exact hypothesis found

/-- With fewer definitions taken to be impure, no application becomes so. -/
theorem applicationPureTotalWith_fewer {few many : List Bool} (fewer : Fewer few many)
    (target : DefId) (arity : Nat)
    (held : applicationPureTotalWith definitions many target arity = true) :
    applicationPureTotalWith definitions few target arity = true := by
  unfold applicationPureTotalWith at held
  split at held
  · cases held
  · rename_i definition flag found
    obtain ⟨flag', found', less⟩ := find_zip_fewer (fun _ _ _ => rfl) fewer found
    rw [applicationPureTotalWith, found']
    simp only
    split at held
    · rfl
    · rw [Bool.not_eq_true'] at held ⊢
      by_contra still
      rw [Bool.not_eq_false] at still
      rw [less still] at held
      cases held
    · cases held

/-- Rounds are monotone. -/
theorem fewer_round {few many : List Bool} (fewer : Fewer few many) :
    Fewer (round definitions few) (round definitions many) := by
  rw [Fewer, round, round, List.forall₂_map_left_iff, List.forall₂_map_right_iff,
    List.forall₂_same]
  intro definition _ still
  rw [Bool.not_eq_true'] at still ⊢
  by_contra changed
  rw [Bool.not_eq_false] at changed
  rw [exprPureTotalWith_mono (applicationPureTotalWith_fewer fewer) _ changed] at still
  cases still

/-- The answers no longer change. -/
theorem round_impureDefinitions (definitions : List Definition) :
    round definitions (impureDefinitions definitions) = impureDefinitions definitions := by
  refine @loop_fixed _ _ (round definitions) (fun flags => Fewer (round definitions flags) flags)
    (fun _ kept => fewer_round kept) (fun flags => flags.count true)
    (fun _ kept => kept.eq_or_count_lt) _ _ ?_ ?_
  · have all := Fewer.replicate (round definitions (List.replicate definitions.length true))
    rwa [show (round definitions (List.replicate definitions.length true)).length =
      definitions.length from List.length_map _] at all
  · simp

/-- A definition beside what is asked of it is found with it. -/
theorem find_zip_map (asked : Definition → Bool) (target : DefId) :
    ((definitions.zip (definitions.map asked)).find? fun entry => entry.1.target = target) =
      (definitions.find? fun definition => definition.target = target).map fun definition =>
        (definition, asked definition) := by
  induction definitions with
  | nil => rfl
  | cons first rest hypothesis =>
    rw [List.map_cons, List.zip_cons_cons, List.find?_cons, List.find?_cons, hypothesis]
    by_cases here : first.target = target <;> simp [here]

/-- What a round asks of an application: whether it is partial, or runs a pure and total body. -/
theorem applicationPureTotalWith_round (definitions : List Definition) (impure : List Bool)
    (target : DefId) (arity : Nat) :
    applicationPureTotalWith definitions (round definitions impure) target arity =
      (definitions.find? fun definition => definition.target = target).any fun definition =>
        arity < definition.params.length || arity = definition.params.length &&
          exprPureTotalWith (applicationPureTotalWith definitions impure) definition.body := by
  rw [applicationPureTotalWith, round, find_zip_map]
  cases definitions.find? fun definition => definition.target = target with
  | none => rfl
  | some definition =>
    simp only [Option.map_some, Option.any_some, Bool.not_not]
    split
    · rename_i less
      rw [Nat.compare_eq_lt] at less
      simp [less]
    · rename_i same
      rw [Nat.compare_eq_eq] at same
      simp [same]
    · rename_i more
      rw [Nat.compare_eq_gt] at more
      simp [Nat.not_lt_of_lt more, Nat.ne_of_gt more]

/-- The final answers are those the source's query gives in terms of themselves. -/
theorem applicationPureTotal_eq (target : DefId) (arity : Nat) :
    applicationPureTotal definitions target arity =
      (definitions.find? fun definition => definition.target = target).any fun definition =>
        arity < definition.params.length ||
          arity = definition.params.length && exprPureTotal definitions definition.body := by
  have step := applicationPureTotalWith_round definitions (impureDefinitions definitions) target
    arity
  rw [round_impureDefinitions] at step
  exact step

end Rounds

end Fai.Purity
