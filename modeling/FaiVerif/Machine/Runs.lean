import FaiVerif.Core.Ir
import FaiVerif.Lib.Ledger

/-!
# Runs of reference-counted Core

What an expression in A-normal form does to the references of its frame, along every control path
and around every loop. One operation is one ledger step: it lends the operands its convention
borrows and takes a reference of every other operand at the same time. A run may be observed at any
point, so a fault in a loop that never ends is a fault of a run.
-/

namespace Fai

open Ledger

/-- Which arguments of a saturated direct call are borrowed, `call_borrows`. -/
abbrev CallBorrows := DefId → Nat → List Bool

/-- `prim_borrows`: the ownership of every argument under the convention of the first one. -/
def primBorrows (op : Prim) (args : List CExpr) : List Bool :=
  match args with
  | [] => []
  | first :: _ => (List.range args.length).map fun index => op.borrowsArgument index first.ty

/-- The argument ownership of a call: that of the callee's signature when it is direct. -/
def argBorrows (calls : CallBorrows) (func : CExpr) (nargs : Nat) : List Bool :=
  match func with
  | .global target _ => calls target nargs
  | _ => []

/-- Whether a primitive yields a view of its first operand. -/
def Prim.isPeek : Prim → Bool
  | .arrayPeek | .dataPeek => true
  | _ => false

/-- The slot of a projection's offset evidence. -/
def FieldIndex.slots : FieldIndex → List LocalId
  | .const _ => []
  | .dyn _ evidence => [evidence]

namespace CExpr

mutual

/-- The slots whose reference an operand hands over. -/
def slots : CExpr → List LocalId
  | loc slot _ => [slot]
  | spread components _ => slotsList components
  | _ => []

/-- The slots whose references operands hand over. -/
def slotsList : List CExpr → List LocalId
  | [] => []
  | head :: rest => head.slots ++ slotsList rest

end

/-- The lent locals among operands; a missing flag is an owned operand. -/
def lent : List Bool → List CExpr → List LocalId
  | _, [] => []
  | flags, loc slot _ :: rest =>
    if flags.headD false then slot :: lent flags.tail rest else lent flags.tail rest
  | flags, _ :: rest => lent flags.tail rest

/-- The slots whose references the operation takes. -/
def taken : List Bool → List CExpr → List LocalId
  | _, [] => []
  | flags, loc slot _ :: rest =>
    if flags.headD false then taken flags.tail rest else slot :: taken flags.tail rest
  | flags, operand :: rest => operand.slots ++ taken flags.tail rest

/-- Operands without flags are not lent. -/
theorem lent_nil : ∀ operands : List CExpr, lent [] operands = []
  | [] => rfl
  | .loc _ _ :: rest => lent_nil rest
  | .lit _ _ :: rest | .global _ _ :: rest | .prim _ _ _ :: rest | .foreign _ _ _ _ :: rest
  | .app _ _ _ _ _ :: rest | .ite _ _ _ _ :: rest | .letIn _ _ _ _ :: rest
  | .spread _ _ :: rest | .letMany _ _ _ _ :: rest | .makeClosure _ _ _ _ :: rest
  | .makeData _ _ _ _ _ _ :: rest | .dataTag _ _ _ :: rest | .dataField _ _ _ _ _ :: rest
  | .reset _ _ _ _ :: rest | .freeReuse _ _ _ :: rest | .dup _ _ _ :: rest | .drop _ _ _ :: rest
  | .join _ _ _ :: rest | .recur _ _ :: rest | .holeStart _ _ _ :: rest
  | .holeFill _ _ _ _ :: rest | .holeClose _ _ _ :: rest | .error _ :: rest => lent_nil rest

/-- Operands without flags are all taken. -/
theorem taken_nil : ∀ operands : List CExpr, taken [] operands = slotsList operands
  | [] => rfl
  | .loc slot _ :: rest => congrArg (slot :: ·) (taken_nil rest)
  | .lit _ _ :: rest | .global _ _ :: rest | .prim _ _ _ :: rest | .foreign _ _ _ _ :: rest
  | .app _ _ _ _ _ :: rest | .ite _ _ _ _ :: rest | .letIn _ _ _ _ :: rest
  | .spread _ _ :: rest | .letMany _ _ _ _ :: rest | .makeClosure _ _ _ _ :: rest
  | .makeData _ _ _ _ _ _ :: rest | .dataTag _ _ _ :: rest | .dataField _ _ _ _ _ :: rest
  | .reset _ _ _ _ :: rest | .freeReuse _ _ _ :: rest | .dup _ _ _ :: rest | .drop _ _ _ :: rest
  | .join _ _ _ :: rest | .recur _ _ :: rest | .holeStart _ _ _ :: rest
  | .holeFill _ _ _ _ :: rest | .holeClose _ _ _ :: rest | .error _ :: rest => by
    simp only [taken, slotsList, taken_nil rest, List.tail_nil]

/-- The step that binds a `let`'s slot: a view for a peek, a fresh reference otherwise. -/
def binder (slot : LocalId) : CExpr → Step LocalId
  | prim op (loc owner _ :: _) _ => if op.isPeek then .view slot owner else .bind slot
  | _ => .bind slot

end CExpr

/-- How control and references flow through a node. -/
inductive Shape where
  /-- One operation on atoms. -/
  | op (action : Step LocalId)
  /-- Steps before a continuation. -/
  | before (actions : List (Step LocalId)) (body : CExpr)
  /-- An expression, steps, and a continuation. -/
  | seq (first : CExpr) (actions : List (Step LocalId)) (rest : CExpr)
  /-- A condition and two branches. -/
  | branch (cond yes no : CExpr)
  /-- An expression and steps after it. -/
  | after (first : CExpr) (actions : List (Step LocalId))
  /-- A loop header. -/
  | loop (params : List LocalId) (body : CExpr)
  /-- A back-edge. -/
  | back (args : List CExpr)

namespace CExpr

/-- The flow of a node under the callees' borrow signatures. -/
def shape (calls : CallBorrows) : CExpr → Shape
  | lit _ _ | global _ _ | error _ => .op (.use [] [])
  | loc slot _ => .op (.use [] [slot])
  | prim op args _ =>
    .op (.use (lent (primBorrows op args) args) (taken (primBorrows op args) args))
  | foreign _ args _ _ | spread args _ => .op (.use [] (taken [] args))
  | makeData _ args reuse _ _ _ => .op (.use [] (taken [] args ++ reuse.toList))
  | app func args reuse _ _ =>
    .op (.use (lent (argBorrows calls func args.length) args)
      (func.slots ++ taken (argBorrows calls func args.length) args ++ reuse.filterMap id))
  | makeClosure _ captures _ _ => .op (.use [] captures)
  | dataTag base _ _ => .op (.use base.slots [])
  | dataField base index _ _ _ => .op (.use (base.slots ++ index.slots) [])
  | ite cond yes no _ => .branch cond yes no
  | letIn slot value body _ => .seq value [value.binder slot] body
  | letMany slots value body _ => .seq value (slots.map .bind) body
  | reset value token body _ => .seq value [.bind token] body
  | freeReuse token body _ => .before [.use [] [token]] body
  | dup slot body _ => .before [.dup slot] body
  | drop slot body _ => .before [.drop slot] body
  | holeStart hole body _ => .before [.bind hole] body
  | holeFill hole cell _ _ => .after cell [.use [] [hole]]
  | holeClose hole base _ => .after base [.use [] [hole]]
  | join params body _ => .loop params body
  | recur args _ => .back args

end CExpr

/-- How a run ends. -/
inductive Outcome where
  /-- The value is produced. -/
  | done
  /-- Control goes back to the enclosing loop header. -/
  | again
  /-- The run is observed no further. -/
  | cut
  deriving DecidableEq, Repr

section

variable (calls : CallBorrows) (loans : List LocalId)

/-- The loop-carried values that stay on loan, with the slots they come from. -/
def carried : List LocalId → List CExpr → List (LocalId × LocalId)
  | param :: params, .loc slot _ :: args =>
    if param ∈ loans then (param, slot) :: carried params args else carried params args
  | _ :: params, _ :: args => carried params args
  | _, _ => []

/-- A back-edge hands the owned carried values over and lends the borrowed ones. -/
def backEdge (params : List LocalId) (args : List CExpr) : List (Step LocalId) :=
  let flags := params.map fun param => decide (param ∈ loans)
  [.use (CExpr.lent flags args) (CExpr.taken flags args), .carry (carried loans params args)]

/-- The next iteration holds a reference of every owned carried slot. -/
def rebind (params : List LocalId) : List (Step LocalId) :=
  (params.filter fun param => param ∉ loans).map .bind

/-- The steps of an expression along a control path, in a loop that carries `loop`. -/
inductive Runs : List LocalId → CExpr → List (Step LocalId) → Outcome → Prop
  /-- A run observed no further. -/
  | cut {loop : List LocalId} (e : CExpr) : Runs loop e [] .cut
  /-- One operation. -/
  | op {loop : List LocalId} {e : CExpr} {action : Step LocalId}
    (flow : e.shape calls = .op action) : Runs loop e [action] .done
  /-- Steps and a continuation. -/
  | before {loop : List LocalId} {e body : CExpr} {actions steps : List (Step LocalId)}
    {outcome : Outcome} (flow : e.shape calls = .before actions body)
    (next : Runs loop body steps outcome) : Runs loop e (actions ++ steps) outcome
  /-- The first part of a sequence does not produce its value. -/
  | seqStop {loop : List LocalId} {e first rest : CExpr} {actions steps : List (Step LocalId)}
    {outcome : Outcome} (flow : e.shape calls = .seq first actions rest)
    (head : Runs loop first steps outcome) (stopped : outcome ≠ .done) : Runs loop e steps outcome
  /-- Both parts of a sequence. -/
  | seq {loop : List LocalId} {e first rest : CExpr} {actions steps after : List (Step LocalId)}
    {outcome : Outcome} (flow : e.shape calls = .seq first actions rest)
    (head : Runs loop first steps .done) (next : Runs loop rest after outcome) :
    Runs loop e (steps ++ (actions ++ after)) outcome
  /-- The condition does not produce its value. -/
  | branchStop {loop : List LocalId} {e cond yes no : CExpr} {steps : List (Step LocalId)}
    {outcome : Outcome} (flow : e.shape calls = .branch cond yes no)
    (head : Runs loop cond steps outcome) (stopped : outcome ≠ .done) : Runs loop e steps outcome
  /-- The first branch. -/
  | yes {loop : List LocalId} {e cond yes no : CExpr} {steps after : List (Step LocalId)}
    {outcome : Outcome} (flow : e.shape calls = .branch cond yes no)
    (head : Runs loop cond steps .done) (next : Runs loop yes after outcome) :
    Runs loop e (steps ++ after) outcome
  /-- The second branch. -/
  | no {loop : List LocalId} {e cond yes no : CExpr} {steps after : List (Step LocalId)}
    {outcome : Outcome} (flow : e.shape calls = .branch cond yes no)
    (head : Runs loop cond steps .done) (next : Runs loop no after outcome) :
    Runs loop e (steps ++ after) outcome
  /-- An expression that does not produce its value before the steps after it. -/
  | afterStop {loop : List LocalId} {e first : CExpr} {actions steps : List (Step LocalId)}
    {outcome : Outcome} (flow : e.shape calls = .after first actions)
    (head : Runs loop first steps outcome) (stopped : outcome ≠ .done) : Runs loop e steps outcome
  /-- An expression and the steps after it. -/
  | after {loop : List LocalId} {e first : CExpr} {actions steps : List (Step LocalId)}
    (flow : e.shape calls = .after first actions) (head : Runs loop first steps .done) :
    Runs loop e (steps ++ actions) .done
  /-- The last iteration of a loop. -/
  | leave {loop params : List LocalId} {e body : CExpr} {steps : List (Step LocalId)}
    {outcome : Outcome} (flow : e.shape calls = .loop params body)
    (head : Runs params body steps outcome) (left : outcome ≠ .again) : Runs loop e steps outcome
  /-- One iteration of a loop and the others. -/
  | iterate {loop params : List LocalId} {e body : CExpr} {steps after : List (Step LocalId)}
    {outcome : Outcome} (flow : e.shape calls = .loop params body)
    (head : Runs params body steps .again) (next : Runs loop e after outcome) :
    Runs loop e (steps ++ (rebind loans params ++ after)) outcome
  /-- A back-edge. -/
  | back {loop : List LocalId} {e : CExpr} {args : List CExpr}
    (flow : e.shape calls = .back args) : Runs loop e (backEdge loans loop args) .again

/-- Every step of a run that the ledger allows so far meets a guard on the references before it. -/
def Meets (guard : Step LocalId → Book LocalId → Prop) : List (Step LocalId) → Book LocalId → Prop
  | [], _ => True
  | head :: rest, book =>
    guard head book ∧ ∀ next, step loans head book = some next → Meets guard rest next

/-- No run whose steps meet the guard faults, one that produces its value ends in `post` and one
that reaches a back-edge in `back`. -/
def SafeUnder (guard : Step LocalId → Book LocalId → Prop) (loop : List LocalId) (e : CExpr)
    (book : Book LocalId) (post back : Book LocalId → Prop) : Prop :=
  ∀ steps outcome, Runs calls loans loop e steps outcome → Meets loans guard steps book →
    ∃ last, run loans steps book = some last ∧ (outcome = .done → post last) ∧
      (outcome = .again → back last)

/-- No run faults, one that produces its value ends in `post` and one that reaches a back-edge in
`back`. -/
def Safe (loop : List LocalId) (e : CExpr) (book : Book LocalId)
    (post back : Book LocalId → Prop) : Prop :=
  ∀ steps outcome, Runs calls loans loop e steps outcome →
    ∃ last, run loans steps book = some last ∧ (outcome = .done → post last) ∧
      (outcome = .again → back last)

variable {calls loans} {loop : List LocalId} {e : CExpr} {book : Book LocalId}
  {post back : Book LocalId → Prop} {guard : Step LocalId → Book LocalId → Prop}

/-- A run in two parts meets the guard in both. -/
theorem meets_append {first second : List (Step LocalId)} :
    Meets loans guard (first ++ second) book ↔ Meets loans guard first book ∧
      ∀ middle, run loans first book = some middle → Meets loans guard second middle := by
  induction first generalizing book with
  | nil => simp [Meets]
  | cons head rest inductionHypothesis =>
    simp only [List.cons_append, Meets, inductionHypothesis, run_cons]
    cases next : step loans head book with
    | none => simp
    | some middle => simp [and_assoc]

/-- Every run meets the trivial guard. -/
theorem meets_trivial (steps : List (Step LocalId)) :
    Meets loans (fun _ _ => True) steps book := by
  induction steps generalizing book with
  | nil => trivial
  | cons head rest inductionHypothesis => exact ⟨trivial, fun _ _ => inductionHypothesis⟩

/-- Code that is safe under the trivial guard is safe. -/
theorem SafeUnder.safe
    (under : SafeUnder calls loans (fun _ _ => True) loop e book post back) :
    Safe calls loans loop e book post back :=
  fun steps outcome runs => under steps outcome runs (meets_trivial steps)

/-- Safe code is safe under any guard. -/
theorem Safe.under (safe : Safe calls loans loop e book post back) :
    SafeUnder calls loans guard loop e book post back :=
  fun steps outcome runs _ => safe steps outcome runs

/-- Weaker conditions at the ends. -/
theorem SafeUnder.mono {post' back' : Book LocalId → Prop}
    (safe : SafeUnder calls loans guard loop e book post back)
    (weaker : ∀ last, post last → post' last) (weakerBack : ∀ last, back last → back' last) :
    SafeUnder calls loans guard loop e book post' back' := by
  intro steps outcome runs meets
  obtain ⟨last, ran, atDone, atAgain⟩ := safe steps outcome runs meets
  exact ⟨last, ran, fun isDone => weaker _ (atDone isDone),
    fun isAgain => weakerBack _ (atAgain isAgain)⟩

/-! ## Rules for one node -/

/-- One operation is safe when the ledger allows it. -/
theorem under_op {action : Step LocalId} (flow : e.shape calls = .op action)
    (allowed : guard action book → ∃ next, step loans action book = some next ∧ post next) :
    SafeUnder calls loans guard loop e book post back := by
  intro steps outcome runs meets
  cases runs with
  | cut => exact ⟨book, rfl, by simp, by simp⟩
  | op flow' =>
    cases flow.symm.trans flow'
    obtain ⟨next, stepped, holds⟩ := allowed meets.1
    exact ⟨next, by simpa using stepped, fun _ => holds, by simp⟩
  | before flow' | seqStop flow' | seq flow' | branchStop flow' | yes flow' | no flow'
  | afterStop flow' | after flow' | leave flow' | iterate flow' | back flow' =>
    cases flow.symm.trans flow'

/-- Steps and a continuation are safe when the steps are allowed and the continuation is safe. -/
theorem under_before {actions : List (Step LocalId)} {body : CExpr}
    (flow : e.shape calls = .before actions body)
    (allowed : Meets loans guard actions book → ∃ next, run loans actions book = some next ∧
      SafeUnder calls loans guard loop body next post back) :
    SafeUnder calls loans guard loop e book post back := by
  intro steps outcome runs meets
  cases runs with
  | cut => exact ⟨book, rfl, by simp, by simp⟩
  | before flow' inner =>
    cases flow.symm.trans flow'
    obtain ⟨first, others⟩ := meets_append.mp meets
    obtain ⟨next, ran, safe⟩ := allowed first
    rw [run_append, ran, Option.bind_some]
    exact safe _ _ inner (others next ran)
  | op flow' | seqStop flow' | seq flow' | branchStop flow' | yes flow' | no flow'
  | afterStop flow' | after flow' | leave flow' | iterate flow' | back flow' =>
    cases flow.symm.trans flow'

/-- A sequence is safe when its first part is, and leads to steps that are allowed and a
continuation that is safe. -/
theorem under_seq {actions : List (Step LocalId)} {first rest : CExpr}
    (flow : e.shape calls = .seq first actions rest)
    (safe : SafeUnder calls loans guard loop first book (fun middle =>
      Meets loans guard actions middle → ∃ next, run loans actions middle = some next ∧
        SafeUnder calls loans guard loop rest next post back) back) :
    SafeUnder calls loans guard loop e book post back := by
  intro steps outcome runs meets
  cases runs with
  | cut => exact ⟨book, rfl, by simp, by simp⟩
  | seqStop flow' head stopped =>
    cases flow.symm.trans flow'
    obtain ⟨last, ran, _, atAgain⟩ := safe _ _ head meets
    exact ⟨last, ran, fun done => absurd done stopped, atAgain⟩
  | seq flow' head inner =>
    cases flow.symm.trans flow'
    obtain ⟨meetsFirst, meetsRest⟩ := meets_append.mp meets
    obtain ⟨middle, ran, atDone, _⟩ := safe _ _ head meetsFirst
    obtain ⟨meetsActions, meetsInner⟩ := meets_append.mp (meetsRest middle ran)
    obtain ⟨next, ranActions, safeRest⟩ := atDone rfl meetsActions
    rw [run_append, ran, Option.bind_some, run_append, ranActions, Option.bind_some]
    exact safeRest _ _ inner (meetsInner next ranActions)
  | op flow' | before flow' | branchStop flow' | yes flow' | no flow'
  | afterStop flow' | after flow' | leave flow' | iterate flow' | back flow' =>
    cases flow.symm.trans flow'

/-- A branch is safe when its condition is and leads to two safe branches. -/
theorem under_branch {cond yes no : CExpr} (flow : e.shape calls = .branch cond yes no)
    (safe : SafeUnder calls loans guard loop cond book (fun middle =>
      SafeUnder calls loans guard loop yes middle post back ∧
        SafeUnder calls loans guard loop no middle post back) back) :
    SafeUnder calls loans guard loop e book post back := by
  intro steps outcome runs meets
  cases runs with
  | cut => exact ⟨book, rfl, by simp, by simp⟩
  | branchStop flow' head stopped =>
    cases flow.symm.trans flow'
    obtain ⟨last, ran, _, atAgain⟩ := safe _ _ head meets
    exact ⟨last, ran, fun done => absurd done stopped, atAgain⟩
  | yes flow' head inner =>
    cases flow.symm.trans flow'
    obtain ⟨meetsCond, meetsBranch⟩ := meets_append.mp meets
    obtain ⟨middle, ran, atDone, _⟩ := safe _ _ head meetsCond
    rw [run_append, ran, Option.bind_some]
    exact (atDone rfl).1 _ _ inner (meetsBranch middle ran)
  | no flow' head inner =>
    cases flow.symm.trans flow'
    obtain ⟨meetsCond, meetsBranch⟩ := meets_append.mp meets
    obtain ⟨middle, ran, atDone, _⟩ := safe _ _ head meetsCond
    rw [run_append, ran, Option.bind_some]
    exact (atDone rfl).2 _ _ inner (meetsBranch middle ran)
  | op flow' | before flow' | seqStop flow' | seq flow'
  | afterStop flow' | after flow' | leave flow' | iterate flow' | back flow' =>
    cases flow.symm.trans flow'

/-- Steps after a safe expression that leads to them. -/
theorem under_after {actions : List (Step LocalId)} {first : CExpr}
    (flow : e.shape calls = .after first actions)
    (safe : SafeUnder calls loans guard loop first book (fun middle =>
      Meets loans guard actions middle →
        ∃ next, run loans actions middle = some next ∧ post next) back) :
    SafeUnder calls loans guard loop e book post back := by
  intro steps outcome runs meets
  cases runs with
  | cut => exact ⟨book, rfl, by simp, by simp⟩
  | afterStop flow' head stopped =>
    cases flow.symm.trans flow'
    obtain ⟨last, ran, _, atAgain⟩ := safe _ _ head meets
    exact ⟨last, ran, fun done => absurd done stopped, atAgain⟩
  | after flow' head =>
    cases flow.symm.trans flow'
    obtain ⟨meetsFirst, meetsActions⟩ := meets_append.mp meets
    obtain ⟨middle, ran, atDone, _⟩ := safe _ _ head meetsFirst
    obtain ⟨next, ranActions, holds⟩ := atDone rfl (meetsActions middle ran)
    rw [run_append, ran, Option.bind_some, ranActions]
    exact ⟨next, rfl, fun _ => holds, by simp⟩
  | op flow' | before flow' | seqStop flow' | seq flow' | branchStop flow' | yes flow'
  | no flow' | leave flow' | iterate flow' | back flow' => cases flow.symm.trans flow'

/-- A back-edge is safe when its steps are allowed. -/
theorem under_back {args : List CExpr} (flow : e.shape calls = .back args)
    (allowed : Meets loans guard (backEdge loans loop args) book →
      ∃ next, run loans (backEdge loans loop args) book = some next ∧ back next) :
    SafeUnder calls loans guard loop e book post back := by
  intro steps outcome runs meets
  cases runs with
  | cut => exact ⟨book, rfl, by simp, by simp⟩
  | back flow' =>
    cases flow.symm.trans flow'
    obtain ⟨next, ran, holds⟩ := allowed meets
    exact ⟨next, ran, by simp, fun _ => holds⟩
  | op flow' | before flow' | seqStop flow' | seq flow' | branchStop flow' | yes flow'
  | no flow' | afterStop flow' | after flow' | leave flow' | iterate flow' =>
    cases flow.symm.trans flow'

/-- A loop is safe from every state of an invariant that one iteration preserves. -/
theorem under_loop {params : List LocalId} {body : CExpr}
    (flow : e.shape calls = .loop params body) (invariant : Book LocalId → Prop)
    (iteration : ∀ entry, invariant entry →
      SafeUnder calls loans guard params body entry post (fun middle =>
        ∃ next, run loans (rebind loans params) middle = some next ∧ invariant next))
    (holds : invariant book) : SafeUnder calls loans guard loop e book post back := by
  intro steps outcome runs meets
  generalize same : e = header at runs
  induction runs generalizing book with
  | cut => exact ⟨book, rfl, by simp, by simp⟩
  | leave flow' head left _ =>
    subst same
    cases flow.symm.trans flow'
    obtain ⟨last, ran, atDone, _⟩ := iteration book holds _ _ head meets
    exact ⟨last, ran, atDone, fun again => absurd again left⟩
  | iterate flow' head next _ inductionHypothesis =>
    subst same
    cases flow.symm.trans flow'
    obtain ⟨meetsHead, meetsRest⟩ := meets_append.mp meets
    obtain ⟨middle, ran, _, atAgain⟩ := iteration book holds _ _ head meetsHead
    obtain ⟨entry, rebound, again⟩ := atAgain rfl
    obtain ⟨_, meetsNext⟩ := meets_append.mp (meetsRest middle ran)
    rw [run_append, ran, Option.bind_some, run_append, rebound, Option.bind_some]
    exact inductionHypothesis again (meetsNext entry rebound) rfl
  | op flow' | before flow' _ _ | seqStop flow' _ _ _ | seq flow' _ _ _ _
  | branchStop flow' _ _ _ | yes flow' _ _ _ _ | no flow' _ _ _ _ | afterStop flow' _ _ _
  | after flow' _ _ | back flow' =>
    subst same
    cases flow.symm.trans flow'

/-! ## Exact rules -/

/-- One operation is safe exactly when the ledger allows it. -/
theorem safe_op {action : Step LocalId} (flow : e.shape calls = .op action) :
    Safe calls loans loop e book post back ↔
      ∃ next, step loans action book = some next ∧ post next := by
  constructor
  · intro safe
    obtain ⟨last, ran, atDone, _⟩ := safe _ _ (.op flow)
    exact ⟨last, by simpa using ran, atDone rfl⟩
  · intro allowed
    exact (under_op flow fun _ => allowed).safe

/-- Steps and a continuation are safe exactly when the steps are allowed and the continuation is
safe. -/
theorem safe_before {actions : List (Step LocalId)} {body : CExpr}
    (flow : e.shape calls = .before actions body) :
    Safe calls loans loop e book post back ↔
      ∃ next, run loans actions book = some next ∧
        Safe calls loans loop body next post back := by
  constructor
  · intro safe
    obtain ⟨last, ran, _⟩ := safe _ _ (.before flow (.cut body))
    rw [List.append_nil] at ran
    refine ⟨last, ran, fun steps outcome runs => ?_⟩
    have whole := safe _ _ (.before flow runs)
    rwa [run_append, ran, Option.bind_some] at whole
  · rintro ⟨next, ran, safe⟩
    exact (under_before flow fun _ => ⟨next, ran, safe.under⟩).safe

/-- A sequence is safe exactly when its first part is, and leads to steps that are allowed and a
continuation that is safe. -/
theorem safe_seq {actions : List (Step LocalId)} {first rest : CExpr}
    (flow : e.shape calls = .seq first actions rest) :
    Safe calls loans loop e book post back ↔
      Safe calls loans loop first book (fun middle => ∃ next, run loans actions middle = some next ∧
        Safe calls loans loop rest next post back) back := by
  constructor
  · intro safe steps outcome runs
    by_cases isDone : outcome = .done
    · subst isDone
      obtain ⟨last, ran, _⟩ := safe _ _ (.seq flow runs (.cut rest))
      rw [run_append] at ran
      obtain ⟨middle, ranFirst, ranActions⟩ := Option.bind_eq_some_iff.mp ran
      rw [List.append_nil] at ranActions
      refine ⟨middle, ranFirst, fun _ =>
        ⟨last, ranActions, fun after outcome' runs' => ?_⟩, by simp⟩
      have whole := safe _ _ (.seq flow runs runs')
      rwa [run_append, ranFirst, Option.bind_some, run_append, ranActions,
        Option.bind_some] at whole
    · obtain ⟨last, ran, _, atAgain⟩ := safe _ _ (.seqStop flow runs isDone)
      exact ⟨last, ran, fun done => absurd done isDone, atAgain⟩
  · intro safe
    refine (under_seq flow (safe.under.mono ?_ fun _ holds => holds)).safe
    rintro middle ⟨next, ran, safeRest⟩ _
    exact ⟨next, ran, safeRest.under⟩

/-- A branch is safe exactly when its condition is and leads to two safe branches. -/
theorem safe_branch {cond yes no : CExpr} (flow : e.shape calls = .branch cond yes no) :
    Safe calls loans loop e book post back ↔
      Safe calls loans loop cond book (fun middle => Safe calls loans loop yes middle post back ∧
        Safe calls loans loop no middle post back) back := by
  constructor
  · intro safe steps outcome runs
    by_cases isDone : outcome = .done
    · subst isDone
      obtain ⟨middle, ran, _⟩ := safe _ _ (.yes flow runs (.cut yes))
      rw [List.append_nil] at ran
      refine ⟨middle, ran, fun _ => ⟨fun after outcome' runs' => ?_,
        fun after outcome' runs' => ?_⟩, by simp⟩
      · have whole := safe _ _ (.yes flow runs runs')
        rwa [run_append, ran, Option.bind_some] at whole
      · have whole := safe _ _ (.no flow runs runs')
        rwa [run_append, ran, Option.bind_some] at whole
    · obtain ⟨last, ran, _, atAgain⟩ := safe _ _ (.branchStop flow runs isDone)
      exact ⟨last, ran, fun done => absurd done isDone, atAgain⟩
  · intro safe
    refine (under_branch flow (safe.under.mono ?_ fun _ holds => holds)).safe
    exact fun middle both => ⟨both.1.under, both.2.under⟩

/-- Runs of safe code never touch a freed cell, in any heap with the references of its book, and
when its value is produced the heap has the references the last book counts. -/
theorem SafeUnder.heap {γ : Type} [DecidableEq γ] {inside : γ → Option γ} {caller : Multiset γ}
    {heap : Heap LocalId γ} (safe : SafeUnder calls loans guard loop e book post back)
    (represents : Represents inside loans caller book heap) {steps : List (Step LocalId)}
    {outcome : Outcome} (runs : Runs calls loans loop e steps outcome)
    (meets : Meets loans guard steps book) :
    heap.Safe inside steps ∧ ∀ final, Heap.Execution inside heap steps final →
      outcome = .done → ∃ last, post last ∧ Represents inside loans caller last final := by
  obtain ⟨last, ran, atDone, _⟩ := safe steps outcome runs meets
  refine ⟨represents.safe ran, fun final reached isDone => ?_⟩
  exact ⟨last, atDone isDone, represents.execution ran reached⟩

end

end Fai
