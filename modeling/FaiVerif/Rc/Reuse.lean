import FaiVerif.Core.Ir
import FaiVerif.Lib.Search

/-!
# The local reuse pass

`reuse_pass` of `fai-rc`: the drop of a dead data cell becomes a reset whose token a later
construction builds into. The search that decides whether a construction is reachable and the
threading that attaches the token are separate recursions, in a size-blind form and in the
field-count-aware form of `reuse_sizes.rs`. Arms the source marks unreachable give no result.
-/

namespace Fai

namespace Reuse

/-- `niche_wrapper_free`: a niche `Some` is its payload and allocates no cell. -/
def nicheWrapperFree (niche : Option NicheKind) : Bool := niche.isSome

/-- `is_reuse_target`: a non-nullary, non-niche construction with no token yet. -/
def isReuseTarget : CExpr → Bool
  | .makeData _ args none _ niche _ => !args.isEmpty && !nicheWrapperFree niche
  | _ => false

/-- `attach_reuse`: give a token to a construction. -/
def attachReuse (token : LocalId) : CExpr → Option CExpr
  | .makeData tag args none scalars niche ty =>
    some (.makeData tag args (some token) scalars niche ty)
  | _ => none

/-- `drop_`. -/
def dropThen (slot : LocalId) (body : CExpr) : CExpr := .drop slot body body.ty

/-- `dup_`. -/
def dupThen (slot : LocalId) (body : CExpr) : CExpr := .dup slot body body.ty

/-- `reset_`. -/
def resetThen (slot token : LocalId) (body : CExpr) : CExpr :=
  .reset (.loc slot .error) token body body.ty

/-- `free_reuse_`. -/
def freeReuseThen (token : LocalId) (body : CExpr) : CExpr := .freeReuse token body body.ty

mutual

/-- `has_construction`: whether a non-nullary construction without a token occurs. -/
def hasConstruction : CExpr → Bool
  | .makeData _ args reuse _ niche _ =>
    (reuse.isNone && !args.isEmpty && !nicheWrapperFree niche) || anyConstruction args
  | .letIn _ value body _ | .letMany _ value body _ | .reset value _ body _ =>
    hasConstruction value || hasConstruction body
  | .ite cond yes no _ => hasConstruction cond || hasConstruction yes || hasConstruction no
  | .freeReuse _ body _ | .dup _ body _ | .drop _ body _ | .join _ body _
  | .holeStart _ body _ => hasConstruction body
  | .prim _ args _ | .foreign _ args _ _ | .spread args _ | .recur args _ => anyConstruction args
  | .app func args _ _ _ => hasConstruction func || anyConstruction args
  | .dataTag base _ _ | .dataField base _ _ _ _ | .holeClose _ base _ => hasConstruction base
  | .holeFill _ cell _ _ => hasConstruction cell
  | .lit _ _ | .loc _ _ | .global _ _ | .makeClosure _ _ _ _ | .error _ => false

/-- Whether an operand has a construction without a token. -/
def anyConstruction : List CExpr → Bool
  | [] => false
  | head :: tail => hasConstruction head || anyConstruction tail

end

/-- `reaches_construction`: whether threading a token reaches a construction. -/
def reachesConstruction : CExpr → Bool
  | .makeData _ args reuse _ niche _ =>
    reuse.isNone && !args.isEmpty && !nicheWrapperFree niche
  | .letIn _ value body _ => isReuseTarget value || reachesConstruction body
  | .ite _ yes no _ => reachesConstruction yes || reachesConstruction no
  | .dup _ body _ | .drop _ body _ | .reset _ _ body _ => reachesConstruction body
  | _ => false

/-- `thread_or_free`: attach a token to the first construction of every path, or free it. -/
def threadOrFree (token : LocalId) : CExpr → Option CExpr
  | .makeData tag args reuse scalars niche ty =>
    if reuse.isNone && !args.isEmpty && !nicheWrapperFree niche then
      some (.makeData tag args (some token) scalars niche ty)
    else some (freeReuseThen token (.makeData tag args reuse scalars niche ty))
  | .letIn slot value body ty =>
    if isReuseTarget value then
      (attachReuse token value).map fun value => .letIn slot value body ty
    else (threadOrFree token body).map fun body => .letIn slot value body ty
  | .ite cond yes no ty =>
    (threadOrFree token yes).bind fun yes =>
      (threadOrFree token no).map fun no => .ite cond yes no ty
  | .dup slot body ty => (threadOrFree token body).map fun body => .dup slot body ty
  | .drop slot body ty => (threadOrFree token body).map fun body => .drop slot body ty
  | .reset value other body ty =>
    (threadOrFree token body).map fun body => .reset value other body ty
  | e => some (freeReuseThen token e)

/-- `release`: place the release of a dead cell, recycling its memory where possible. -/
def release (slot : LocalId) (e : CExpr) : StateT Nat Option CExpr :=
  if !hasConstruction e then return dropThen slot e
  else if reachesConstruction e then fun next =>
    (threadOrFree next e).map fun body => (resetThen slot next body, next + 1)
  else
    match e with
    | .ite cond yes no ty => return .ite cond (← release slot yes) (← release slot no) ty
    | .letIn bound value body ty => return .letIn bound value (← release slot body) ty
    | .dup other body ty => return .dup other (← release slot body) ty
    | .drop other body ty => return .drop other (← release slot body) ty
    | .reset value token body ty => return .reset value token (← release slot body) ty
    | e => return dropThen slot e

/-! ## Field-count-aware selection -/

/-- The declarations `reuse_sizes::class` reads. -/
structure TypeDb where
  /-- The niche scheme of a type. -/
  nicheScheme : Ty → Option NicheKind
  /-- The constructor arities of a transparent data type, a missing constructor having none. -/
  ctorArities : NominalRef → Option (List (Option Nat))

/-- The one positive arity of the constructors, zero when all are nullary. -/
def uniformArity : Option Nat → List (Option Nat) → Option Nat
  | fields, [] => some (fields.getD 0)
  | _, none :: _ => none
  | fields, some 0 :: rest => uniformArity fields rest
  | none, some arity :: rest => uniformArity (some arity) rest
  | some old, some arity :: rest => if old = arity then uniformArity (some old) rest else none

/-- `class`: the field count every cell of a type has, zero for a wrapper-free one. -/
def sizeClass (db : TypeDb) (ty : Ty) : Option Nat :=
  if (db.nicheScheme ty).isSome then some 0
  else
    match ty with
    | .tuple fields => some fields.length
    | .record fields .closed => some fields.length
    | .con .list => some 2
    | .app head _ => sizeClass db head
    | .adt ref => (db.ctorArities ref).bind (uniformArity none)
    | _ => none

/-- The classes of locals observed so far; conflicting observations leave none. -/
abbrev Sizes := List (LocalId × Option Nat)

/-- One observation of a local at a type. -/
def Sizes.observe (db : TypeDb) (sizes : Sizes) (slot : LocalId) (ty : Ty) : Sizes :=
  if ty = .error then sizes
  else
    match sizes.lookup slot with
    | none => (slot, sizeClass db ty) :: sizes
    | some old =>
      if old = sizeClass db ty then sizes
      else sizes.map fun entry => if entry.1 = slot then (slot, none) else entry

mutual

/-- `collect` of `reuse_sizes`: observe every use and every binding. -/
def collectSizes (db : TypeDb) : CExpr → Sizes → Sizes
  | .loc slot ty, sizes => sizes.observe db slot ty
  | .letIn slot value body _, sizes =>
    collectSizes db body (collectSizes db value (sizes.observe db slot value.ty))
  | .prim _ args _, sizes | .foreign _ args _ _, sizes | .makeData _ args _ _ _ _, sizes
  | .recur args _, sizes | .spread args _, sizes => collectSizesList db args sizes
  | .app func args _ _ _, sizes => collectSizesList db args (collectSizes db func sizes)
  | .ite cond yes no _, sizes =>
    collectSizes db no (collectSizes db yes (collectSizes db cond sizes))
  | .reset value _ body _, sizes | .letMany _ value body _, sizes =>
    collectSizes db body (collectSizes db value sizes)
  | .freeReuse _ body _, sizes | .dup _ body _, sizes | .drop _ body _, sizes
  | .join _ body _, sizes | .holeStart _ body _, sizes => collectSizes db body sizes
  | .dataTag base _ _, sizes | .dataField base _ _ _ _, sizes | .holeClose _ base _, sizes =>
    collectSizes db base sizes
  | .holeFill _ cell _ _, sizes => collectSizes db cell sizes
  | .lit _ _, sizes | .global _ _, sizes | .makeClosure _ _ _ _, sizes | .error _, sizes => sizes

/-- Observe operands in order. -/
def collectSizesList (db : TypeDb) : List CExpr → Sizes → Sizes
  | [], sizes => sizes
  | head :: tail, sizes => collectSizesList db tail (collectSizes db head sizes)

end

/-- `target`: a reuse target with the wanted number of fields. -/
def target (fields : Nat) (e : CExpr) : Bool :=
  isReuseTarget e &&
    match e with
    | .makeData _ args _ _ _ _ => args.length == fields
    | _ => false

mutual

/-- `simple`: no call, foreign call or primitive within the budget. -/
def simple : CExpr → Search
  | .app _ _ _ _ _ | .foreign _ _ _ _ | .prim _ _ _ => Search.step (Search.answer false)
  | .makeData _ args _ _ _ _ | .recur args _ | .spread args _ => Search.step (allSimple args)
  | .ite cond yes no _ =>
    Search.step (Search.both (simple cond) (Search.both (simple yes) (simple no)))
  | .letIn _ value body _ | .reset value _ body _ | .letMany _ value body _ =>
    Search.step (Search.both (simple value) (simple body))
  | .freeReuse _ body _ | .dup _ body _ | .drop _ body _ | .join _ body _
  | .holeStart _ body _ => Search.step (simple body)
  | .dataTag base _ _ | .dataField base _ _ _ _ | .holeClose _ base _ =>
    Search.step (simple base)
  | .holeFill _ cell _ _ => Search.step (simple cell)
  | .lit _ _ | .loc _ _ | .global _ _ | .makeClosure _ _ _ _ | .error _ =>
    Search.step (Search.answer true)

/-- Every operand is simple. -/
def allSimple : List CExpr → Search
  | [] => Search.answer true
  | head :: tail => Search.both (simple head) (allSimple tail)

end

/-- `reaches`: whether threading reaches a construction of the wanted size within the budget. Once
a construction was skipped, calls and primitives end the search. -/
def reaches (fields : Nat) (skipped : Bool) : CExpr → Search
  | .makeData tag args reuse scalars niche ty =>
    Search.step (Search.answer (target fields (.makeData tag args reuse scalars niche ty)))
  | .letIn _ value body _ =>
    Search.step (Search.both (if skipped then simple value else Search.answer true)
      (if target fields value then Search.answer true
        else reaches fields (skipped || isReuseTarget value) body))
  | .ite cond yes no _ =>
    Search.step (Search.both (if skipped then simple cond else Search.answer true)
      (Search.either (reaches fields skipped yes) (reaches fields skipped no)))
  | .dup _ body _ | .drop _ body _ | .reset _ _ body _ =>
    Search.step (reaches fields skipped body)
  | _ => Search.step (Search.answer false)

/-- `SEARCH_BUDGET`. -/
def searchBudget : Nat := 256

/-- `thread`: attach a token to the construction the search found, or free it. -/
def thread (token : LocalId) (fields : Nat) (skipped : Bool) (e : CExpr) : Option CExpr :=
  if !(reaches fields skipped e searchBudget).1 then some (freeReuseThen token e)
  else
    match e with
    | .makeData tag args reuse scalars niche ty =>
      attachReuse token (.makeData tag args reuse scalars niche ty)
    | .letIn slot value body ty =>
      if target fields value then
        (attachReuse token value).map fun value => .letIn slot value body ty
      else
        (thread token fields (skipped || isReuseTarget value) body).map fun body =>
          .letIn slot value body ty
    | .ite cond yes no ty =>
      (thread token fields skipped yes).bind fun yes =>
        (thread token fields skipped no).map fun no => .ite cond yes no ty
    | .dup slot body ty =>
      (thread token fields skipped body).map fun body => .dup slot body ty
    | .drop slot body ty =>
      (thread token fields skipped body).map fun body => .drop slot body ty
    | .reset value other body ty =>
      (thread token fields skipped body).map fun body => .reset value other body ty
    | _ => none

/-- `release` of `reuse_sizes`. -/
def releaseSized (slot : LocalId) (body : CExpr) (fields : Nat) : StateT Nat Option CExpr :=
  if fields = 0 ∨ (reaches fields false body searchBudget).1 = false then
    return dropThen slot body
  else fun next =>
    (thread next fields false body).map fun body => (resetThen slot next body, next + 1)

/-! ## Candidates -/

/-- `ReuseCandidates`: candidate cells, pointer aliases, projection parents and size classes. -/
structure ReuseCandidates where
  /-- The candidate locals. -/
  data : List LocalId
  /-- The local an alias stands for. -/
  roots : List (LocalId × LocalId)
  /-- The locals that have an alias. -/
  aliased : List LocalId
  /-- The parent a projected local was read from. -/
  owners : List (LocalId × LocalId)
  /-- The size classes. -/
  sizes : Sizes

namespace ReuseCandidates

/-- `fields`: the known field count of a local's cell. -/
def fields (c : ReuseCandidates) (slot : LocalId) : Option Nat := (c.sizes.lookup slot).join

/-- `root`: what a local is an alias of. -/
def root (c : ReuseCandidates) (slot : LocalId) : LocalId := (c.roots.lookup slot).getD slot

/-- The expression under leading dups and drops. -/
def peelCounts : CExpr → CExpr
  | .dup _ body _ | .drop _ body _ => peelCounts body
  | e => e

/-- What a binding says of aliases and parents. -/
def note (c : ReuseCandidates) (slot : LocalId) (value : CExpr) : ReuseCandidates :=
  match peelCounts value with
  | .loc other _ =>
    { c with roots := (slot, c.root other) :: c.roots, aliased := c.root other :: c.aliased }
  | .dataField (.loc parent _) _ _ _ _ => { c with owners := (slot, c.root parent) :: c.owners }
  | .prim .arrayGet (.loc parent _ :: _) _ =>
    { c with owners := (slot, c.root parent) :: c.owners }
  | _ => c

mutual

/-- `collect`: record the aliases and parents of every binding. -/
def collect : CExpr → ReuseCandidates → ReuseCandidates
  | .letIn slot value body _, c => collect body ((collect value c).note slot value)
  | .prim _ args _, c | .foreign _ args _ _, c | .makeData _ args _ _ _ _, c | .recur args _, c
  | .spread args _, c => collectList args c
  | .app func args _ _ _, c => collectList args (collect func c)
  | .ite cond yes no _, c => collect no (collect yes (collect cond c))
  | .reset value _ body _, c | .letMany _ value body _, c => collect body (collect value c)
  | .freeReuse _ body _, c | .dup _ body _, c | .drop _ body _, c | .join _ body _, c
  | .holeStart _ body _, c => collect body c
  | .dataTag base _ _, c | .dataField base _ _ _ _, c | .holeClose _ base _, c => collect base c
  | .holeFill _ cell _ _, c => collect cell c
  | .lit _ _, c | .loc _ _, c | .global _ _, c | .makeClosure _ _ _ _, c | .error _, c => c

/-- Record the bindings of operands. -/
def collectList : List CExpr → ReuseCandidates → ReuseCandidates
  | [], c => c
  | head :: tail, c => collectList tail (collect head c)

end

/-- `new`, then `with_sizes`. -/
def new (db : TypeDb) (body : CExpr) (data : List LocalId) : ReuseCandidates :=
  { collect body ⟨data, [], [], [], []⟩ with sizes := collectSizes db body [] }

mutual

/-- `mentions`: whether an expression uses a local or an alias of it, within the budget. -/
def mentions (c : ReuseCandidates) (wanted : LocalId) : CExpr → Search
  | .loc slot _ => Search.step (Search.answer (c.root slot == wanted))
  | .drop slot body _ | .dup slot body _ =>
    Search.step (if c.root slot == wanted then Search.answer true else mentions c wanted body)
  | .makeClosure _ captures _ _ =>
    Search.step (Search.answer (captures.any (c.root · == wanted)))
  | .prim _ args _ | .foreign _ args _ _ | .makeData _ args _ _ _ _ | .recur args _
  | .spread args _ => Search.step (anyMentions c wanted args)
  | .app func args _ _ _ =>
    Search.step (Search.either (mentions c wanted func) (anyMentions c wanted args))
  | .ite cond yes no _ =>
    Search.step (Search.either (mentions c wanted cond)
      (Search.either (mentions c wanted yes) (mentions c wanted no)))
  | .letIn _ value body _ | .reset value _ body _ | .letMany _ value body _ =>
    Search.step (Search.either (mentions c wanted value) (mentions c wanted body))
  | .freeReuse _ body _ | .join _ body _ | .holeStart _ body _ =>
    Search.step (mentions c wanted body)
  | .dataTag base _ _ | .dataField base _ _ _ _ | .holeClose _ base _ =>
    Search.step (mentions c wanted base)
  | .holeFill _ cell _ _ => Search.step (mentions c wanted cell)
  | .lit _ _ | .global _ _ | .error _ => Search.step (Search.answer false)

/-- Whether an operand mentions a local. -/
def anyMentions (c : ReuseCandidates) (wanted : LocalId) : List CExpr → Search
  | [] => Search.answer false
  | head :: tail => Search.either (mentions c wanted head) (anyMentions c wanted tail)

end

/-- The bounded climb over projection parents: no live one keeps the cell shared. -/
def parentsDead (c : ReuseCandidates) (continuation : CExpr) : Nat → LocalId → Nat → Bool
  | 0, _, _ => true
  | rounds + 1, slot, budget =>
    match c.owners.lookup slot with
    | none => true
    | some parent =>
      let (found, budget) := c.mentions parent continuation budget
      !found && parentsDead c continuation rounds parent budget

/-- `can_reuse`: a candidate that no live alias or parent keeps shared. -/
def canReuse (c : ReuseCandidates) (slot : LocalId) (continuation : CExpr) : Bool :=
  c.data.contains slot &&
    let (found, budget) :=
      if c.aliased.contains (c.root slot) then c.mentions (c.root slot) continuation 512
      else (false, 512)
    !found && c.parentsDead continuation 32 (c.root slot) budget

end ReuseCandidates

/-! ## The pass -/

mutual

/-- `reuse_pass`, threading the next fresh token. -/
def reusePass (data : ReuseCandidates) : CExpr → StateT Nat Option CExpr
  | .drop slot body _ => do
    let reusable := data.canReuse slot body
    let body ← reusePass data body
    if reusable then
      match data.fields slot with
      | some fields => releaseSized slot body fields
      | none => release slot body
    else return dropThen slot body
  | .dup slot body _ => return dupThen slot (← reusePass data body)
  | .letIn slot value body ty =>
    return .letIn slot (← reusePass data value) (← reusePass data body) ty
  | .ite cond yes no ty =>
    return .ite (← reusePass data cond) (← reusePass data yes) (← reusePass data no) ty
  | .reset value token body ty => return .reset value token (← reusePass data body) ty
  | .freeReuse token body ty => return .freeReuse token (← reusePass data body) ty
  | .prim op args ty => return .prim op (← reusePassList data args) ty
  | .foreign symbol args marshalled ty =>
    return .foreign symbol (← reusePassList data args) marshalled ty
  | .makeData tag args reuse scalars niche ty =>
    return .makeData tag (← reusePassList data args) reuse scalars niche ty
  | .spread components ty => return .spread (← reusePassList data components) ty
  | .letMany slots value body ty =>
    return .letMany slots (← reusePass data value) (← reusePass data body) ty
  | .app func args reuse alloc ty =>
    return .app (← reusePass data func) (← reusePassList data args) reuse alloc ty
  | .dataTag base niche ty => return .dataTag (← reusePass data base) niche ty
  | .dataField base index scalar niche ty =>
    return .dataField (← reusePass data base) index scalar niche ty
  | .join _ _ _ | .recur _ _ | .holeStart _ _ _ | .holeFill _ _ _ _ | .holeClose _ _ _ => failure
  | .loc slot ty => return .loc slot ty
  | .lit value ty => return .lit value ty
  | .global target ty => return .global target ty
  | .makeClosure func captures alloc ty => return .makeClosure func captures alloc ty
  | .error ty => return .error ty

/-- `reuse_pass` on operands, in order. -/
def reusePassList (data : ReuseCandidates) : List CExpr → StateT Nat Option (List CExpr)
  | [] => return []
  | head :: tail => return (← reusePass data head) :: (← reusePassList data tail)

end

end Reuse

end Fai
