import FaiVerif.Core.Ir
import FaiVerif.Lib.Descent
import Mathlib.Data.Finset.Basic

/-!
# Borrow inference

`borrow.rs` and `borrow_scan.rs` of `fai-rc`. A function starts with every parameter borrowed; a
scan of its body collects the parameters whose values escape, and these are demoted until nothing
changes. Two adjustments follow: parameters with a boundary representation of their own are owned,
and the root of a bounded scan of a scalar list is borrowed.
-/

namespace Fai

namespace Borrow

/-- Which parameters are borrowed, by position. -/
abbrev BorrowSig := List Bool

/-- `is_borrowed`. -/
def BorrowSig.isBorrowed (sig : BorrowSig) (index : Nat) : Bool := sig.getD index false

/-- `exploitable_at`: a call with this many arguments saturates the parameters. -/
def BorrowSig.exploitableAt (sig : BorrowSig) (nargs : Nat) : Bool :=
  !sig.isEmpty && decide (sig.length ≤ nargs)

/-- What the analysis of one function reads: itself under the signature in progress, and the
signatures of the other definitions (empty for one without a source file). -/
structure Context where
  /-- The function's own definition. -/
  selfDef : DefId
  /-- The signature in progress. -/
  selfSig : BorrowSig
  /-- The parameters. -/
  params : List LocalId
  /-- The other definitions' signatures. -/
  signatures : DefId → BorrowSig

/-- The state of `Analyzer`. -/
structure Analyzer where
  /-- The parameter each local is a projection or an alias of, if any. -/
  origins : LocalId → Option LocalId
  /-- Locals that are a projected field. -/
  field : Finset LocalId
  /-- Parameters whose contents escape. -/
  owned : Finset LocalId
  /-- Parameters of which a cell is projected. -/
  matched : Finset LocalId
  /-- Whether the body constructs data or array storage. -/
  reconstructs : Bool

namespace Analyzer

/-- `origin`: the parameter an expression's value derives from. -/
def origin (st : Analyzer) : CExpr → Option LocalId
  | .loc slot _ => st.origins slot
  | .dataField base _ _ _ _ => st.origin base
  | _ => none

/-- `is_field`: the value is a projected field rather than a whole value. -/
def isField (st : Analyzer) : CExpr → Bool
  | .loc slot _ => decide (slot ∈ st.field)
  | .dataField _ _ _ _ _ => true
  | _ => false

/-- Own the parameter of an origin. -/
def own (st : Analyzer) : Option LocalId → Analyzer
  | some param => { st with owned := insert param st.owned }
  | none => st

/-- `consume`: the value is retained. -/
def consume (st : Analyzer) (e : CExpr) : Analyzer := st.own (st.origin e)

/-- `inspect`: a primitive reads the value, which owns a whole parameter and not a field. -/
def inspect (st : Analyzer) (e : CExpr) : Analyzer := if st.isField e then st else st.consume e

/-- `consume_local`. -/
def consumeLocal (st : Analyzer) (slot : LocalId) : Analyzer := st.own (st.origins slot)

/-- `record_match`: a cell of the base's parameter is projected. -/
def recordMatch (st : Analyzer) (base : CExpr) : Analyzer :=
  match st.origin base with
  | some param => { st with matched := insert param st.matched }
  | none => st

/-- The body constructs storage when `build` holds. -/
def rebuild (st : Analyzer) (build : Bool) : Analyzer :=
  { st with reconstructs := st.reconstructs || build }

/-- The naming half of `scan_value`: an alias inherits the origin and the field status of what it
names, a projection the origin of its base. -/
def nameValue (st : Analyzer) (slot : LocalId) : CExpr → Analyzer
  | .loc other _ =>
    { st with
      origins := fun name =>
        if name = slot then (st.origins other).or (st.origins slot) else st.origins name
      field := if other ∈ st.field then insert slot st.field else st.field }
  | .dataField base _ _ _ _ =>
    { st with
      origins := fun name =>
        if name = slot then (st.origin base).or (st.origins slot) else st.origins name
      field := insert slot st.field }
  | _ => st

end Analyzer

/-- The primitives that read a cell of their first operand, an array. -/
def matchesArray : Prim → Bool
  | .arrayGet | .arrayPeek | .arrayTake => true
  | _ => false

/-- The primitives that construct array storage. -/
def buildsArray : Prim → Bool
  | .arrayWithCapacity | .arrayRepeat | .arrayPush | .arrayPushReserved | .arraySet | .arrayPut
  | .arrayUnique => true
  | _ => false

/-- Whether a primitive borrows the operand at a position. -/
def borrowsAt (op : Prim) (args : List CExpr) (index : Nat) : Bool :=
  match args with
  | first :: _ => op.borrowsArgument index first.ty
  | [] => false

/-- The definition a call targets directly. -/
def target : CExpr → Option DefId
  | .global callee _ => some callee
  | _ => none

namespace Context

/-- `call_arg_borrows`: the flags of a saturated direct call, or no borrowed argument. -/
def callArgBorrows (cx : Context) (callee : Option DefId) (nargs : Nat) : List Bool :=
  match callee with
  | some callee =>
    let sig := if callee = cx.selfDef then cx.selfSig else cx.signatures callee
    if sig.exploitableAt nargs then sig else List.replicate nargs false
  | none => List.replicate nargs false

/-- `is_self_call`. -/
def isSelfCall (cx : Context) (callee : Option DefId) (nargs : Nat) : Bool :=
  decide (callee = some cx.selfDef) && nargs == cx.selfSig.length

/-- The argument is the parameter of its own position, as a whole. -/
def unchanged (cx : Context) (st : Analyzer) (index : Nat) (arg : CExpr) : Bool :=
  match cx.params[index]? with
  | some param => decide (st.origin arg = some param) && !st.isField arg
  | none => false

/-- What a call does with one argument: a tail call of itself owns a changing slot, and an argument
is consumed unless its position borrows it. -/
def passArg (cx : Context) (selfTail : Bool) (borrows : List Bool) (index : Nat) (arg : CExpr)
    (st : Analyzer) : Analyzer :=
  let changed := selfTail && !cx.unchanged st index arg
  let st' := if changed then st.own cx.params[index]? else st
  if changed || !borrows.getD index false then st'.consume arg else st'

end Context

mutual

/-- `scan`, with `scan_value` for the value of a `let`: naming a value and scanning it. -/
def scan (cx : Context) : CExpr → Bool → Analyzer → Analyzer
  | .loc slot ty, tail, st => if tail then st.consume (.loc slot ty) else st
  | .lit _ _, _, st | .global _ _, _, st | .error _, _, st => st
  | .letIn slot value body _, tail, st =>
    scan cx body tail (scan cx value false (st.nameValue slot value))
  | .spread components _, _, st =>
    scanArgs cx (fun _ arg st => st.consume arg) components 0 st
  | .letMany _ value body _, tail, st => scan cx body tail (scan cx value false st)
  | .ite cond yes no _, tail, st =>
    scan cx no tail (scan cx yes tail (scan cx cond false st))
  | .prim op args _, _, st =>
    let st := match args with
      | array :: _ => if matchesArray op then st.recordMatch array else st
      | [] => st
    scanArgs cx (fun index arg st => if borrowsAt op args index then st else st.inspect arg) args 0
      (st.rebuild (buildsArray op))
  | .foreign _ args _ _, _, st => scanArgs cx (fun _ arg st => st.inspect arg) args 0 st
  | .makeData _ args _ _ niche _, _, st =>
    scanArgs cx (fun _ arg st => st.consume arg) args 0
      (st.rebuild (!args.isEmpty && niche.isNone))
  | .makeClosure _ captures _ _, _, st => captures.foldl Analyzer.consumeLocal st
  | .app func args _ _ _, tail, st =>
    let st := (scan cx func false st).consume func
    let selfTail := tail && cx.isSelfCall (target func) args.length
    scanArgs cx (cx.passArg selfTail (cx.callArgBorrows (target func) args.length)) args 0 st
  | .dataTag base _ _, _, st => scan cx base false (st.recordMatch base)
  | .dataField base _ _ _ _, _, st => scan cx base false (st.recordMatch base)
  | .reset _ _ _ _, _, st | .freeReuse _ _ _, _, st | .dup _ _ _, _, st | .drop _ _ _, _, st
  | .join _ _ _, _, st | .recur _ _, _, st | .holeStart _ _ _, _, st | .holeFill _ _ _ _, _, st
  | .holeClose _ _ _, _, st => st

/-- Scan operands in order, each followed by what the operation does with it. -/
def scanArgs (cx : Context) (act : Nat → CExpr → Analyzer → Analyzer) :
    List CExpr → Nat → Analyzer → Analyzer
  | [], _, st => st
  | arg :: rest, index, st =>
    scanArgs cx act rest (index + 1) (act index arg (scan cx arg false st))

end

/-- The state before the body is scanned: every parameter is its own origin. -/
def entryState (params : List LocalId) : Analyzer where
  origins := fun slot => if slot ∈ params then some slot else none
  field := ∅
  owned := ∅
  matched := ∅
  reconstructs := false

/-- `analyze`. -/
def analyze (cx : Context) (body : CExpr) : Analyzer := scan cx body true (entryState cx.params)

/-- Whether the facts of an analysis own a parameter: it escapes, or a cell of it is projected by a
body that constructs storage. -/
def demotes (facts : Analyzer) (param : LocalId) : Bool :=
  decide (param ∈ facts.owned) || (facts.reconstructs && decide (param ∈ facts.matched))

/-- One round of the demotion loop. -/
def demoteRound (cx : Context) (body : CExpr) : BorrowSig :=
  List.zipWith (fun flag param => flag && !demotes (analyze cx body) param) cx.selfSig cx.params

/-- The demotion loop, which ends when a round changes nothing; `fuel` bounds its rounds. -/
def demoteLoop (selfDef : DefId) (params : List LocalId) (signatures : DefId → BorrowSig)
    (body : CExpr) : Nat → BorrowSig → BorrowSig :=
  Descent.loop fun sig => demoteRound ⟨selfDef, sig, params, signatures⟩ body

/-- `FFA_MAX_FIELDS`. -/
def ffaMaxFields : Nat := 8

/-- `ffa_arity`: the component count of a fixed-shape float aggregate. -/
def ffaArity : Ty → Option Nat
  | .tuple fields =>
    if (∀ ty ∈ fields, ty = .con .float) ∧ 1 ≤ fields.length ∧ fields.length ≤ ffaMaxFields then
      some fields.length
    else none
  | .record fields .closed =>
    if (∀ field ∈ fields, field.2 = .con .float) ∧ 1 ≤ fields.length ∧
        fields.length ≤ ffaMaxFields then
      some fields.length
    else none
  | _ => none

/-- A parameter whose boundary representation has no borrowing conversion is owned; `niche` says
which types are wrapper-free options. -/
def ownBoundary (niche : Ty → Bool) : Ty → BorrowSig → BorrowSig
  | .arrow source result _, flag :: rest =>
    (flag && !(niche source || (ffaArity source).isSome)) :: ownBoundary niche result rest
  | _, sig => sig

/-! ## Scans of scalar lists -/

/-- `scalar`: a type without references. -/
def scalar : Ty → Bool
  | .unit | .con .int | .con .float | .con .bool | .con .char => true
  | _ => false

/-- `numeric`: the primitives a scan may use. -/
def numeric : Prim → Bool
  | .intAdd | .intSub | .intMul | .intDiv | .intRem | .intAnd | .intOr | .intXor | .intShl
  | .intShr | .intShrLogical | .intComplement | .intLt | .intLe | .intGt | .intGe | .floatAdd
  | .floatSub | .floatMul | .floatDiv | .floatNeg | .floatLt | .floatLe | .floatGt | .floatGe
  | .eq | .compare | .intToFloat | .floatToInt | .sqrt | .floatFromBits | .floatToBits
  | .charToCode | .charFromCode | .isValidCharCode | .not => true
  | _ => false

/-- The literals without references. -/
def scalarLit : Lit → Bool
  | .str _ => false
  | _ => true

/-- The state of `Scan`. -/
structure Scan where
  /-- The root and the tails and aliases that borrow it. -/
  cursors : Finset LocalId
  /-- The nodes that may still be visited. -/
  budget : Nat
  /-- A tail call was seen. -/
  tail : Bool

/-- `cursor`: the value is the root or a tail of it. -/
def Scan.cursor (st : Scan) : CExpr → Bool
  | .loc slot _ => decide (slot ∈ st.cursors)
  | .dataField base (.const 1) false none _ => st.cursor base
  | _ => false

mutual

/-- `walk`: nothing when the body is not a scan. -/
def walk (selfDef : DefId) (position arity : Nat) : CExpr → Bool → Bool → Scan → Option Scan
  | e, tail, cursor, st =>
    if st.budget = 0 then none
    else
      let st := { st with budget := st.budget - 1 }
      match e with
      | .loc slot _ => if cursor || decide (slot ∉ st.cursors) then some st else none
      | .lit value _ => if scalarLit value then some st else none
      | .error _ => some st
      | .letIn slot value body _ =>
        let derived := st.cursor value
        (walk selfDef position arity value false derived st).bind fun st =>
          walk selfDef position arity body tail cursor
            (if derived then { st with cursors := insert slot st.cursors } else st)
      | .ite cond yes no _ =>
        (walk selfDef position arity cond false false st).bind fun st =>
          (walk selfDef position arity yes tail cursor st).bind fun st =>
            walk selfDef position arity no tail cursor st
      | .dataTag base none _ => if st.cursor base then some st else none
      | .dataField base (.const index) _ none ty =>
        if st.cursor base && ((index == 0 && scalar ty) || (index == 1 && cursor)) then some st
        else none
      | .prim op args _ =>
        if numeric op then walkArgs selfDef position arity none args 0 st else none
      | .app (.global callee _) args reuse _ _ =>
        if tail && args.length == arity && reuse.isEmpty && decide (callee = selfDef) then
          walkArgs selfDef position arity (some position) args 0 { st with tail := true }
        else none
      | _ => none

/-- Operands in order; the one at the cursor's position is the root or a tail of it. -/
def walkArgs (selfDef : DefId) (position arity : Nat) (carried : Option Nat) :
    List CExpr → Nat → Scan → Option Scan
  | [], _, st => some st
  | arg :: rest, index, st =>
    if carried = some index then
      if st.cursor arg then
        (walk selfDef position arity arg false true st).bind
          (walkArgs selfDef position arity carried rest (index + 1))
      else none
    else
      (walk selfDef position arity arg false false st).bind
        (walkArgs selfDef position arity carried rest (index + 1))

end

/-- The list parameter of a function whose other parameters and result are scalar. -/
def scanRoot : List LocalId → Ty → Option LocalId → Option LocalId
  | [], result, root => if scalar result then root else none
  | param :: rest, .arrow (.app (.con .list) element) output _, root =>
    if scalar element then
      if root.isSome then none else scanRoot rest output (some param)
    else none
  | _ :: rest, .arrow input output _, root =>
    if scalar input then scanRoot rest output root else none
  | _ :: _, _, _ => none

/-- `Plan`: the borrowed root and its cursors. -/
structure Plan where
  /-- The list kept live by the caller. -/
  root : LocalId
  /-- The slots that borrow it. -/
  cursors : Finset LocalId

/-- `plan`. -/
def plan (selfDef : DefId) (scheme : Option Ty) (entry : CoreFn) : Option Plan :=
  if entry.captures.isEmpty then
    (scheme.bind fun ty => scanRoot entry.params ty none).bind fun root =>
      (walk selfDef (entry.params.idxOf root) entry.params.length entry.body true false
        ⟨{root}, 256, false⟩).bind fun last =>
          if last.tail then some ⟨root, last.cursors⟩ else none
  else none

/-! ## Signatures -/

/-- What inference reads of a definition. -/
structure Definition where
  /-- The entry function after inlining. -/
  entry : CoreFn
  /-- The number of evidence parameters, `evidence_count`. -/
  evidence : Nat
  /-- The type of `definition_scheme`. -/
  scheme : Option Ty

/-- The signature the demotion loop infers from the other definitions' signatures. -/
def infer (signatures : DefId → BorrowSig) (selfDef : DefId) (entry : CoreFn) : BorrowSig :=
  demoteLoop selfDef entry.params signatures entry.body entry.params.length
    (List.replicate entry.params.length true)

/-- The boundary positions of a declared scheme are owned. -/
def ownDeclared (niche : Ty → Bool) (scheme : Option Ty) (sig : BorrowSig) : BorrowSig :=
  match scheme with
  | some ty => ownBoundary niche ty sig
  | none => sig

/-- `borrow_signature` under the other definitions' signatures. -/
def borrowSignature (niche : Ty → Bool) (signatures : DefId → BorrowSig) (selfDef : DefId)
    (d : Definition) : BorrowSig :=
  if 0 < d.evidence then List.replicate d.entry.params.length false
  else
    let sig := infer signatures selfDef d.entry
    let sig := ownDeclared niche d.scheme sig
    match plan selfDef d.scheme d.entry with
    | some found => sig.set (d.entry.params.idxOf found.root) true
    | none => sig

/-- `BORROW_FIXPOINT_BOUND`. -/
def fixpointBound : Nat := 100

/-- The definitions that can be called, by identity. -/
abbrev Program := DefId → Option Definition

/-- `borrow_initial`: every parameter borrowed. -/
def initial (program : Program) (callee : DefId) : BorrowSig :=
  match program callee with
  | some d => List.replicate d.entry.params.length true
  | none => []

/-- `borrow_signature` of a definition, from the signatures of the last iteration. -/
def query (niche : Ty → Bool) (program : Program) (signatures : DefId → BorrowSig)
    (callee : DefId) : BorrowSig :=
  match program callee with
  | some d => borrowSignature niche signatures callee d
  | none => []

/-- `borrow_recover`: past the bound all parameters are owned. -/
def recover (iteration : Nat) (value : BorrowSig) : BorrowSig :=
  if fixpointBound ≤ iteration then List.replicate value.length false else value

end Borrow

end Fai
