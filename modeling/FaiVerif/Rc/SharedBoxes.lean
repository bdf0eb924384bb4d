import FaiVerif.Core.Scopes

/-!
# Sharing boxed integers

`shared_boxes.rs`: an integer operation that repeats one in scope names its result instead, and an
integer that is used boxed at least twice on a straight line is boxed once, under a name of its own.
-/

namespace Fai.SharedBoxes

open CExpr

/-- What the pass reads of the calling convention of a definition: whether its parameters are passed
in registers, and which of them as an unboxed integer. -/
structure FnAbi where
  /-- Whether parameters are passed in registers. -/
  registerAbi : Bool
  /-- Whether each parameter is an unboxed integer. -/
  intParams : List Bool

/-- The calling conventions of a program's definitions. -/
abbrev AbiOf := DefId → FnAbi

/-- The type of integers. -/
def int : Ty := .con .int

/-- The integer operations that are shared. -/
def sharedOp : Prim → Bool
  | .intAdd | .intSub | .intMul | .intAnd | .intOr | .intXor => true
  | _ => false

/-- Whether a bound value is a shared integer operation. -/
def isShared : CExpr → Bool
  | .prim op _ ty => sharedOp op && decide (ty = int)
  | _ => false

/-- The integer operations in scope and the locals bound to them. -/
abbrev Seen := List (CExpr × LocalId)

/-- The locals whose bindings were removed, with the locals that replace them. -/
abbrev Renaming := LocalId → Option LocalId

/-- A renaming of one more local. -/
def Renaming.insert (aliases : Renaming) (slot prior : LocalId) : Renaming :=
  fun other => if other = slot then some prior else aliases other

/-- The local bound to a value that was seen. -/
def Seen.prior (seen : Seen) (value : CExpr) : Option LocalId :=
  (seen.find? fun entry => decide (entry.1 = value)).map Prod.snd

/-- `common`: an expression in which an integer operation that repeats one in scope is not bound
again. -/
def common : CExpr → Seen → Renaming → CExpr :=
  fold fun e children seen aliases =>
    match e, children with
    | .loc slot ty, _ => .loc ((aliases slot).getD slot) ty
    | .letIn slot _ _ ty, [value, body] =>
      if isShared (value seen aliases) then
        match seen.prior (value seen aliases) with
        | some prior => body seen (aliases.insert slot prior)
        | none =>
          .letIn slot (value seen aliases)
            (body (seen ++ [(value seen aliases, slot)]) aliases) ty
      else .letIn slot (value seen aliases) (body seen aliases) ty
    | e, children => e.withChildren (children.map fun child => child seen aliases)

/-- Whether a node branches, loops or makes a closure. -/
def branches : CExpr → Bool
  | .ite _ _ _ _ | .join _ _ _ | .recur _ _ | .makeClosure _ _ _ _ => true
  | _ => false

/-- `linear`: whether an expression is a straight line. -/
def linear : CExpr → Bool := fold fun e children => !branches e && children.all id

/-- Whether a call passes an argument as an unboxed integer. -/
def passesInt (abiOf : AbiOf) (arity index : Nat) : CExpr → Bool
  | .global target _ =>
    (abiOf target).registerAbi && decide ((abiOf target).intParams.length ≤ arity) &&
      (abiOf target).intParams.getD index false
  | _ => false

/-- `uniform_positions`: the operands an operation takes boxed. -/
def uniformPositions (abiOf : AbiOf) : CExpr → List Nat
  | .makeData _ args _ _ _ _ => List.range args.length
  | .app func args _ _ _ =>
    (List.range args.length).filter fun index => !passesInt abiOf args.length index func
  | .prim .arrayPush args _ | .prim .arrayPushReserved args _ | .prim .arrayRepeat args _ =>
    if 1 < args.length then [1] else []
  | .prim .intBox args _ => if args.isEmpty then [] else [0]
  | .prim .arraySet args _ | .prim .arrayPut args _ | .prim .recordUpdate args _ =>
    if 2 < args.length then [2] else []
  | _ => []

/-- The operands of an operation that may take some of them boxed. -/
def uniformOperands : CExpr → List CExpr
  | .app _ args _ _ _ | .prim _ args _ | .makeData _ args _ _ _ _ => args
  | _ => []

/-- Whether an expression is a use of a local as an integer. -/
def usesInt (slot : LocalId) : CExpr → Bool
  | .loc other ty => decide (ty = int) && decide (other = slot)
  | _ => false

/-- `uses`: how often an expression takes a local boxed. -/
def uses (abiOf : AbiOf) (slot : LocalId) : CExpr → Nat :=
  fold fun e children =>
    ((uniformPositions abiOf e).countP fun index =>
      ((uniformOperands e)[index]?).any (usesInt slot)) + children.foldl (· + ·) 0

/-- The names of boxed integers, the latest first. -/
abbrev Peers := List (LocalId × LocalId)

/-- Whether a node binds an integer that is worth boxing once. -/
def boxesOnce (abiOf : AbiOf) : CExpr → Option LocalId
  | .letIn slot value body _ =>
    if value.ty = int ∧ linear body = true ∧ 2 ≤ uses abiOf slot body then some slot else none
  | _ => none

/-- `candidates`: the bound integers worth boxing once, each with a new name. -/
def candidates (abiOf : AbiOf) : CExpr → Peers × Nat → Peers × Nat :=
  fold fun e children state =>
    children.foldl (fun state child => child state)
      ((boxesOnce abiOf e).elim state fun slot => ((slot, state.2) :: state.1, state.2 + 1))

/-- A use of an integer under the name of its box. -/
def boxed (peers : Peers) : CExpr → CExpr
  | .loc slot ty => .loc (if ty = int then (peers.lookup slot).getD slot else slot) ty
  | e => e

/-- `uniform_args`: an expression with the operands it takes boxed replaced. -/
def uniformArgs (abiOf : AbiOf) (f : CExpr → CExpr) (e : CExpr) : CExpr :=
  let visit (args : List CExpr) :=
    args.mapIdx fun index arg => if index ∈ uniformPositions abiOf e then f arg else arg
  match e with
  | .app func args reuse alloc ty => .app func (visit args) reuse alloc ty
  | .prim op args ty => .prim op (visit args) ty
  | .makeData tag args reuse scalars niche ty =>
    .makeData tag (visit args) reuse scalars niche ty
  | e => e

/-- `substitute`: an expression in which the operands taken boxed are named by their boxes. Only
uses of locals are replaced, in which nothing is left to replace. -/
def substitute (abiOf : AbiOf) (peers : Peers) : CExpr → CExpr :=
  fold fun e children => uniformArgs abiOf (boxed peers) (e.withChildren children)

/-- `bind`: an expression in which a box is bound right after its integer. -/
def bind (peers : Peers) : CExpr → CExpr :=
  fold fun e children =>
    match e, children with
    | .letIn slot _ _ ty, [value, body] =>
      match peers.lookup slot with
      | some peer =>
        .letIn slot value (.letIn peer (.prim .intBox [.loc slot int] int) body body.ty) ty
      | none => .letIn slot value body ty
    | e, children => e.withChildren children

/-- `node_count`: the number of nodes of an expression. -/
def nodeCount : CExpr → Nat := fold fun _ children => 1 + children.foldl (· + ·) 0

/-- Whether a node names locals that are not uses. -/
def isExternal : CExpr → Bool
  | .makeClosure _ _ _ _ | .dataField _ (.dyn _ _) _ _ _ => true
  | _ => false

/-- `has_external_locals`: whether some node names locals that are not uses. -/
def hasExternalLocals : CExpr → Bool := fold fun e children => isExternal e || children.any id

/-- `rewrite`: a body in which boxed integers are shared, and the next free slot. -/
def rewrite (abiOf : AbiOf) (body : CExpr) (next : Nat) : CExpr × Nat :=
  if 256 < nodeCount body then (body, next)
  else if hasExternalLocals body then (body, next)
  else
    let candidate := common body [] fun _ => none
    let found := candidates abiOf candidate ([], next)
    if found.1.isEmpty then (body, found.2)
    else (bind found.1 (substitute abiOf found.1 candidate), found.2)

end Fai.SharedBoxes
