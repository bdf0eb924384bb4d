import FaiVerif.Core.Scopes

/-!
# Adding along a recursion

`trmc/int_add.rs`: a definition that adds a local or a literal to the result of a call of itself is
made a loop that carries the sum of what is still to be added.
-/

namespace Fai.IntAdd

open CExpr

/-- The type of integers. -/
def int : Ty := .con .int

/-- `self_call_args`: the arguments of a call of a definition with all its arguments that forwards
no reuse tokens. -/
def selfCallArgs (target : DefId) (arity : Nat) : CExpr → Option (List CExpr)
  | .app (.global other _) args reuse _ _ =>
    if reuse.isEmpty ∧ other = target ∧ args.length = arity then some args else none
  | _ => none

/-- `is_local`: whether an expression is a use of a local. -/
def isLocal (slot : LocalId) : CExpr → Bool
  | .loc other _ => decide (other = slot)
  | _ => false

/-- Whether an operand is an integer local other than a result, or an integer literal. -/
def isContribution (result : LocalId) (other : CExpr) : Bool :=
  decide (other.ty = int) &&
    match other with
    | .loc slot _ => decide (slot ≠ result)
    | .lit (.int _) _ => true
    | _ => false

/-- `contribution`: what an expression adds to a result. -/
def contribution (result : LocalId) : CExpr → Option CExpr
  | .prim .intAdd [left, right] _ =>
    let other :=
      if isLocal result left then some right
      else if isLocal result right then some left
      else none
    other.filter (isContribution result)
  | _ => none

/-- `has_add_tail`: whether the last call of a body is of the definition, with something added. -/
def hasAddTail (target : DefId) (arity : Nat) : CExpr → Bool
  | .ite _ yes no _ => hasAddTail target arity yes || hasAddTail target arity no
  | .letIn slot value body _ =>
    ((selfCallArgs target arity value).isSome && (contribution slot body).isSome) ||
      hasAddTail target arity body
  | .dup _ body _ | .drop _ body _ | .reset _ _ body _ | .freeReuse _ body _ =>
    hasAddTail target arity body
  | _ => false

/-- A sum of two integers. -/
def add (left right : CExpr) : CExpr := .prim .intAdd [left, right] int

/-- `recur`: another turn of the loop, with the sum carried. -/
def recur (args : List CExpr) (value : CExpr) : CExpr := .recur (args ++ [value]) int

/-- The end of a body: a call of the definition is another turn, and anything else is added to the
sum. -/
def rewriteEnd (sum : LocalId) (target : DefId) (arity : Nat) (e : CExpr) : CExpr :=
  match selfCallArgs target arity e with
  | some args => recur args (.loc sum int)
  | none => add (.loc sum int) e

/-- `rewrite`: a body as a turn of the loop. -/
def rewrite (sum : LocalId) (target : DefId) (arity : Nat) : CExpr → CExpr
  | .ite cond yes no _ =>
    .ite cond (rewrite sum target arity yes) (rewrite sum target arity no) int
  | .letIn slot value body _ =>
    match selfCallArgs target arity value, contribution slot body with
    | some args, some other => recur args (add (.loc sum int) other)
    | _, _ => .letIn slot value (rewrite sum target arity body) int
  | .dup slot body _ => .dup slot (rewrite sum target arity body) int
  | .drop slot body _ => .drop slot (rewrite sum target arity body) int
  | .reset value token body _ => .reset value token (rewrite sum target arity body) int
  | .freeReuse token body _ => .freeReuse token (rewrite sum target arity body) int
  | e => rewriteEnd sum target arity e

/-- `flatten`: a body as a loop that starts with nothing to be added, and the next free slot. -/
def flatten (body : CExpr) (params : List LocalId) (target : DefId) (next : Nat) :
    Option (CExpr × Nat) :=
  if body.ty ≠ int || !hasAddTail target params.length body then none
  else
    some (.letIn next (.lit (.int 0) int)
      (.join (params ++ [next]) (rewrite next target params.length body) int) int, next + 1)

end Fai.IntAdd
