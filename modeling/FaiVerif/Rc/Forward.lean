import FaiVerif.Rc.Reuse
import Mathlib.Data.List.Sort

/-!
# Forwarding reuse tokens across calls

`forward.rs` and `reuse_sig.rs` of `fai-rc`. A definition's reuse signature lists the size classes
of the tokens its specialized entry takes; a caller hands a token it would free to a saturated
direct call with a free slot, and the specialized entry threads its leading token parameters into
the sinks its own resets left.
-/

namespace Fai

namespace Forward

open Reuse

/-- What forwarding reads of the other definitions. -/
structure ForwardDb where
  /-- Whether the defining file is known. -/
  known : DefId → Bool
  /-- The number of evidence parameters, `evidence_count`. -/
  evidence : DefId → Nat
  /-- The entry arity, one flag of `borrow_signature` for each parameter. -/
  arity : DefId → Nat
  /-- `reuse_signature`. -/
  signature : DefId → List Nat

/-- `forward_target`: the signature of a saturated direct call that accepts tokens. -/
def forwardTarget (db : ForwardDb) (selfDef : DefId) (func : CExpr) (nargs : Nat) :
    Option (List Nat) :=
  match func with
  | .global callee _ =>
    if callee = selfDef then none
    else if !db.known callee then none
    else if 0 < db.evidence callee then none
    else if db.arity callee = 0 ∨ nargs ≠ db.arity callee then none
    else if db.signature callee = [] then none
    else some (db.signature callee)
  | _ => none

/-- The number of token slots of a call. -/
def slots (db : ForwardDb) (selfDef : DefId) (func : CExpr) (nargs : Nat) : Nat :=
  ((forwardTarget db selfDef func nargs).map List.length).getD 0

/-- Put a token into the first free slot, if there is one. -/
def fillSlot (token : LocalId) : List (Option LocalId) → Option (List (Option LocalId))
  | [] => none
  | none :: rest => some (some token :: rest)
  | some held :: rest => (fillSlot token rest).map (some held :: ·)

/-- `is_forwardable_call`: a call with fewer tokens than its callee takes. -/
def isForwardableCall (db : ForwardDb) (selfDef : DefId) : CExpr → Bool
  | .app func args reuse _ _ => reuse.length < slots db selfDef func args.length
  | _ => false

/-- The slots of a call before a token is put in: padded when none was forwarded yet. -/
def openSlots (db : ForwardDb) (selfDef : DefId) (func : CExpr) (nargs : Nat)
    (reuse : List (Option LocalId)) : List (Option LocalId) :=
  if reuse.isEmpty then List.replicate (slots db selfDef func nargs) none else reuse

/-- `thread_token`: hand a token to the first sink of every path, or free it. -/
def threadToken (db : ForwardDb) (selfDef : DefId) (token : LocalId) : CExpr → Option CExpr
  | .makeData tag args reuse scalars niche ty =>
    if reuse.isNone && !args.isEmpty && !nicheWrapperFree niche then
      some (.makeData tag args (some token) scalars niche ty)
    else some (freeReuseThen token (.makeData tag args reuse scalars niche ty))
  | .app func args reuse alloc ty =>
    let reuse := openSlots db selfDef func args.length reuse
    match fillSlot token reuse with
    | some filled => some (.app func args filled alloc ty)
    | none => some (freeReuseThen token (.app func args reuse alloc ty))
  | .letIn slot value body ty =>
    if isReuseTarget value then
      (attachReuse token value).map fun value => .letIn slot value body ty
    else if isForwardableCall db selfDef value then
      (threadToken db selfDef token value).map fun value => .letIn slot value body ty
    else (threadToken db selfDef token body).map fun body => .letIn slot value body ty
  | .ite cond yes no ty =>
    (threadToken db selfDef token yes).bind fun yes =>
      (threadToken db selfDef token no).map fun no => .ite cond yes no ty
  | .dup slot body ty => (threadToken db selfDef token body).map fun body => .dup slot body ty
  | .drop slot body ty => (threadToken db selfDef token body).map fun body => .drop slot body ty
  | .reset value other body ty =>
    (threadToken db selfDef token body).map fun body => .reset value other body ty
  | e => some (freeReuseThen token e)

mutual

/-- `forward_pass`: hand every freed token on where a sink is reachable. -/
def forwardPass (db : ForwardDb) (selfDef : DefId) : CExpr → Option CExpr
  | .freeReuse token body _ => (forwardPass db selfDef body).bind (threadToken db selfDef token)
  | .letIn slot value body ty =>
    return .letIn slot (← forwardPass db selfDef value) (← forwardPass db selfDef body) ty
  | .ite cond yes no ty =>
    return .ite (← forwardPass db selfDef cond) (← forwardPass db selfDef yes)
      (← forwardPass db selfDef no) ty
  | .reset value token body ty =>
    return .reset (← forwardPass db selfDef value) token (← forwardPass db selfDef body) ty
  | .dup slot body ty => return .dup slot (← forwardPass db selfDef body) ty
  | .drop slot body ty => return .drop slot (← forwardPass db selfDef body) ty
  | .prim op args ty => return .prim op (← forwardPassList db selfDef args) ty
  | .foreign symbol args marshalled ty =>
    return .foreign symbol (← forwardPassList db selfDef args) marshalled ty
  | .makeData tag args reuse scalars niche ty =>
    return .makeData tag (← forwardPassList db selfDef args) reuse scalars niche ty
  | .app func args reuse alloc ty =>
    return .app (← forwardPass db selfDef func) (← forwardPassList db selfDef args) reuse alloc ty
  | .dataTag base niche ty => return .dataTag (← forwardPass db selfDef base) niche ty
  | .dataField base index scalar niche ty =>
    return .dataField (← forwardPass db selfDef base) index scalar niche ty
  | .spread components ty => return .spread (← forwardPassList db selfDef components) ty
  | .letMany bound value body ty =>
    return .letMany bound (← forwardPass db selfDef value) (← forwardPass db selfDef body) ty
  | .join params body ty => return .join params (← forwardPass db selfDef body) ty
  | .recur args ty => return .recur (← forwardPassList db selfDef args) ty
  | .holeStart hole body ty => return .holeStart hole (← forwardPass db selfDef body) ty
  | .holeFill hole cell field ty => return .holeFill hole (← forwardPass db selfDef cell) field ty
  | .holeClose hole base ty => return .holeClose hole (← forwardPass db selfDef base) ty
  | .loc slot ty => some (.loc slot ty)
  | .lit value ty => some (.lit value ty)
  | .global target ty => some (.global target ty)
  | .makeClosure func captures alloc ty => some (.makeClosure func captures alloc ty)
  | .error ty => some (.error ty)

/-- `forward_pass` on operands. -/
def forwardPassList (db : ForwardDb) (selfDef : DefId) : List CExpr → Option (List CExpr)
  | [] => some []
  | head :: tail => return (← forwardPass db selfDef head) :: (← forwardPassList db selfDef tail)

end

/-- Thread tokens one after the other. -/
def threadTokens (db : ForwardDb) (selfDef : DefId) : List LocalId → CExpr → Option CExpr
  | [], body => some body
  | token :: rest, body => (threadToken db selfDef token body).bind (threadTokens db selfDef rest)

/-- `build_reuse_entry`: the entry with leading token parameters, taken from `next` on. -/
def buildReuseEntry (db : ForwardDb) (selfDef : DefId) (primary : CoreFn) (count next : Nat) :
    Option CoreFn :=
  let tokens := List.range' next count
  (threadTokens db selfDef tokens primary.body).map fun body =>
    { params := tokens ++ primary.params, captures := primary.captures, body := body }

/-- The functions of a definition with their specialized entry, as far as `rc_emit` changes them. -/
structure Emitted where
  /-- The functions, the entry first. -/
  fns : List CoreFn
  /-- The token-taking entry. -/
  reuseEntry : Option CoreFn

/-- `rc_emit` of a definition with a nonempty list of functions. -/
def rcEmit (db : ForwardDb) (selfDef : DefId) (fns : List CoreFn) (next : Nat) :
    Option Emitted := do
  let fns ← fns.mapM fun f => (forwardPass db selfDef f.body).map fun body =>
    { f with body := body }
  match fns, db.signature selfDef with
  | entry :: _, slot :: rest =>
    return ⟨fns, some (← buildReuseEntry db selfDef entry (slot :: rest).length next)⟩
  | _, _ => return ⟨fns, none⟩

/-! ## The signature analysis -/

/-- `TOTAL_SLOT_CAP`. -/
def totalSlotCap : Nat := 4

/-- Sink capacity by size class, ascending. -/
abbrev Sinks := List (Nat × Nat)

/-- Combine the capacity of one class into an ascending table. -/
def Sinks.update (combine : Nat → Nat → Nat) (size count : Nat) : Sinks → Sinks
  | [] => [(size, count)]
  | (c, n) :: rest =>
    if size < c then (size, count) :: (c, n) :: rest
    else if size = c then (c, combine n count) :: rest
    else (c, n) :: Sinks.update combine size count rest

/-- `Acc`: the sinks of a path and the local resets that compete for them. -/
structure Acc where
  /-- Sink capacity by size class. -/
  sinks : Sinks := []
  /-- Local resets that found no home. -/
  freed : Nat := 0

/-- `Acc::forward`: the slots of a callee. -/
def Acc.forward (signature : List Nat) : Acc :=
  { sinks := signature.foldl (fun sinks size => sinks.update (· + ·) size 1) [] }

/-- `Acc::seq`: straight-line composition. -/
def Acc.seq (first second : Acc) : Acc where
  sinks := second.sinks.foldl (fun sinks (size, n) => sinks.update (· + ·) size n) first.sinks
  freed := first.freed + second.freed

/-- Drain debits against the classes in ascending order. -/
def drain : Nat → Sinks → Sinks
  | _, [] => []
  | debits, (size, n) :: rest =>
    if n ≤ debits then drain (debits - n) rest else (size, n - debits) :: rest

/-- `net`: the sinks left after a path's own resets, class-blind. -/
def net (acc : Acc) : Sinks := if acc.freed = 0 then acc.sinks else drain acc.freed acc.sinks

/-- `branch`: the best path bounds the useful slots of each class. -/
def branch (yes no : Acc) : Acc where
  sinks := (net no).foldl (fun sinks (size, n) => sinks.update max size n) (net yes)

/-- `incoming`: the sink capacity of a body for tokens from outside. -/
def incoming (db : ForwardDb) (selfDef : DefId) (deaths : LocalId → Bool) : CExpr → Acc
  | .makeData _ args reuse _ _ _ =>
    if reuse.isNone && !args.isEmpty then { sinks := [(args.length, 1)] } else {}
  | .app func args _ _ _ => ((forwardTarget db selfDef func args.length).map Acc.forward).getD {}
  | .letIn _ value body _ =>
    let fromValue : Acc :=
      match value with
      | .makeData _ args none _ _ _ => if args.isEmpty then {} else { sinks := [(args.length, 1)] }
      | _ => {}
    fromValue.seq (incoming db selfDef deaths body)
  | .ite _ yes no _ => branch (incoming db selfDef deaths yes) (incoming db selfDef deaths no)
  | .reset _ _ body _ | .dup _ body _ | .join _ body _ => incoming db selfDef deaths body
  | .drop slot body _ =>
    let here : Acc := if deaths slot then { freed := 1 } else {}
    here.seq (incoming db selfDef deaths body)
  | .freeReuse _ body _ => Acc.seq { freed := 1 } (incoming db selfDef deaths body)
  | _ => {}

/-- `reuse_signature` of an entry body, from the signatures of its callees. -/
def signatureOf (db : ForwardDb) (selfDef : DefId) (deaths : LocalId → Bool) (grouped : Bool)
    (body : CExpr) : List Nat :=
  if 0 < db.evidence selfDef ∨ grouped then []
  else
    let classes := (net (incoming db selfDef deaths body)).flatMap fun (size, n) =>
      List.replicate n size
    (classes.insertionSort (· ≤ ·)).take totalSlotCap

end Forward

end Fai
