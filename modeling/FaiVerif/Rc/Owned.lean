import FaiVerif.Rc.Anf

/-!
# Precise reference counting

`Rc::owned` of `fai-rc`'s `lib.rs`: references are duplicated before an operation that consumes a
slot still needed afterwards, and released as soon as a slot is dead. Captures and borrowed
parameters are on loan: they are duplicated on a consuming use and never dropped.
-/

namespace Fai

namespace Owned

/-- The used slots that are neither captures nor bound inside. -/
def note (captures : Finset LocalId) (slots : List LocalId) (bound : Finset LocalId) :
    Finset LocalId :=
  slots.toFinset.filter fun slot => slot ∉ captures ∧ slot ∉ bound

mutual

/-- `collect_fv`: the free owned locals of an expression under bound slots. -/
def collectFv (captures : Finset LocalId) : CExpr → Finset LocalId → Finset LocalId
  | .loc slot _, bound => note captures [slot] bound
  | .lit _ _, _ | .global _ _, _ | .error _, _ => ∅
  | .prim _ args _, bound | .foreign _ args _ _, bound | .makeData _ args _ _ _ _, bound
  | .spread args _, bound | .recur args _, bound => collectFvList captures args bound
  | .app func args _ _ _, bound =>
    collectFv captures func bound ∪ collectFvList captures args bound
  | .ite cond yes no _, bound =>
    collectFv captures cond bound ∪ collectFv captures yes bound ∪ collectFv captures no bound
  | .letIn slot value body _, bound =>
    collectFv captures value bound ∪ collectFv captures body (insert slot bound)
  | .letMany slots value body _, bound =>
    collectFv captures value bound ∪ collectFv captures body (bound ∪ slots.toFinset)
  | .makeClosure _ closed _ _, bound => note captures closed bound
  | .dataTag base _ _, bound => collectFv captures base bound
  | .dataField base index _ _ _, bound =>
    collectFv captures base bound ∪ note captures index.slots bound
  | .reset value token body _, bound =>
    collectFv captures value bound ∪ collectFv captures body (insert token bound)
  | .freeReuse slot body _, bound | .dup slot body _, bound | .drop slot body _, bound =>
    note captures [slot] bound ∪ collectFv captures body bound
  | .join params body _, bound => collectFv captures body (bound ∪ params.toFinset)
  | .holeStart hole body _, bound => collectFv captures body (insert hole bound)
  | .holeFill hole value _ _, bound | .holeClose hole value _, bound =>
    note captures [hole] bound ∪ collectFv captures value bound

/-- The free owned locals of operands. -/
def collectFvList (captures : Finset LocalId) : List CExpr → Finset LocalId → Finset LocalId
  | [], _ => ∅
  | head :: rest, bound => collectFv captures head bound ∪ collectFvList captures rest bound

end

/-- `fv_owned`: the free owned locals of an expression. -/
def fvOwned (captures : Finset LocalId) (e : CExpr) : Finset LocalId := collectFv captures e ∅

/-- `dup_`. -/
def dupBefore (slot : LocalId) (body : CExpr) : CExpr := .dup slot body body.ty

/-- `drop_`. -/
def dropBefore (slot : LocalId) (body : CExpr) : CExpr := .drop slot body body.ty

/-- Duplicate slots in order, then continue. -/
def dupAll (slots : List LocalId) (e : CExpr) : CExpr := slots.foldr dupBefore e

/-- `dropify`: release slots in slot order, each once, then continue. -/
def dropify (drops : Finset LocalId) (e : CExpr) : CExpr := drops.sort.foldr dropBefore e

/-- Whether a slot is needed after a consuming use: it is on loan, or live. -/
def kept (captures live : Finset LocalId) (slot : LocalId) : Bool :=
  decide (slot ∈ captures) || decide (slot ∈ live)

/-- The consumed slots to duplicate: those needed afterwards or consumed again later. -/
def extras (keep : LocalId → Bool) : List LocalId → List LocalId
  | [] => []
  | slot :: rest =>
    if keep slot || decide (slot ∈ rest) then slot :: extras keep rest else extras keep rest

/-- The locals an operation consumes. -/
def consumedLocals : List Bool → List CExpr → List LocalId
  | _, [] => []
  | flags, .loc slot _ :: rest =>
    if flags.headD false then consumedLocals flags.tail rest
    else slot :: consumedLocals flags.tail rest
  | flags, _ :: rest => consumedLocals flags.tail rest

/-- The lent slots whose last use the operation is. -/
def deadLent (captures live : Finset LocalId) (consumed lent : List LocalId) : Finset LocalId :=
  (lent.filter fun slot => !kept captures live slot && !decide (slot ∈ consumed)).toFinset

/-- Bind every lent operand that is not a local to a fresh slot: the bindings, the operands and
the next free slot. -/
def preBind : List Bool → List CExpr → Nat → List (LocalId × CExpr) × List CExpr × Nat
  | _, [], next => ([], [], next)
  | flags, .loc slot ty :: rest, next =>
    let (binds, operands, next) := preBind flags.tail rest next
    (binds, .loc slot ty :: operands, next)
  | flags, operand :: rest, next =>
    if flags.headD false then
      let (binds, operands, last) := preBind flags.tail rest (next + 1)
      ((next, operand) :: binds, .loc next operand.ty :: operands, last)
    else
      let (binds, operands, next) := preBind flags.tail rest next
      (binds, operand :: operands, next)

/-- Release dead slots right after an operation, through a temporary for its result. -/
def releaseAfter (dead : Finset LocalId) (op : CExpr) (next : Nat) : CExpr × Nat :=
  if dead = ∅ then (op, next)
  else (.letIn next op (dropify dead (.loc next op.ty)) op.ty, next + 1)

/-- `operands_rc`: an operation on atoms, its duplicates before and its dead loans after. -/
def operandsRc (captures : Finset LocalId) (operands : List CExpr) (borrows : List Bool)
    (live : Finset LocalId) (rebuild : List CExpr → CExpr) (next : Nat) : CExpr × Nat :=
  let (preBinds, operands, next) := preBind borrows operands next
  let consumed := consumedLocals borrows operands
  let dead := deadLent captures live consumed (CExpr.lent borrows operands)
  let (e, next) := releaseAfter dead (rebuild operands) next
  (Anf.wrapBinds preBinds (dupAll (extras (kept captures live) consumed) e), next)

/-- `projection_borrows`. -/
def projectionBorrows : CExpr → List LocalId
  | .prim op args _ => if op.isPeek then args.filterMap CExpr.asLocal else []
  | .dataTag base _ _ => base.asLocal.toList
  | .dataField base index _ _ _ => base.asLocal.toList ++ index.slots
  | _ => []

/-- `is_projection`. -/
def isProjection : CExpr → Bool
  | .dataField _ _ _ _ _ | .dataTag _ _ _ => true
  | .prim op _ _ => op.isPeek
  | _ => false

/-- `dead_borrows`: the owned slots among the borrowed ones that are dead afterwards. -/
def deadBorrows (captures : Finset LocalId) (borrows : List LocalId) (live : Finset LocalId) :
    Finset LocalId :=
  (borrows.filter fun slot => !kept captures live slot).toFinset

/-- The operands of a multi-result value that is counted in place: a call or a native Result
primitive, with the ownership of its arguments. -/
def multiOperands (calls : CallBorrows) : CExpr → Option (List CExpr × List Bool)
  | .app func args _ _ _ => some (args, argBorrows calls func args.length)
  | .prim op args _ => if op.nativeResult then some (args, primBorrows op args) else none
  | _ => none

/-- `conditional`, from its counted branches. -/
def conditional (captures : Finset LocalId) (cond yes no : CExpr) (ty : Ty)
    (live : Finset LocalId) (yes2 no2 : CExpr) : CExpr :=
  let fvt := fvOwned captures yes
  let fve := fvOwned captures no
  let branchIn := live ∪ fvt ∪ fve
  let yes2 := dropify (branchIn.filter fun slot => slot ∉ fvt ∧ slot ∉ live) yes2
  let no2 := dropify (branchIn.filter fun slot => slot ∉ fve ∧ slot ∉ live) no2
  match cond with
  | .loc slot _ =>
    if slot ∈ captures ∨ slot ∈ branchIn then dupBefore slot (.ite cond yes2 no2 ty)
    else .ite cond yes2 no2 ty
  | _ => .ite cond yes2 no2 ty

/-- `Rc::owned`: the counted expression and the next free slot, where `live` are the owned locals
still used afterwards; the nodes of the tail-call transform never get here. -/
def owned (captures : Finset LocalId) (calls : CallBorrows) :
    CExpr → Finset LocalId → Nat → Option (CExpr × Nat)
  | .lit value ty, _, next => some (.lit value ty, next)
  | .global target ty, _, next => some (.global target ty, next)
  | .error ty, _, next => some (.error ty, next)
  | .loc slot ty, live, next =>
    some (if kept captures live slot then dupBefore slot (.loc slot ty) else .loc slot ty, next)
  | .prim op args ty, live, next =>
    some (operandsRc captures args (primBorrows op args) live (.prim op · ty) next)
  | .foreign symbol args marshalled ty, live, next =>
    some (operandsRc captures args [] live (.foreign symbol · marshalled ty) next)
  | .makeData tag args reuse scalars niche ty, live, next =>
    some (operandsRc captures args [] live (.makeData tag · reuse scalars niche ty) next)
  | .spread components ty, live, next =>
    some (operandsRc captures components [] live (.spread · ty) next)
  | .letMany slots value body ty, live, next => do
    let fvb := fvOwned captures body
    let liveAfter := (fvb \ slots.toFinset) ∪ live
    let (body2, next) ← owned captures calls body live next
    let body2 := dropify (slots.toFinset.filter fun slot => slot ∉ fvb) body2
    match multiOperands calls value with
    | some (args, borrows) =>
      let consumed := consumedLocals borrows args
      let dead := deadLent captures liveAfter consumed (CExpr.lent borrows args)
      return (dupAll (extras (kept captures liveAfter) consumed)
        (.letMany slots value (dropify dead body2) ty), next)
    | none =>
      let (value2, next) ← owned captures calls value liveAfter next
      return (.letMany slots value2 body2 ty, next)
  | .app func args reuse alloc ty, live, next =>
    some (operandsRc captures (func :: args) (false :: argBorrows calls func args.length) live
      (fun operands => .app (operands.headD func) operands.tail reuse alloc ty) next)
  | .makeClosure func closed alloc ty, live, next =>
    some (dupAll (extras (kept captures live) closed) (.makeClosure func closed alloc ty), next)
  | .dataField base index scalar niche ty, live, next =>
    let proj := CExpr.dataField base index scalar niche ty
    some (releaseAfter (deadBorrows captures (projectionBorrows proj) live) proj next)
  | .dataTag base niche ty, live, next =>
    let proj := CExpr.dataTag base niche ty
    some (releaseAfter (deadBorrows captures (projectionBorrows proj) live) proj next)
  | .ite cond yes no ty, live, next => do
    let (yes2, next) ← owned captures calls yes live next
    let (no2, next) ← owned captures calls no live next
    return (conditional captures cond yes no ty live yes2 no2, next)
  | .letIn slot value body ty, live, next => do
    let fvb := fvOwned captures body
    let liveValue := (fvb.erase slot) ∪ live
    let (body2, next) ← owned captures calls body live next
    let body2 :=
      if slot ∉ fvb ∧ slot ∉ captures then dropBefore slot body2 else body2
    if isProjection value then
      let dead := deadBorrows captures (projectionBorrows value) liveValue
      return (.letIn slot value (dropify dead body2) ty, next)
    else
      let (value2, next) ← owned captures calls value liveValue next
      return (.letIn slot value2 body2 ty, next)
  | .reset value token body ty, live, next => do
    let (body, next) ← owned captures calls body live next
    return (.reset value token body ty, next)
  | .freeReuse token body ty, live, next => do
    let (body, next) ← owned captures calls body live next
    return (.freeReuse token body ty, next)
  | .dup slot body _, live, next => do
    let (body, next) ← owned captures calls body live next
    return (dupBefore slot body, next)
  | .drop slot body _, live, next => do
    let (body, next) ← owned captures calls body live next
    return (dropBefore slot body, next)
  | .join _ _ _, _, _ | .recur _ _, _, _ | .holeStart _ _ _, _, _ | .holeFill _ _ _ _, _, _
  | .holeClose _ _ _, _, _ => none

/-- Drop the owned parameters that the body never mentions, at entry. -/
def dropUnused (params : List LocalId) (borrowed used : Finset LocalId) (body : CExpr) : CExpr :=
  params.foldr (fun param body =>
    if param ∉ used ∧ param ∉ borrowed then dropBefore param body else body) body

/-- Reference counting of one function: A-normal form, `Rc::owned`, and the drops of unused
parameters at entry. -/
def countRefs (params : List LocalId) (borrowed : Finset LocalId) (calls : CallBorrows)
    (body : CExpr) (next : Nat) : Option CExpr := do
  let (body, next) ← Anf.anf body next
  let (counted, _) ← owned borrowed calls body ∅ next
  return dropUnused params borrowed (fvOwned borrowed body) counted

/-- The slots a non-projection operation lends and consumes. -/
def clash (captures live : Finset LocalId) (lent consumed : List LocalId) : Bool :=
  lent.any fun slot => decide (slot ∈ consumed) && !kept captures live slot

/-- Whether no operation lends a slot whose last reference it takes: a lent operand of an operation
is consumed by it only when it is on loan or live afterwards. -/
def lendsKept (captures : Finset LocalId) (calls : CallBorrows) :
    CExpr → Finset LocalId → Bool
  | .prim op args _, live =>
    !clash captures live (CExpr.lent (primBorrows op args) args)
      (consumedLocals (primBorrows op args) args)
  | .app func args _ _ _, live =>
    !clash captures live (CExpr.lent (argBorrows calls func args.length) args)
      (consumedLocals (false :: argBorrows calls func args.length) (func :: args))
  | .ite _ yes no _, live => lendsKept captures calls yes live && lendsKept captures calls no live
  | .letIn slot value body _, live =>
    lendsKept captures calls value ((fvOwned captures body).erase slot ∪ live) &&
      lendsKept captures calls body live
  | .letMany slots value body _, live =>
    lendsKept captures calls value ((fvOwned captures body \ slots.toFinset) ∪ live) &&
      lendsKept captures calls body live
  | _, _ => true

end Owned

end Fai
