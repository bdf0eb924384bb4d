import FaiVerif.Machine.Runs

/-!
# The reference-count checker

`check_rc` of `fai-rc`'s `verify.rs`: an abstract interpreter that walks every function on every
path with one count for each bound slot, and reports the first violation it finds.
-/

namespace Fai

namespace Verify

/-- The counts of the bound slots. -/
abbrev Refs := List (LocalId × Int)

namespace Refs

/-- Set the count of a slot. -/
def insert (refs : Refs) (slot : LocalId) (count : Int) : Refs :=
  (slot, count) :: refs.filter fun entry => entry.1 ≠ slot

/-- Forget a slot. -/
def remove (refs : Refs) (slot : LocalId) : Refs := refs.filter fun entry => entry.1 ≠ slot

/-- Whether two tables have the same slots with the same counts. -/
def same (left right : Refs) : Bool :=
  (left ++ right).all fun entry => left.lookup entry.1 == right.lookup entry.1

end Refs

/-- What the checker knows besides the counts. -/
structure Checker where
  /-- Captures and borrowed parameters. -/
  captures : List LocalId
  /-- The function's index in messages. -/
  fnIndex : Nat
  /-- The callees' borrow flags. -/
  argBorrows : CallBorrows
  /-- The borrowed slots in scope and the slots they are views of, newest first. -/
  projections : List (LocalId × LocalId)
  /-- Which parameters the innermost loop carries on loan. -/
  loopBorrowed : Option (List Bool)

namespace Checker

/-- `owned`: the slot is not on loan. -/
def owned (ck : Checker) (slot : LocalId) : Bool := decide (slot ∉ ck.captures)

/-- `consume`: take one reference of a slot; nothing happens to one on loan. -/
def consume (ck : Checker) (slot : LocalId) (refs : Refs) : Except String Refs :=
  let fnIndex := ck.fnIndex
  if (ck.projections.lookup slot).isSome then
    match refs.lookup slot with
    | none => .error "borrowed slot has an acquired-reference count"
    | some count =>
      if count = 0 then .error s!"fn{fnIndex}: consumption of borrowed slot %{slot}"
      else .ok (refs.insert slot (count - 1))
  else if !ck.owned slot then .ok refs
  else
    match refs.lookup slot with
    | none => .error s!"fn{fnIndex}: consume of unbound/owned %{slot}"
    | some count =>
      if count < 1 then .error s!"fn{fnIndex}: use of released %{slot}"
      else .ok (refs.insert slot (count - 1))

/-- `borrow`: read a slot, through its own count or through the slots it is a view of. A slot with
an entry or a count is never bound again, so the entry of the slot it views is an older one. -/
def borrowIn (ck : Checker) (refs : Refs) : List (LocalId × LocalId) → LocalId → Except String Unit
  | [], slot =>
    let fnIndex := ck.fnIndex
    if !ck.owned slot then .ok ()
    else if (refs.lookup slot).getD 0 < 1 then
      .error s!"fn{fnIndex}: borrow of released/unbound %{slot}"
    else .ok ()
  | (seen, parent) :: older, slot =>
    if slot = seen then
      if (refs.lookup slot).any (0 < ·) then .ok () else ck.borrowIn refs older parent
    else ck.borrowIn refs older slot

/-- `borrow` among all the borrowed slots. -/
def borrow (ck : Checker) (slot : LocalId) (refs : Refs) : Except String Unit :=
  ck.borrowIn refs ck.projections slot

/-- `borrow_atom`: a projection base is a local. -/
def borrowAtom (ck : Checker) (base : CExpr) (refs : Refs) : Except String Unit :=
  let fnIndex := ck.fnIndex
  match base with
  | .loc slot _ => ck.borrow slot refs
  | _ => .error s!"fn{fnIndex}: projection base is not an atom"

/-- Take one reference of every slot in order. -/
def consumeAll (ck : Checker) : List LocalId → Refs → Except String Refs
  | [], refs => .ok refs
  | slot :: rest, refs => do ck.consumeAll rest (← ck.consume slot refs)

/-- Read every slot. -/
def borrowAll (ck : Checker) (slots : List LocalId) (refs : Refs) : Except String Unit :=
  slots.forM fun slot => ck.borrow slot refs

/-- Bind a slot with one reference. -/
def bindSlot (refs : Refs) (slot : LocalId) (message : String) : Except String Refs :=
  if (refs.lookup slot).isSome then .error message else .ok (refs.insert slot 1)

/-- End the scope of a slot, which must hold no reference. -/
def closeSlot (refs : Refs) (slot : LocalId) (message : String) : Except String Refs :=
  if (refs.lookup slot).getD 0 ≠ 0 then .error message else .ok (refs.remove slot)

/-- Bind several slots in order. -/
def bindSlots (fnIndex : Nat) : List LocalId → Refs → Except String Refs
  | [], refs => .ok refs
  | slot :: rest, refs => do
    bindSlots fnIndex rest (← bindSlot refs slot s!"fn{fnIndex}: rebound %{slot}")

/-- End the scopes of several slots in order. -/
def closeSlots (fnIndex : Nat) : List LocalId → Refs → Except String Refs
  | [], refs => .ok refs
  | slot :: rest, refs => do
    let count := (refs.lookup slot).getD 0
    closeSlots fnIndex rest
      (← closeSlot refs slot s!"fn{fnIndex}: letmany %{slot} left with {count} refs")

/-- The slot a peek is a view of. -/
def peeked : CExpr → Option LocalId
  | .prim op (.loc parent _ :: _) _ => if op.isPeek then some parent else none
  | _ => none

/-- The checks of `Dup`: the slot must be alive. -/
def acquire (ck : Checker) (slot : LocalId) (refs : Refs) : Except String Refs :=
  let fnIndex := ck.fnIndex
  if (ck.projections.lookup slot).isSome then do
    ck.borrow slot refs
    match refs.lookup slot with
    | none => .error "borrowed slot counter"
    | some count => .ok (refs.insert slot (count + 1))
  else if ck.owned slot then
    match refs.lookup slot with
    | none => .error s!"fn{fnIndex}: dup of unbound %{slot}"
    | some count =>
      if count < 1 then .error s!"fn{fnIndex}: dup of released %{slot}"
      else .ok (refs.insert slot (count + 1))
  else .ok refs

mutual

/-- `eval`: the counts after an expression, on every path alike. -/
def eval (ck : Checker) : CExpr → Refs → Except String Refs
  | .lit _ _, refs | .global _ _, refs | .error _, refs => .ok refs
  | .loc slot _, refs => ck.consume slot refs
  | .prim op args _, refs => ck.evalOperands args (primBorrows op args) refs
  | .foreign _ args _ _, refs | .spread args _, refs => ck.evalOperands args [] refs
  | .makeData _ args reuse _ _ _, refs => do
    ck.consumeAll reuse.toList (← ck.evalOperands args [] refs)
  | .app func args reuse _ _, refs => do
    let refs ← ck.eval func refs
    let refs ← ck.evalOperands args (Fai.argBorrows ck.argBorrows func args.length) refs
    ck.consumeAll (reuse.filterMap id) refs
  | .makeClosure _ captures _ _, refs => ck.consumeAll captures refs
  | .dataTag base _ _, refs => do
    ck.borrowAtom base refs
    return refs
  | .dataField base index _ _ _, refs => do
    ck.borrowAtom base refs
    ck.borrowAll index.slots refs
    return refs
  | .ite cond yes no _, refs => do
    let fnIndex := ck.fnIndex
    let refs ← ck.eval cond refs
    let taken ← ck.eval yes refs
    let other ← ck.eval no refs
    if taken.same other then return taken
    else .error s!"fn{fnIndex}: branches leave inconsistent reference state"
  | .letIn slot value body _, refs => do
    let fnIndex := ck.fnIndex
    let refs ← ck.eval value refs
    match peeked value with
    | some parent =>
      if (ck.projections.lookup slot).isSome || (refs.lookup slot).isSome then
        .error s!"fn{fnIndex}: rebound borrowed slot %{slot}"
      else
        let inner := { ck with projections := (slot, parent) :: ck.projections }
        let refs ← inner.eval body (refs.insert slot 0)
        let remaining := (refs.lookup slot).getD 0
        closeSlot refs slot
          s!"fn{fnIndex}: borrowed slot %{slot} left with {remaining} acquired refs"
    | none =>
      let refs ← bindSlot refs slot s!"fn{fnIndex}: rebound %{slot}"
      let refs ← ck.eval body refs
      let remaining := (refs.lookup slot).getD 0
      closeSlot refs slot s!"fn{fnIndex}: let %{slot} left with {remaining} refs"
  | .dup slot body _, refs => do ck.eval body (← ck.acquire slot refs)
  | .drop slot body _, refs => do
    let fnIndex := ck.fnIndex
    if !ck.owned slot then .error s!"fn{fnIndex}: drop of captured %{slot}"
    else ck.eval body (← ck.consume slot refs)
  | .reset value token body _, refs => do
    let fnIndex := ck.fnIndex
    let refs ← ck.eval value refs
    let refs ← bindSlot refs token s!"fn{fnIndex}: rebound reuse token %{token}"
    let refs ← ck.eval body refs
    let remaining := (refs.lookup token).getD 0
    closeSlot refs token s!"fn{fnIndex}: reuse token %{token} left with {remaining} refs"
  | .letMany slots value body _, refs => do
    let refs ← ck.eval value refs
    let refs ← bindSlots ck.fnIndex slots refs
    let refs ← ck.eval body refs
    closeSlots ck.fnIndex slots refs
  | .freeReuse token body _, refs => do ck.eval body (← ck.consume token refs)
  | .join params body _, refs =>
    { ck with loopBorrowed := some (params.map fun param => !ck.owned param) }.eval body refs
  | .recur args _, refs => ck.evalRecur args (ck.loopBorrowed.getD []) refs
  | .holeStart hole body _, refs => do
    let fnIndex := ck.fnIndex
    let refs ← bindSlot refs hole s!"fn{fnIndex}: rebound hole token %{hole}"
    let refs ← ck.eval body refs
    let remaining := (refs.lookup hole).getD 0
    closeSlot refs hole s!"fn{fnIndex}: hole token %{hole} left with {remaining} refs"
  | .holeFill hole cell _ _, refs => do ck.consume hole (← ck.eval cell refs)
  | .holeClose hole base _, refs => do ck.consume hole (← ck.eval base refs)

/-- `operand` for every operand in order: a lent local is read, anything else is evaluated. -/
def evalOperands (ck : Checker) : List CExpr → List Bool → Refs → Except String Refs
  | [], _, refs => .ok refs
  | .loc slot _ :: rest, flags, refs => do
    if flags.headD false then
      ck.borrow slot refs
      ck.evalOperands rest flags.tail refs
    else ck.evalOperands rest flags.tail (← ck.consume slot refs)
  | operand :: rest, flags, refs => do
    ck.evalOperands rest flags.tail (← ck.eval operand refs)

/-- The carried values of a back-edge in order: one on loan is read, any other is evaluated. -/
def evalRecur (ck : Checker) : List CExpr → List Bool → Refs → Except String Refs
  | [], _, refs => .ok refs
  | operand :: rest, flags, refs => do
    if flags.headD false then
      ck.borrowAtom operand refs
      ck.evalRecur rest flags.tail refs
    else ck.evalRecur rest flags.tail (← ck.eval operand refs)

end

end Checker

/-- The first slot left with references at the exit of a function. -/
def leftOver (refs : Refs) : Option (LocalId × Int) := refs.find? fun entry => entry.2 ≠ 0

/-- The parameters that a flag marks as borrowed, or those that none does. -/
def flagged (borrowed : Bool) : List LocalId → List Bool → List LocalId
  | [], _ => []
  | param :: rest, flags =>
    if flags.headD false = borrowed then param :: flagged borrowed rest flags.tail
    else flagged borrowed rest flags.tail

/-- One reference of every slot. -/
def ownedRefs (slots : List LocalId) : Refs :=
  slots.foldl (fun refs slot => refs.insert slot 1) []

/-- Check one function: its owned parameters start with one reference and must end with none. -/
def checkFn (argBorrows : CallBorrows) (fnIndex : Nat) (name : String) (params loans : List LocalId)
    (body : CExpr) : Except String Unit := do
  let ck : Checker := ⟨loans, fnIndex, argBorrows, [], none⟩
  let refs ← ck.eval body (ownedRefs params)
  match leftOver refs with
  | some (slot, count) => .error s!"{name}: local %{slot} left with {count} refs at exit"
  | none => .ok ()

/-- What the checker takes a function to own at entry and to have on loan. -/
structure Convention where
  /-- The parameters it owns. -/
  params : List LocalId
  /-- The captures and the parameters it borrows. -/
  loans : List LocalId

/-- The convention of function `index`: only the entry borrows parameters. -/
def fnConvention (lowered : LoweredDef) (index : Nat) (f : CoreFn) : Convention :=
  let flags := if index = 0 then lowered.entryBorrowed else []
  ⟨flagged false f.params flags, f.captures ++ flagged true f.params flags⟩

/-- The convention of the token-taking entry: its leading parameters are the tokens, which it owns,
and the source parameters follow with the entry's flags. -/
def reuseConvention (lowered : LoweredDef) (entry : CoreFn) : Convention :=
  let source := (lowered.fns.head?.map fun f => f.params.length).getD 0
  let flags := List.replicate (entry.params.length - source) false ++ lowered.entryBorrowed
  ⟨flagged false entry.params flags, entry.captures ++ flagged true entry.params flags⟩

/-- Check the functions of a definition in order. -/
def checkFns (lowered : LoweredDef) (argBorrows : CallBorrows) :
    Nat → List CoreFn → Except String Unit
  | _, [] => .ok ()
  | index, f :: rest => do
    let convention := fnConvention lowered index f
    checkFn argBorrows index s!"fn{index}" convention.params convention.loans f.body
    checkFns lowered argBorrows (index + 1) rest

/-- `check_rc`. -/
def checkRc (lowered : LoweredDef) (argBorrows : CallBorrows) : Except String Unit := do
  checkFns lowered argBorrows 0 lowered.fns
  match lowered.reuseEntry with
  | none => .ok ()
  | some entry =>
    let convention := reuseConvention lowered entry
    checkFn argBorrows (2 ^ 64 - 1) "reuse entry" convention.params convention.loans entry.body

end Verify

end Fai
