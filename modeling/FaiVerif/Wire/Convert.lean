import FaiVerif.Wire.Types

/-!
# The wire form of definitions

`fai-core`'s `wire.rs`: a definition is written with module-qualified names, plain slot numbers and
projected types, and read back with a source number for every module label in the order in which
the labels are first seen. The serialized text between the two is taken to be read as it was
written.
-/

namespace Fai

namespace Wire

/-- A definition by its module label and its name, `WireDefId`. -/
structure WireDefId where
  /-- The module label. -/
  module : String
  /-- The binding name. -/
  name : String
  deriving DecidableEq

/-- `WireFieldIndex`. -/
inductive WireFieldIndex where
  | const (slot : Nat)
  | dyn (base evidence : Nat)

/-- `WireClosureAlloc`. -/
inductive WireClosureAlloc where
  | static | stack | heap

/-- A Core expression in wire form, `WireExpr`, with definitions written as references. -/
inductive WireExpr (ref : Type) where
  | lit (value : Lit) (ty : WireTy)
  | loc (slot : Nat) (ty : WireTy)
  | global (target : ref) (ty : WireTy)
  | prim (op : Prim) (args : List (WireExpr ref)) (ty : WireTy)
  | foreign (symbol : String) (args : List (WireExpr ref)) (marshalled : Bool) (ty : WireTy)
  | app (func : WireExpr ref) (args : List (WireExpr ref)) (reuse : List (Option Nat))
      (alloc : WireClosureAlloc) (ty : WireTy)
  | ite (cond yes no : WireExpr ref) (ty : WireTy)
  | letIn (slot : Nat) (value body : WireExpr ref) (ty : WireTy)
  | spread (components : List (WireExpr ref)) (ty : WireTy)
  | letMany (slots : List Nat) (value body : WireExpr ref) (ty : WireTy)
  | makeClosure (func : Nat) (captures : List Nat) (alloc : WireClosureAlloc) (ty : WireTy)
  | makeData (tag : Nat) (args : List (WireExpr ref)) (reuse : Option Nat) (scalars : Nat)
      (niche : Option NicheKind) (ty : WireTy)
  | dataTag (base : WireExpr ref) (niche : Option NicheKind) (ty : WireTy)
  | dataField (base : WireExpr ref) (index : WireFieldIndex) (scalar : Bool)
      (niche : Option NicheKind) (ty : WireTy)
  | reset (value : WireExpr ref) (token : Nat) (body : WireExpr ref) (ty : WireTy)
  | freeReuse (token : Nat) (body : WireExpr ref) (ty : WireTy)
  | dup (slot : Nat) (body : WireExpr ref) (ty : WireTy)
  | drop (slot : Nat) (body : WireExpr ref) (ty : WireTy)
  | join (params : List Nat) (body : WireExpr ref) (ty : WireTy)
  | recur (args : List (WireExpr ref)) (ty : WireTy)
  | holeStart (hole : Nat) (body : WireExpr ref) (ty : WireTy)
  | holeFill (hole : Nat) (cell : WireExpr ref) (field : Nat) (ty : WireTy)
  | holeClose (hole : Nat) (base : WireExpr ref) (ty : WireTy)
  | error (ty : WireTy)

/-- A function in wire form, `WireFn`. -/
structure WireFn (ref : Type) where
  /-- The parameter slots. -/
  params : List Nat
  /-- The captured slots. -/
  captures : List Nat
  /-- The body. -/
  body : WireExpr ref

/-- A definition in wire form, `WireDef`. -/
structure WireDef where
  /-- The definition's identity. -/
  id : WireDefId
  /-- Its parameter count. -/
  arity : Nat
  /-- Its calling convention. -/
  abi : FnAbi
  /-- Its functions, the entry first. -/
  fns : List (WireFn WireDefId)
  /-- Which entry parameters are borrowed. -/
  entryBorrowed : List Bool
  /-- The entry that takes reuse tokens. -/
  reuseEntry : Option (WireFn WireDefId)
  /-- The size class of each token slot. -/
  reuseSig : List Nat
  /-- The component slots of spread parameters. -/
  entrySpreadParams : List (Option (List Nat))
  /-- The shape bounds of each function's locals. -/
  dataShapes : List (List (Nat × DataShape))
  /-- The entry facts. -/
  boundsEntry : Bounds.BoundSig
  /-- The result facts. -/
  boundsResult : Bounds.ResultSig

/-- A program in wire form, `WireBundle`, without the library paths and the scheduling mode, which
are handed on as they are. -/
structure WireBundle where
  /-- The entry definition. -/
  entry : WireDefId
  /-- The runtime value applied to it. -/
  runtime : WireDefId
  /-- The definitions, in discovery order. -/
  defs : List WireDef

/-! ## Writing -/

/-- `slot`: slots and the numbers on the wire are both 32 bits wide. -/
def slot (name : LocalId) : Nat := name

/-- `alloc_to_wire`. -/
def allocToWire : ClosureAlloc → WireClosureAlloc
  | .static => .static
  | .stack => .stack
  | .heap => .heap

/-- `field_index_to_wire`. -/
def fieldIndexToWire : FieldIndex → WireFieldIndex
  | .const n => .const n
  | .dyn base evidence => .dyn base (slot evidence)

section Writing

variable {ref : Type} (interner : Interner) (refer : DefId → ref)

mutual

/-- `expr_to_wire`. -/
def exprToWire : CExpr → WireExpr ref
  | .lit value ty => .lit value (projectTy ty)
  | .loc name ty => .loc (slot name) (projectTy ty)
  | .global target ty => .global (refer target) (projectTy ty)
  | .prim op args ty => .prim op (exprsToWire args) (projectTy ty)
  | .foreign symbol args marshalled ty =>
    .foreign (interner.text symbol) (exprsToWire args) marshalled (projectTy ty)
  | .app func args reuse alloc ty =>
    .app (exprToWire func) (exprsToWire args) (reuse.map (·.map slot)) (allocToWire alloc)
      (projectTy ty)
  | .ite cond yes no ty =>
    .ite (exprToWire cond) (exprToWire yes) (exprToWire no) (projectTy ty)
  | .letIn name value body ty =>
    .letIn (slot name) (exprToWire value) (exprToWire body) (projectTy ty)
  | .spread components ty => .spread (exprsToWire components) (projectTy ty)
  | .letMany names value body ty =>
    .letMany (names.map slot) (exprToWire value) (exprToWire body) (projectTy ty)
  | .makeClosure func captures alloc ty =>
    .makeClosure func (captures.map slot) (allocToWire alloc) (projectTy ty)
  | .makeData tag args reuse scalars niche ty =>
    .makeData tag (exprsToWire args) (reuse.map slot) scalars niche (projectTy ty)
  | .dataTag base niche ty => .dataTag (exprToWire base) niche (projectTy ty)
  | .dataField base index scalar niche ty =>
    .dataField (exprToWire base) (fieldIndexToWire index) scalar niche (projectTy ty)
  | .reset value token body ty =>
    .reset (exprToWire value) (slot token) (exprToWire body) (projectTy ty)
  | .freeReuse token body ty => .freeReuse (slot token) (exprToWire body) (projectTy ty)
  | .dup name body ty => .dup (slot name) (exprToWire body) (projectTy ty)
  | .drop name body ty => .drop (slot name) (exprToWire body) (projectTy ty)
  | .join params body ty => .join (params.map slot) (exprToWire body) (projectTy ty)
  | .recur args ty => .recur (exprsToWire args) (projectTy ty)
  | .holeStart hole body ty => .holeStart (slot hole) (exprToWire body) (projectTy ty)
  | .holeFill hole cell field ty => .holeFill (slot hole) (exprToWire cell) field (projectTy ty)
  | .holeClose hole base ty => .holeClose (slot hole) (exprToWire base) (projectTy ty)
  | .error ty => .error (projectTy ty)

/-- Operands in wire form. -/
def exprsToWire : List CExpr → List (WireExpr ref)
  | [] => []
  | head :: rest => exprToWire head :: exprsToWire rest

end

/-- `fn_to_wire`. -/
def fnToWire (fn : CoreFn) : WireFn ref :=
  ⟨fn.params.map slot, fn.captures.map slot, exprToWire interner refer fn.body⟩

variable (moduleOf : DefId → String)

/-- `wire_id`. -/
def wireId (d : DefId) : WireDefId := ⟨moduleOf d, interner.text d.name⟩

/-- A definition with the metadata it is shipped with. -/
structure Shipment where
  /-- The lowered definition. -/
  lowered : EmitDef
  /-- Its parameter count. -/
  arity : Nat
  /-- Its calling convention. -/
  abi : FnAbi
  /-- The size class of each token slot. -/
  reuseSig : List Nat
  /-- The entry facts. -/
  boundsEntry : Bounds.BoundSig
  /-- The result facts. -/
  boundsResult : Bounds.ResultSig

/-- `def_to_wire`. -/
def defToWire (shipment : Shipment) : WireDef where
  id := wireId interner moduleOf shipment.lowered.id
  arity := shipment.arity
  abi := shipment.abi
  fns := shipment.lowered.fns.map (fnToWire interner (wireId interner moduleOf))
  entryBorrowed := shipment.lowered.entryBorrowed
  reuseEntry := shipment.lowered.reuseEntry.map (fnToWire interner (wireId interner moduleOf))
  reuseSig := shipment.reuseSig
  entrySpreadParams := shipment.lowered.entrySpreadParams.map (·.map (·.map slot))
  dataShapes := shipment.lowered.dataShapes.map (·.map fun (name, shape) => (slot name, shape))
  boundsEntry := shipment.boundsEntry
  boundsResult := shipment.boundsResult

/-- A program as the daemon holds it: the entry, the runtime value and the reachable definitions
with their metadata. -/
structure Program where
  /-- The entry definition. -/
  entry : DefId
  /-- The runtime value. -/
  runtime : DefId
  /-- The definitions, in discovery order. -/
  defs : List Shipment

/-- The bundle of a program. -/
def bundle (program : Program) : WireBundle :=
  ⟨wireId interner moduleOf program.entry, wireId interner moduleOf program.runtime,
    program.defs.map (defToWire interner moduleOf)⟩

end Writing

/-! ## Reading -/

/-- `SourceAssigner`: the labels seen so far; the number of a label is its position. -/
abbrev SourceAssigner := List String

/-- `SourceAssigner::source`. -/
def source (label : String) : StateM SourceAssigner Nat := fun labels =>
  if label ∈ labels then (labels.idxOf label, labels) else (labels.length, labels ++ [label])

/-- `alloc_from_wire`. -/
def allocFromWire : WireClosureAlloc → ClosureAlloc
  | .static => .static
  | .stack => .stack
  | .heap => .heap

/-- `LocalId::from_index`. -/
def fromIndex (index : Nat) : LocalId := index

/-- `field_index_from_wire`. -/
def fieldIndexFromWire : WireFieldIndex → FieldIndex
  | .const n => .const n
  | .dyn base evidence => .dyn base (fromIndex evidence)

section Reading

variable (interner : Interner)

/-- `SourceAssigner::def_id`. -/
def defId (id : WireDefId) : StateM SourceAssigner DefId := do
  let file ← source id.module
  return ⟨file, interner.intern id.name⟩

mutual

/-- `expr_from_wire`. -/
def exprFromWire : WireExpr WireDefId → StateM SourceAssigner CExpr
  | .lit value ty => return .lit value (reconstructTy interner ty)
  | .loc name ty => return .loc (fromIndex name) (reconstructTy interner ty)
  | .global target ty => do
    let target ← defId interner target
    return .global target (reconstructTy interner ty)
  | .prim op args ty => do
    let args ← exprsFromWire args
    return .prim op args (reconstructTy interner ty)
  | .foreign symbol args marshalled ty => do
    let args ← exprsFromWire args
    return .foreign (interner.intern symbol) args marshalled (reconstructTy interner ty)
  | .app func args reuse alloc ty => do
    let func ← exprFromWire func
    let args ← exprsFromWire args
    return .app func args (reuse.map (·.map fromIndex)) (allocFromWire alloc)
      (reconstructTy interner ty)
  | .ite cond yes no ty => do
    let cond ← exprFromWire cond
    let yes ← exprFromWire yes
    let no ← exprFromWire no
    return .ite cond yes no (reconstructTy interner ty)
  | .letIn name value body ty => do
    let value ← exprFromWire value
    let body ← exprFromWire body
    return .letIn (fromIndex name) value body (reconstructTy interner ty)
  | .spread components ty => do
    let components ← exprsFromWire components
    return .spread components (reconstructTy interner ty)
  | .letMany names value body ty => do
    let value ← exprFromWire value
    let body ← exprFromWire body
    return .letMany (names.map fromIndex) value body (reconstructTy interner ty)
  | .makeClosure func captures alloc ty =>
    return .makeClosure func (captures.map fromIndex) (allocFromWire alloc)
      (reconstructTy interner ty)
  | .makeData tag args reuse scalars niche ty => do
    let args ← exprsFromWire args
    return .makeData tag args (reuse.map fromIndex) scalars niche (reconstructTy interner ty)
  | .dataTag base niche ty => do
    let base ← exprFromWire base
    return .dataTag base niche (reconstructTy interner ty)
  | .dataField base index scalar niche ty => do
    let base ← exprFromWire base
    return .dataField base (fieldIndexFromWire index) scalar niche (reconstructTy interner ty)
  | .reset value token body ty => do
    let value ← exprFromWire value
    let body ← exprFromWire body
    return .reset value (fromIndex token) body (reconstructTy interner ty)
  | .freeReuse token body ty => do
    let body ← exprFromWire body
    return .freeReuse (fromIndex token) body (reconstructTy interner ty)
  | .dup name body ty => do
    let body ← exprFromWire body
    return .dup (fromIndex name) body (reconstructTy interner ty)
  | .drop name body ty => do
    let body ← exprFromWire body
    return .drop (fromIndex name) body (reconstructTy interner ty)
  | .join params body ty => do
    let body ← exprFromWire body
    return .join (params.map fromIndex) body (reconstructTy interner ty)
  | .recur args ty => do
    let args ← exprsFromWire args
    return .recur args (reconstructTy interner ty)
  | .holeStart hole body ty => do
    let body ← exprFromWire body
    return .holeStart (fromIndex hole) body (reconstructTy interner ty)
  | .holeFill hole cell field ty => do
    let cell ← exprFromWire cell
    return .holeFill (fromIndex hole) cell field (reconstructTy interner ty)
  | .holeClose hole base ty => do
    let base ← exprFromWire base
    return .holeClose (fromIndex hole) base (reconstructTy interner ty)
  | .error ty => return .error (reconstructTy interner ty)

/-- Operands read in order. -/
def exprsFromWire : List (WireExpr WireDefId) → StateM SourceAssigner (List CExpr)
  | [] => return []
  | head :: rest => do
    let head ← exprFromWire head
    let rest ← exprsFromWire rest
    return head :: rest

end

/-- `fn_from_wire`. -/
def fnFromWire (fn : WireFn WireDefId) : StateM SourceAssigner CoreFn := do
  let body ← exprFromWire interner fn.body
  return ⟨fn.params.map fromIndex, fn.captures.map fromIndex, body⟩

/-- Functions read in order. -/
def fnsFromWire : List (WireFn WireDefId) → StateM SourceAssigner (List CoreFn)
  | [] => return []
  | head :: rest => do
    let head ← fnFromWire interner head
    let rest ← fnsFromWire rest
    return head :: rest

/-- The specialized entry, when there is one. -/
def entryFromWire : Option (WireFn WireDefId) → StateM SourceAssigner (Option CoreFn)
  | none => return none
  | some fn => do
    let fn ← fnFromWire interner fn
    return some fn

/-- One definition of `defs_from_wire`. -/
def defFromWire (wire : WireDef) : StateM SourceAssigner EmitDef := do
  let id ← defId interner wire.id
  let fns ← fnsFromWire interner wire.fns
  let reuseEntry ← entryFromWire interner wire.reuseEntry
  return {
    id := id
    fns := fns
    entryBorrowed := wire.entryBorrowed
    reuseEntry := reuseEntry
    dataShapes := wire.dataShapes.map (·.map fun (name, shape) => (fromIndex name, shape))
    entrySpreadParams := wire.entrySpreadParams.map (·.map (·.map fromIndex)) }

/-- A table by definition, a later entry replacing an earlier one. -/
abbrev Table (α : Type) := DefId → Option α

/-- The side tables of a rebuilt program. -/
structure Tables where
  /-- The parameter counts. -/
  arities : Table Nat
  /-- The calling conventions. -/
  abis : Table FnAbi
  /-- The entry facts. -/
  boundsEntry : Table Bounds.BoundSig
  /-- The result facts. -/
  boundsResult : Table Bounds.ResultSig

/-- The tables of no definition. -/
def Tables.empty : Tables := ⟨fun _ => none, fun _ => none, fun _ => none, fun _ => none⟩

/-- Enter the metadata of a definition. -/
def Tables.insert (tables : Tables) (id : DefId) (arity : Nat) (abi : FnAbi)
    (entry : Bounds.BoundSig) (result : Bounds.ResultSig) : Tables where
  arities := Function.update tables.arities id (some arity)
  abis := Function.update tables.abis id (some abi)
  boundsEntry := Function.update tables.boundsEntry id (some entry)
  boundsResult := Function.update tables.boundsResult id (some result)

/-- `defs_from_wire`. -/
def defsFromWire (tables : Tables) : List WireDef → StateM SourceAssigner (List EmitDef × Tables)
  | [] => return ([], tables)
  | wire :: rest => do
    let d ← defFromWire interner wire
    let tables := tables.insert d.id wire.arity wire.abi wire.boundsEntry wire.boundsResult
    let (defs, tables) ← defsFromWire tables rest
    return (d :: defs, tables)

/-- A program as a worker holds it, `Rebuilt`. -/
structure Rebuilt where
  /-- The definitions. -/
  defs : List EmitDef
  /-- The entry definition. -/
  entry : DefId
  /-- The runtime value. -/
  runtime : DefId
  /-- The label of each source number. -/
  moduleLabels : Nat → Option String
  /-- The side tables. -/
  tables : Tables

/-- The reads of `from_wire`, before the labels are collected. -/
def readBundle (wire : WireBundle) :
    StateM SourceAssigner (DefId × DefId × List EmitDef × Tables) := do
  let entry ← defId interner wire.entry
  let runtime ← defId interner wire.runtime
  let defs ← defsFromWire interner .empty wire.defs
  return (entry, runtime, defs)

/-- `from_wire`. -/
def fromWire (wire : WireBundle) : Rebuilt :=
  let ((entry, runtime, defs, tables), labels) := (readBundle interner wire).run []
  ⟨defs, entry, runtime, fun file => labels[file]?, tables⟩

end Reading

end Wire

end Fai
