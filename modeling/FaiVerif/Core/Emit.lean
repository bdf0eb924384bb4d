import FaiVerif.Core.Bounds

/-!
# Emit-ready definitions

What code generation is given for a definition: the lowered functions with the side tables of
`LoweredDef`, the native calling convention of `FnAbi`, and the interned names as text. The nodes
of a body are listed once here, so that what is said of every node's type and of every referenced
definition can be said of a list.
-/

namespace Fai

/-- The symbol table of a process: `as_str` and `Symbol::intern`. -/
structure Interner where
  /-- The text of a symbol. -/
  text : Symbol → String
  /-- The symbol of a text. -/
  intern : String → Symbol
  /-- Interning the text of a symbol gives the symbol. -/
  intern_text : ∀ symbol, intern (text symbol) = symbol

/-- Two symbols of the same text are the same. -/
theorem Interner.text_injective (interner : Interner) : Function.Injective interner.text := by
  intro first second same
  rw [← interner.intern_text first, same, interner.intern_text]

/-- The native representation of an entry parameter or result, `ir::Repr`. -/
inductive NativeRepr where
  | uniform
  | scalarFloat
  | scalarInt
  | niche (kind : NicheKind)
  | spread (components : List NativeRepr)
  | taggedResult (first second : Nat)

mutual

/-- Structural equality of representations. -/
def NativeRepr.beq : NativeRepr → NativeRepr → Bool
  | .uniform, .uniform => true
  | .scalarFloat, .scalarFloat => true
  | .scalarInt, .scalarInt => true
  | .niche left, .niche right => left == right
  | .spread left, .spread right => NativeRepr.beqList left right
  | .taggedResult first second, .taggedResult first' second' =>
    first == first' && second == second'
  | _, _ => false

/-- Structural equality of component lists. -/
def NativeRepr.beqList : List NativeRepr → List NativeRepr → Bool
  | [], [] => true
  | head :: rest, head' :: rest' => head.beq head' && NativeRepr.beqList rest rest'
  | _, _ => false

end

mutual

/-- Structural equality decides equality of representations. -/
theorem NativeRepr.beq_iff : ∀ left right : NativeRepr, left.beq right = true ↔ left = right
  | .uniform, right => by cases right <;> simp [NativeRepr.beq]
  | .scalarFloat, right => by cases right <;> simp [NativeRepr.beq]
  | .scalarInt, right => by cases right <;> simp [NativeRepr.beq]
  | .niche _, right => by cases right <;> simp [NativeRepr.beq]
  | .spread components, right => by
    cases right <;> simp [NativeRepr.beq]
    exact NativeRepr.beqList_iff components _
  | .taggedResult _ _, right => by cases right <;> simp [NativeRepr.beq]

/-- Structural equality decides equality of component lists. -/
theorem NativeRepr.beqList_iff :
    ∀ left right : List NativeRepr, NativeRepr.beqList left right = true ↔ left = right
  | [], right => by cases right <;> simp [NativeRepr.beqList]
  | head :: rest, right => by
    cases right <;> simp [NativeRepr.beqList]
    rw [NativeRepr.beq_iff head, NativeRepr.beqList_iff rest]

end

instance : DecidableEq NativeRepr := fun left right =>
  decidable_of_iff _ (NativeRepr.beq_iff left right)

/-- The native calling convention of a definition, `FnAbi`. -/
structure FnAbi where
  /-- The representation of each runtime parameter. -/
  params : List NativeRepr
  /-- The representation of the result. -/
  ret : NativeRepr
  /-- Whether the entry takes its arguments in registers. -/
  registerAbi : Bool
  deriving DecidableEq

/-- `is_uniform`: every parameter and the result are uniform words. -/
def FnAbi.isUniform (abi : FnAbi) : Bool :=
  abi.ret == .uniform && abi.params.all (· == .uniform)

/-- Bounds on the allocated shapes of a local, `DataShape`. -/
structure DataShape where
  /-- The largest tag of a constructor with fields. -/
  maxTag : Nat
  /-- The largest field count. -/
  maxFields : Nat
  /-- The union of the raw-float field bitmaps. -/
  scalars : Nat
  /-- Whether reachable data holds no native resource or function. -/
  resourceFree : Bool
  /-- The tag of every boxed alternative, when unique. -/
  boxedTag : Option Nat
  /-- The tag of every immediate alternative, when unique. -/
  immediateTag : Option Nat
  /-- Whether every alternative is allocated. -/
  alwaysBoxed : Bool
  deriving DecidableEq

/-- A lowered definition as code generation is given it, with its identity and side tables. -/
structure EmitDef extends LoweredDef where
  /-- The definition. -/
  id : DefId
  /-- The component slots of each spread entry parameter. -/
  entrySpreadParams : List (Option (List LocalId))
  /-- The shape bounds of each function's locals. -/
  dataShapes : List (List (LocalId × DataShape))

namespace CExpr

mutual

/-- The nodes of an expression, outermost first. -/
def nodes : CExpr → List CExpr
  | lit value ty => [lit value ty]
  | loc slot ty => [loc slot ty]
  | global target ty => [global target ty]
  | prim op args ty => prim op args ty :: nodesList args
  | foreign symbol args marshalled ty => foreign symbol args marshalled ty :: nodesList args
  | app func args reuse alloc ty => app func args reuse alloc ty :: (func.nodes ++ nodesList args)
  | ite cond yes no ty => ite cond yes no ty :: (cond.nodes ++ yes.nodes ++ no.nodes)
  | letIn slot value body ty => letIn slot value body ty :: (value.nodes ++ body.nodes)
  | spread components ty => spread components ty :: nodesList components
  | letMany slots value body ty => letMany slots value body ty :: (value.nodes ++ body.nodes)
  | makeClosure func captures alloc ty => [makeClosure func captures alloc ty]
  | makeData tag args reuse scalars niche ty =>
    makeData tag args reuse scalars niche ty :: nodesList args
  | dataTag base niche ty => dataTag base niche ty :: base.nodes
  | dataField base index scalar niche ty => dataField base index scalar niche ty :: base.nodes
  | reset value token body ty => reset value token body ty :: (value.nodes ++ body.nodes)
  | freeReuse token body ty => freeReuse token body ty :: body.nodes
  | dup slot body ty => dup slot body ty :: body.nodes
  | drop slot body ty => drop slot body ty :: body.nodes
  | join params body ty => join params body ty :: body.nodes
  | recur args ty => recur args ty :: nodesList args
  | holeStart hole body ty => holeStart hole body ty :: body.nodes
  | holeFill hole cell field ty => holeFill hole cell field ty :: cell.nodes
  | holeClose hole base ty => holeClose hole base ty :: base.nodes
  | error ty => [error ty]

/-- The nodes of operands, in order. -/
def nodesList : List CExpr → List CExpr
  | [] => []
  | head :: rest => head.nodes ++ nodesList rest

end

/-- The nodes of operands are those of each. -/
theorem nodesList_eq (es : List CExpr) : nodesList es = es.flatMap nodes := by
  induction es with
  | nil => rfl
  | cons head rest inductionHypothesis =>
    rw [nodesList, inductionHypothesis, List.flatMap_cons]

/-- The nodes of an expression are itself and the nodes of its children. -/
theorem nodes_eq (e : CExpr) : e.nodes = e :: e.children.flatMap nodes := by
  cases e <;> simp [nodes, children, nodesList_eq]

/-- The definition a node refers to. -/
def target? : CExpr → Option DefId
  | global target _ => some target
  | _ => none

/-- The definitions an expression refers to. -/
def targets (e : CExpr) : List DefId := e.nodes.filterMap target?

mutual

/-- Rename the definitions an expression refers to and replace the type of every node. -/
def translate (rename : DefId → DefId) (retype : Ty → Ty) : CExpr → CExpr
  | lit value ty => lit value (retype ty)
  | loc slot ty => loc slot (retype ty)
  | global target ty => global (rename target) (retype ty)
  | prim op args ty => prim op (translateList rename retype args) (retype ty)
  | foreign symbol args marshalled ty =>
    foreign symbol (translateList rename retype args) marshalled (retype ty)
  | app func args reuse alloc ty =>
    app (func.translate rename retype) (translateList rename retype args) reuse alloc (retype ty)
  | ite cond yes no ty =>
    ite (cond.translate rename retype) (yes.translate rename retype) (no.translate rename retype)
      (retype ty)
  | letIn slot value body ty =>
    letIn slot (value.translate rename retype) (body.translate rename retype) (retype ty)
  | spread components ty => spread (translateList rename retype components) (retype ty)
  | letMany slots value body ty =>
    letMany slots (value.translate rename retype) (body.translate rename retype) (retype ty)
  | makeClosure func captures alloc ty => makeClosure func captures alloc (retype ty)
  | makeData tag args reuse scalars niche ty =>
    makeData tag (translateList rename retype args) reuse scalars niche (retype ty)
  | dataTag base niche ty => dataTag (base.translate rename retype) niche (retype ty)
  | dataField base index scalar niche ty =>
    dataField (base.translate rename retype) index scalar niche (retype ty)
  | reset value token body ty =>
    reset (value.translate rename retype) token (body.translate rename retype) (retype ty)
  | freeReuse token body ty => freeReuse token (body.translate rename retype) (retype ty)
  | dup slot body ty => dup slot (body.translate rename retype) (retype ty)
  | drop slot body ty => drop slot (body.translate rename retype) (retype ty)
  | join params body ty => join params (body.translate rename retype) (retype ty)
  | recur args ty => recur (translateList rename retype args) (retype ty)
  | holeStart hole body ty => holeStart hole (body.translate rename retype) (retype ty)
  | holeFill hole cell field ty => holeFill hole (cell.translate rename retype) field (retype ty)
  | holeClose hole base ty => holeClose hole (base.translate rename retype) (retype ty)
  | error ty => error (retype ty)

/-- Rename and retype operands. -/
def translateList (rename : DefId → DefId) (retype : Ty → Ty) : List CExpr → List CExpr
  | [] => []
  | head :: rest => head.translate rename retype :: translateList rename retype rest

end

end CExpr

/-- Rename and retype the body of a function. -/
def CoreFn.translate (rename : DefId → DefId) (retype : Ty → Ty) (fn : CoreFn) : CoreFn :=
  { fn with body := fn.body.translate rename retype }

namespace EmitDef

/-- The functions of a definition, the specialized entry last. -/
def allFns (d : EmitDef) : List CoreFn := d.fns ++ d.reuseEntry.toList

/-- The nodes of all functions of a definition. -/
def nodes (d : EmitDef) : List CExpr := d.allFns.flatMap fun fn => fn.body.nodes

/-- The definitions a definition refers to, itself first. -/
def ids (d : EmitDef) : List DefId := d.id :: d.nodes.filterMap CExpr.target?

/-- Rename and retype a definition. -/
def translate (rename : DefId → DefId) (retype : Ty → Ty) (d : EmitDef) : EmitDef :=
  { d with
    id := rename d.id
    fns := d.fns.map (CoreFn.translate rename retype)
    reuseEntry := d.reuseEntry.map (CoreFn.translate rename retype) }

end EmitDef

end Fai
