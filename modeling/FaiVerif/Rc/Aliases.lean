import FaiVerif.Core.Niche
import FaiVerif.Core.Scoping

/-!
# Coalescing local aliases

`aliases.rs` removes a binding of a local to a local of the same uniform representation and lets
its uses name the original. What it names them is kept in one table for the whole body, and the
representation of a local is what every typed occurrence of it agrees on.
-/

namespace Fai.Aliases

open CExpr

/-- `is_boxed_data_ty`: whether values of a type are boxed data. -/
def isBoxedDataTy : Ty → Bool
  | .record _ _ | .tuple _ => true
  | ty => isDataHead ty
where
  /-- Whether the head of an applied type is a data type. -/
  isDataHead : Ty → Bool
    | .adt _ | .interface _ | .con .list => true
    | .app head _ => isDataHead head
    | _ => false

/-- `same_representation_type`: the types are equal or both variables. -/
def sameRepresentationType (a b : Ty) : Bool := decide (a = b) || (a.isVar && b.isVar)

/-- Whether a type is one of the other types with a uniform representation: a variable, a text or
an array. -/
def isUniformLeaf : Ty → Bool
  | .var _ | .con .string | .con .bytes | .app (.con .array) _ => true
  | _ => false

/-- `uniform_alias`: whether values of a type have a uniform representation. -/
def uniformAlias (ty : Ty) : Bool := isBoxedDataTy ty || isUniformLeaf ty

/-- What the typed occurrences of each local agree on: nothing where they disagree. -/
abbrev Types := LocalId → Option (Option Ty)

/-- `note`: an occurrence of a local at a type. -/
def note (types : Types) (slot : LocalId) (ty : Ty) : Types :=
  if ty = .error then types
  else fun other => if other = slot then
    match types slot with
    | none => some (some ty)
    | some old => some (old.filter fun old => sameRepresentationType old ty)
  else types other

mutual

/-- `collect_types`: the occurrences of the locals of an expression. -/
def collectTypes : CExpr → Types → Types
  | .loc slot ty, types => note types slot ty
  | .letIn slot value body _, types =>
    collectTypes body (collectTypes value (note types slot value.ty))
  | .lit _ _, types | .global _ _, types | .makeClosure _ _ _ _, types | .error _, types => types
  | .prim _ args _, types | .foreign _ args _ _, types | .makeData _ args _ _ _ _, types
  | .recur args _, types | .spread args _, types => collectAll args types
  | .app func args _ _ _, types => collectAll args (collectTypes func types)
  | .ite cond yes no _, types => collectTypes no (collectTypes yes (collectTypes cond types))
  | .reset value _ body _, types | .letMany _ value body _, types =>
    collectTypes body (collectTypes value types)
  | .freeReuse _ body _, types | .dup _ body _, types | .drop _ body _, types
  | .join _ body _, types | .holeStart _ body _, types => collectTypes body types
  | .dataTag base _ _, types | .holeClose _ base _, types | .dataField base _ _ _ _, types =>
    collectTypes base types
  | .holeFill _ cell _ _, types => collectTypes cell types

/-- The occurrences of the locals of operands. -/
def collectAll : List CExpr → Types → Types
  | [], types => types
  | e :: rest, types => collectAll rest (collectTypes e types)

end

end Fai.Aliases

namespace Fai

open Aliases

/-- What coalescing has found so far: the locals that name others, and the types that removed
bindings gave to locals, `Aliases`. -/
structure Aliases where
  /-- What a local names. -/
  locals : LocalId → Option LocalId
  /-- The type a removed binding gave to a local. -/
  retainedTypes : LocalId → Option Ty

namespace Aliases

open CExpr

/-- `local`: what a local is called. -/
def target (aliases : Aliases) (slot : LocalId) : LocalId := (aliases.locals slot).getD slot

/-- Records that a local names another, at a type. -/
def insert (aliases : Aliases) (slot original : LocalId) (ty : Ty) : Aliases where
  locals other := if other = slot then some original else aliases.locals other
  retainedTypes other := if other = original then some ty else aliases.retainedTypes other

/-- No alias yet. -/
def empty : Aliases where
  locals _ := none
  retainedTypes _ := none

/-- The type of a use of a local: a marker type becomes the type a removed binding gave. -/
def useTy (aliases : Aliases) (slot : LocalId) (ty : Ty) : Ty :=
  if ty = .error then (aliases.retainedTypes slot).getD ty else ty

/-- Whether every typed occurrence of a local has the representation of a type. -/
def agrees (types : Types) (slot : LocalId) (ty : Ty) : Bool :=
  ((types slot).bind id).any fun known => sameRepresentationType known ty

/-- Whether a binding of a local to another at a type is removed. -/
def removes (decls : TypeDecls) (types : Types) (slot original : LocalId) (ty : Ty) : Bool :=
  uniformAlias ty && (decls.nicheScheme ty).isNone && agrees types slot ty &&
    agrees types original ty

/-- The local that a rewritten value is and that replaces the slot bound to it. -/
def replacement (decls : TypeDecls) (types : Types) (slot : LocalId) (value : CExpr) :
    Option LocalId :=
  value.asLocal.filter fun original => removes decls types slot original value.ty

/-- The index of a field under another name of its evidence. -/
def renameIndex (name : LocalId → LocalId) : FieldIndex → FieldIndex
  | .const slot => .const slot
  | .dyn base evidence => .dyn base (name evidence)

mutual

/-- `rewrite`: an expression with its removable bindings removed, and the aliases after it. -/
def rewrite (decls : TypeDecls) (types : Types) : CExpr → Aliases → CExpr × Aliases
  | .loc slot ty, s => (loc (s.target slot) (s.useTy (s.target slot) ty), s)
  | .letIn slot value body ty, s =>
    let held := rewrite decls types value s
    match replacement decls types slot held.1 with
    | some original =>
      rewrite decls types body (held.2.insert slot (held.2.target original) held.1.ty)
    | none =>
      let rest := rewrite decls types body held.2
      (letIn slot held.1 rest.1 ty, rest.2)
  | .ite cond yes no ty, s =>
    let first := rewrite decls types cond s
    let second := rewrite decls types yes first.2
    let third := rewrite decls types no second.2
    (.ite first.1 second.1 third.1 ty, third.2)
  | .prim op args ty, s =>
    let operands := rewriteAll decls types args s
    (prim op operands.1 ty, operands.2)
  | .foreign symbol args marshalled ty, s =>
    let operands := rewriteAll decls types args s
    (foreign symbol operands.1 marshalled ty, operands.2)
  | .app func args reuse alloc ty, s =>
    let callee := rewrite decls types func s
    let operands := rewriteAll decls types args callee.2
    (app callee.1 operands.1 (reuse.map (Option.map operands.2.target)) alloc ty, operands.2)
  | .makeData tag args reuse scalars niche ty, s =>
    let operands := rewriteAll decls types args s
    (makeData tag operands.1 (reuse.map operands.2.target) scalars niche ty, operands.2)
  | .makeClosure func captures alloc ty, s =>
    (makeClosure func (captures.map s.target) alloc ty, s)
  | .dataField base index scalar niche ty, s =>
    let held := rewrite decls types base s
    (dataField held.1 (renameIndex held.2.target index) scalar niche ty, held.2)
  | .dataTag base niche ty, s =>
    let held := rewrite decls types base s
    (dataTag held.1 niche ty, held.2)
  | .spread components ty, s =>
    let operands := rewriteAll decls types components s
    (spread operands.1 ty, operands.2)
  | .letMany slots value body ty, s =>
    let held := rewrite decls types value s
    let rest := rewrite decls types body held.2
    (letMany slots held.1 rest.1 ty, rest.2)
  | .reset value token body ty, s =>
    let held := rewrite decls types value s
    let rest := rewrite decls types body held.2
    (reset held.1 token rest.1 ty, rest.2)
  | .freeReuse token body ty, s =>
    let rest := rewrite decls types body s
    (freeReuse (s.target token) rest.1 ty, rest.2)
  | .dup slot body ty, s =>
    let rest := rewrite decls types body s
    (dup (s.target slot) rest.1 ty, rest.2)
  | .drop slot body ty, s =>
    let rest := rewrite decls types body s
    (drop (s.target slot) rest.1 ty, rest.2)
  | .join params body ty, s =>
    let rest := rewrite decls types body s
    (join params rest.1 ty, rest.2)
  | .recur args ty, s =>
    let operands := rewriteAll decls types args s
    (recur operands.1 ty, operands.2)
  | .holeStart hole body ty, s =>
    let rest := rewrite decls types body s
    (holeStart hole rest.1 ty, rest.2)
  | .holeFill hole cell field ty, s =>
    let held := rewrite decls types cell s
    (holeFill (s.target hole) held.1 field ty, held.2)
  | .holeClose hole base ty, s =>
    let held := rewrite decls types base s
    (holeClose (s.target hole) held.1 ty, held.2)
  | .lit value ty, s => (lit value ty, s)
  | .global definition ty, s => (global definition ty, s)
  | .error ty, s => (error ty, s)

/-- Operands with their removable bindings removed. -/
def rewriteAll (decls : TypeDecls) (types : Types) : List CExpr → Aliases → List CExpr × Aliases
  | [], s => ([], s)
  | e :: rest, s =>
    let first := rewrite decls types e s
    let others := rewriteAll decls types rest first.2
    (first.1 :: others.1, others.2)

end

/-- `coalesce`: a body with its uniform aliases removed. -/
def coalesce (decls : TypeDecls) (body : CExpr) : CExpr :=
  (rewrite decls (collectTypes body fun _ => none) body empty).1

end Aliases

end Fai
