import Mathlib.Data.List.Basic
import Mathlib.Tactic.Common

/-!
# The Core intermediate representation

The typed, desugared tree of `fai-core`'s `ir.rs`: every node carries its type, every operation
consumes its operands unless the primitive or the callee borrows them, and the reference-counting
and tail-call nodes are absent after lowering and inserted by `fai-rc`. Slots, definitions and
interned names are their indices. Operand lists are nested, so the structural induction principle
of expressions is stated once here and used by every pass.
-/

namespace Fai

/-- A local slot: a parameter, a `let` binding, a capture, a reuse token or a hole. -/
abbrev LocalId := Nat

/-- An interned name. -/
abbrev Symbol := Nat

/-- A top-level definition: its defining file and its name. -/
structure DefId where
  /-- The defining file. -/
  file : Nat
  /-- The binding's name. -/
  name : Symbol
  deriving DecidableEq, Repr

/-- A nominal reference: the declaring file and the declared name. -/
structure NominalRef where
  /-- The declaring file. -/
  file : Nat
  /-- The declared name. -/
  name : Symbol
  deriving DecidableEq, Repr

/-- The type constructors of `fai_types::Con`. -/
inductive Con where
  | int | float | bool | string | bytes | char | list | array
  deriving DecidableEq, Repr

/-- The tail of a record row or of an effect row: closed, or open on a row variable. -/
inductive RowEnd where
  | closed
  | open (var : Nat)
  deriving DecidableEq, Repr

/-- A reified effect row: its sorted interface labels and its tail. -/
structure EffectRow where
  /-- The effect atoms. -/
  labels : List NominalRef
  /-- The row's tail. -/
  tail : RowEnd
  deriving DecidableEq, Repr

/-- The types of `fai_types::Ty`. Record fields are sorted by label. -/
inductive Ty where
  | var (id : Nat)
  | con (con : Con)
  | adt (ref : NominalRef)
  | interface (ref : NominalRef)
  | effectArg (row : EffectRow)
  | app (head arg : Ty)
  | arrow (source target : Ty) (effect : EffectRow)
  | tuple (fields : List Ty)
  | record (fields : List (Symbol × Ty)) (tail : RowEnd)
  | unit
  | error

mutual

/-- Structural equality of types. -/
def Ty.beq : Ty → Ty → Bool
  | .var left, .var right => left == right
  | .con left, .con right => left == right
  | .adt left, .adt right => left == right
  | .interface left, .interface right => left == right
  | .effectArg left, .effectArg right => left == right
  | .app head arg, .app head' arg' => head.beq head' && arg.beq arg'
  | .arrow source target effect, .arrow source' target' effect' =>
    source.beq source' && target.beq target' && effect == effect'
  | .tuple fields, .tuple fields' => Ty.beqList fields fields'
  | .record fields tail, .record fields' tail' => Ty.beqFields fields fields' && tail == tail'
  | .unit, .unit => true
  | .error, .error => true
  | _, _ => false

/-- Structural equality of tuple components. -/
def Ty.beqList : List Ty → List Ty → Bool
  | [], [] => true
  | head :: rest, head' :: rest' => head.beq head' && Ty.beqList rest rest'
  | _, _ => false

/-- Structural equality of labelled fields. -/
def Ty.beqFields : List (Symbol × Ty) → List (Symbol × Ty) → Bool
  | [], [] => true
  | (label, head) :: rest, (label', head') :: rest' =>
    label == label' && head.beq head' && Ty.beqFields rest rest'
  | _, _ => false

end

mutual

/-- Structural equality decides equality of types. -/
theorem Ty.beq_iff : ∀ left right : Ty, left.beq right = true ↔ left = right
  | .var _, right => by cases right <;> simp [Ty.beq]
  | .con _, right => by cases right <;> simp [Ty.beq]
  | .adt _, right => by cases right <;> simp [Ty.beq]
  | .interface _, right => by cases right <;> simp [Ty.beq]
  | .effectArg _, right => by cases right <;> simp [Ty.beq]
  | .app head arg, right => by
    cases right <;> simp [Ty.beq]
    rw [Ty.beq_iff head, Ty.beq_iff arg]
  | .arrow source target effect, right => by
    cases right <;> simp [Ty.beq]
    rw [Ty.beq_iff source, Ty.beq_iff target, and_assoc]
  | .tuple fields, right => by
    cases right <;> simp [Ty.beq]
    exact Ty.beqList_iff fields _
  | .record fields tail, right => by
    cases right <;> simp [Ty.beq]
    rw [Ty.beqFields_iff fields]
    exact fun _ => Iff.rfl
  | .unit, right => by cases right <;> simp [Ty.beq]
  | .error, right => by cases right <;> simp [Ty.beq]

/-- Structural equality decides equality of component lists. -/
theorem Ty.beqList_iff : ∀ left right : List Ty, Ty.beqList left right = true ↔ left = right
  | [], right => by cases right <;> simp [Ty.beqList]
  | head :: rest, right => by
    cases right <;> simp [Ty.beqList]
    rw [Ty.beq_iff head, Ty.beqList_iff rest]

/-- Structural equality decides equality of labelled fields. -/
theorem Ty.beqFields_iff :
    ∀ left right : List (Symbol × Ty), Ty.beqFields left right = true ↔ left = right
  | [], right => by cases right <;> simp [Ty.beqFields]
  | (label, head) :: rest, right => by
    cases right with
    | nil => simp [Ty.beqFields]
    | cons other others =>
      obtain ⟨label', head'⟩ := other
      simp only [Ty.beqFields, Bool.and_eq_true, beq_iff_eq, List.cons.injEq, Prod.mk.injEq]
      rw [Ty.beq_iff head, Ty.beqFields_iff rest]

end

instance : DecidableEq Ty := fun left right => decidable_of_iff _ (Ty.beq_iff left right)

/-- How a niche `Option` encodes `None`. -/
inductive NicheKind where
  | a | b
  deriving DecidableEq, Repr

/-- A decoded literal; a `Float` is its bit pattern and a string its UTF-8 bytes. -/
inductive Lit where
  | int (value : Int64)
  | float (bits : UInt64)
  | char (scalar : Char)
  | bool (value : Bool)
  | str (bytes : List UInt8)
  | unit
  deriving DecidableEq, Repr

/-- The primitive operations of `ir::Prim`, in the order of the source. -/
inductive Prim where
  | intAdd | intBox | intSub | intMul | intDiv | intRem | intAnd | intOr | intXor | intShl
  | intShr | intShrLogical | intComplement | intLt | intLe | intGt | intGe | floatAdd | floatSub
  | floatNeg | floatMul | floatDiv | floatLt | floatLe | floatGt | floatGe | compare | hash | eq
  | strConcat | intToString | floatToString | intToFloat | floatToInt | sqrt | floatFromBits
  | floatToBits | charToString | charToCode | charFromCode | isValidCharCode | stringLength
  | toUpper | toLower | trim | stringContains | stringFind | stringSplit | stringJoin
  | stringSubstring | stringTake | stringDrop | not | recordUpdate | arrayWithCapacity
  | arrayRepeat | arrayLength | arrayGet | arrayPeek | dataPeek | listReversePrefix | arraySet
  | arrayUnique | arrayTake | arrayPut | arrayPush | arrayPushReserved | arraySplit | arrayJoin
  | bytesLength | bytesGet | bytesFind | bytesFindUtf8 | bytesConcat | bytesConcatMany
  | bytesSlice | bytesFromList | bytesToList | bytesFromString | bytesToString | bytesIsUtf8
  | cryptoSha256 | cryptoHmacSha256 | cryptoPbkdf2Sha256 | cryptoEqual | cryptoScramPassword
  | textGraphemes | textWidth | pathOperation | pathComponents | regexCompile | regexFindText
  | regexFindBytes | regexTestText | regexTestBytes | regexNames | regexByteIndex | regexSlice
  | regexEscape | compressionCreate | compressionStep | textPairsFromList | textPairsFromRanges
  | textPairsToList | textPairsGet | textPairsGetAll | textPairsIsEmpty | bytesSpan
  | textPairsRenderList | textPairsRenderRows
  deriving DecidableEq, Repr

/-- The slot of a projected field: a constant, or a static base plus an evidence local. -/
inductive FieldIndex where
  | const (slot : Nat)
  | dyn (base : Nat) (evidence : LocalId)
  deriving DecidableEq, Repr

/-- How a closure or a partial application is realized. -/
inductive ClosureAlloc where
  | static | stack | heap
  deriving DecidableEq, Repr

/-- A typed Core expression; the last field of every node is its type. -/
inductive CExpr where
  /-- A literal. -/
  | lit (value : Lit) (ty : Ty)
  /-- A use of a local. -/
  | loc (slot : LocalId) (ty : Ty)
  /-- A top-level definition as a value. -/
  | global (target : DefId) (ty : Ty)
  /-- A saturated primitive application. -/
  | prim (op : Prim) (args : List CExpr) (ty : Ty)
  /-- A saturated call of a native runtime symbol. -/
  | foreign (symbol : Symbol) (args : List CExpr) (marshalled : Bool) (ty : Ty)
  /-- A general application, with the reuse tokens forwarded into the callee. -/
  | app (func : CExpr) (args : List CExpr) (reuse : List (Option LocalId)) (alloc : ClosureAlloc)
      (ty : Ty)
  /-- A conditional. -/
  | ite (cond yes no : CExpr) (ty : Ty)
  /-- `let slot = value in body`. -/
  | letIn (slot : LocalId) (value body : CExpr) (ty : Ty)
  /-- Exploded components in canonical field order. -/
  | spread (components : List CExpr) (ty : Ty)
  /-- Several slots bound from one multi-result value. -/
  | letMany (slots : List LocalId) (value body : CExpr) (ty : Ty)
  /-- A closure of a lifted function over the captured slots. -/
  | makeClosure (func : Nat) (captures : List LocalId) (alloc : ClosureAlloc) (ty : Ty)
  /-- A data construction, optionally into the memory of a reuse token. -/
  | makeData (tag : Nat) (args : List CExpr) (reuse : Option LocalId) (scalars : Nat)
      (niche : Option NicheKind) (ty : Ty)
  /-- The tag of a data value. -/
  | dataTag (base : CExpr) (niche : Option NicheKind) (ty : Ty)
  /-- A field of a data value. -/
  | dataField (base : CExpr) (index : FieldIndex) (scalar : Bool) (niche : Option NicheKind)
      (ty : Ty)
  /-- Release `value` and bind `token` to its memory. -/
  | reset (value : CExpr) (token : LocalId) (body : CExpr) (ty : Ty)
  /-- Free an unconsumed reuse token. -/
  | freeReuse (token : LocalId) (body : CExpr) (ty : Ty)
  /-- Acquire one more reference of a local. -/
  | dup (slot : LocalId) (body : CExpr) (ty : Ty)
  /-- Release one reference of a local. -/
  | drop (slot : LocalId) (body : CExpr) (ty : Ty)
  /-- A loop header over the carried `params`. -/
  | join (params : List LocalId) (body : CExpr) (ty : Ty)
  /-- A back-edge to the enclosing loop header. -/
  | recur (args : List CExpr) (ty : Ty)
  /-- Bind a fresh destination token. -/
  | holeStart (hole : LocalId) (body : CExpr) (ty : Ty)
  /-- Link a cell into the spine and advance the destination to its `field`. -/
  | holeFill (hole : LocalId) (cell : CExpr) (field : Nat) (ty : Ty)
  /-- Write the base value into the final destination. -/
  | holeClose (hole : LocalId) (base : CExpr) (ty : Ty)
  /-- A lowering error placeholder. -/
  | error (ty : Ty)

namespace CExpr

/-- The type carried by a node. -/
def ty : CExpr → Ty
  | lit _ ty | loc _ ty | global _ ty | prim _ _ ty | foreign _ _ _ ty | app _ _ _ _ ty
  | ite _ _ _ ty | letIn _ _ _ ty | spread _ ty | letMany _ _ _ ty | makeClosure _ _ _ ty
  | makeData _ _ _ _ _ ty | dataTag _ _ ty | dataField _ _ _ _ ty | reset _ _ _ ty
  | freeReuse _ _ ty | dup _ _ ty | drop _ _ ty | join _ _ ty | recur _ ty | holeStart _ _ ty
  | holeFill _ _ _ ty | holeClose _ _ ty | error ty => ty

/-- The immediate subexpressions of a node, `reuse_sig::e_children`. -/
def children : CExpr → List CExpr
  | prim _ args _ | foreign _ args _ _ | makeData _ args _ _ _ _ | recur args _
  | spread args _ => args
  | app func args _ _ _ => func :: args
  | ite cond yes no _ => [cond, yes, no]
  | letIn _ value body _ | reset value _ body _ | letMany _ value body _ => [value, body]
  | freeReuse _ body _ | dup _ body _ | drop _ body _ | join _ body _ | holeStart _ body _ =>
    [body]
  | dataTag base _ _ | holeClose _ base _ | dataField base _ _ _ _ => [base]
  | holeFill _ cell _ _ => [cell]
  | lit _ _ | loc _ _ | global _ _ | makeClosure _ _ _ _ | error _ => []

mutual

/-- A property that every node inherits from its children holds of every expression. -/
theorem childInduction {motive : CExpr → Prop}
    (node : ∀ e : CExpr, (∀ child ∈ e.children, motive child) → motive e) : ∀ e, motive e
  | lit value ty => node (lit value ty) (by simp [children])
  | loc slot ty => node (loc slot ty) (by simp [children])
  | global target ty => node (global target ty) (by simp [children])
  | prim op args ty => node (prim op args ty) (childInduction_list node args)
  | foreign symbol args marshalled ty =>
    node (foreign symbol args marshalled ty) (childInduction_list node args)
  | app func args reuse alloc ty =>
    node (app func args reuse alloc ty)
      (List.forall_mem_cons.mpr ⟨childInduction node func, childInduction_list node args⟩)
  | ite cond yes no ty => node (ite cond yes no ty) (by
    simp [children, childInduction node cond, childInduction node yes, childInduction node no])
  | letIn slot value body ty => node (letIn slot value body ty) (by
    simp [children, childInduction node value, childInduction node body])
  | spread components ty => node (spread components ty) (childInduction_list node components)
  | letMany slots value body ty => node (letMany slots value body ty) (by
    simp [children, childInduction node value, childInduction node body])
  | makeClosure func captures alloc ty =>
    node (makeClosure func captures alloc ty) (by simp [children])
  | makeData tag args reuse scalars niche ty =>
    node (makeData tag args reuse scalars niche ty) (childInduction_list node args)
  | dataTag base niche ty => node (dataTag base niche ty) (by
    simp [children, childInduction node base])
  | dataField base index scalar niche ty => node (dataField base index scalar niche ty) (by
    simp [children, childInduction node base])
  | reset value token body ty => node (reset value token body ty) (by
    simp [children, childInduction node value, childInduction node body])
  | freeReuse token body ty => node (freeReuse token body ty) (by
    simp [children, childInduction node body])
  | dup slot body ty => node (dup slot body ty) (by simp [children, childInduction node body])
  | drop slot body ty => node (drop slot body ty) (by simp [children, childInduction node body])
  | join params body ty => node (join params body ty) (by
    simp [children, childInduction node body])
  | recur args ty => node (recur args ty) (childInduction_list node args)
  | holeStart hole body ty => node (holeStart hole body ty) (by
    simp [children, childInduction node body])
  | holeFill hole cell field ty => node (holeFill hole cell field ty) (by
    simp [children, childInduction node cell])
  | holeClose hole base ty => node (holeClose hole base ty) (by
    simp [children, childInduction node base])
  | error ty => node (error ty) (by simp [children])

/-- The list half of `childInduction`. -/
theorem childInduction_list {motive : CExpr → Prop}
    (node : ∀ e : CExpr, (∀ child ∈ e.children, motive child) → motive e) :
    ∀ es : List CExpr, ∀ e ∈ es, motive e
  | [], _, member => absurd member List.not_mem_nil
  | head :: rest, e, member => by
    have first := childInduction node head
    have others := childInduction_list node rest
    rcases List.mem_cons.mp member with rfl | later
    · exact first
    · exact others e later

end

/-- Structural induction over Core: operand lists give one hypothesis for every operand. -/
@[elab_as_elim]
theorem induct {motive : CExpr → Prop}
    (lit : ∀ value ty, motive (lit value ty))
    (loc : ∀ slot ty, motive (loc slot ty))
    (global : ∀ target ty, motive (global target ty))
    (prim : ∀ op args ty, (∀ a ∈ args, motive a) → motive (prim op args ty))
    (foreign : ∀ symbol args marshalled ty, (∀ a ∈ args, motive a) →
      motive (foreign symbol args marshalled ty))
    (app : ∀ func args reuse alloc ty, motive func → (∀ a ∈ args, motive a) →
      motive (app func args reuse alloc ty))
    (ite : ∀ cond yes no ty, motive cond → motive yes → motive no → motive (ite cond yes no ty))
    (letIn : ∀ slot value body ty, motive value → motive body →
      motive (letIn slot value body ty))
    (spread : ∀ components ty, (∀ a ∈ components, motive a) → motive (spread components ty))
    (letMany : ∀ slots value body ty, motive value → motive body →
      motive (letMany slots value body ty))
    (makeClosure : ∀ func captures alloc ty, motive (makeClosure func captures alloc ty))
    (makeData : ∀ tag args reuse scalars niche ty, (∀ a ∈ args, motive a) →
      motive (makeData tag args reuse scalars niche ty))
    (dataTag : ∀ base niche ty, motive base → motive (dataTag base niche ty))
    (dataField : ∀ base index scalar niche ty, motive base →
      motive (dataField base index scalar niche ty))
    (reset : ∀ value token body ty, motive value → motive body →
      motive (reset value token body ty))
    (freeReuse : ∀ token body ty, motive body → motive (freeReuse token body ty))
    (dup : ∀ slot body ty, motive body → motive (dup slot body ty))
    (drop : ∀ slot body ty, motive body → motive (drop slot body ty))
    (join : ∀ params body ty, motive body → motive (join params body ty))
    (recur : ∀ args ty, (∀ a ∈ args, motive a) → motive (recur args ty))
    (holeStart : ∀ hole body ty, motive body → motive (holeStart hole body ty))
    (holeFill : ∀ hole cell field ty, motive cell → motive (holeFill hole cell field ty))
    (holeClose : ∀ hole base ty, motive base → motive (holeClose hole base ty))
    (error : ∀ ty, motive (error ty)) (e : CExpr) : motive e := by
  induction e using childInduction with
  | node e below =>
    cases e <;> simp only [children, List.mem_cons, List.not_mem_nil, or_false,
      forall_eq_or_imp, forall_eq] at below <;> grind

/-- Whether an expression needs no binding to appear as an operand. -/
def isAtom : CExpr → Bool
  | lit _ _ | loc _ _ | global _ _ | error _ => true
  | _ => false

/-- The slot of a bare local. -/
def asLocal : CExpr → Option LocalId
  | loc slot _ => some slot
  | _ => none

end CExpr

/-- A function of a definition, the entry or a lifted lambda, `CoreFn`. -/
structure CoreFn where
  /-- The parameters. -/
  params : List LocalId
  /-- The captured locals. -/
  captures : List LocalId
  /-- The body. -/
  body : CExpr

/-- A definition after reference counting, `LoweredDef`, as far as passes read it. -/
structure LoweredDef where
  /-- The functions, the entry first. -/
  fns : List CoreFn
  /-- Which entry parameters are borrowed. -/
  entryBorrowed : List Bool
  /-- The entry that takes reuse tokens before the source parameters. -/
  reuseEntry : Option CoreFn

/-- `entry_param_borrowed`: whether an entry parameter is lent by direct callers. -/
def LoweredDef.entryParamBorrowed (lowered : LoweredDef) (index : Nat) : Bool :=
  lowered.entryBorrowed.getD index false

/-- The head of an applied type is a boxed data, list, array or interface constructor. -/
def Ty.boxedHead : Ty → Bool
  | .adt _ | .interface _ | .con .list | .con .array => true
  | .app head _ => head.boxedHead
  | _ => false

/-- Whether values of a type are boxed, reference-counted heap values, `is_boxed_rc`. -/
def Ty.isBoxedRc : Ty → Bool
  | .record _ _ | .tuple _ | .con .string | .con .bytes | .con .float => true
  | ty => ty.boxedHead

/-- Whether a type is a type variable. -/
def Ty.isVar : Ty → Bool
  | .var _ => true
  | _ => false

namespace Prim

/-- The inspect-only primitives of `borrows_operand`, `DataPeek` aside. -/
def inspectOnly : Prim → Bool
  | eq | compare | hash | stringLength | stringContains | stringFind | toUpper | toLower | trim
  | stringSplit | stringJoin | regexSlice | textPairsGet | textPairsGetAll | textPairsIsEmpty
  | textPairsRenderList | textPairsRenderRows | bytesLength | bytesGet | bytesFind
  | bytesFindUtf8 | bytesSpan | bytesIsUtf8 | arrayLength | arrayGet | arrayPeek | arrayTake
  | arraySplit | arrayJoin => true
  | _ => false

/-- The structural comparisons, which also borrow an operand of variable type. -/
def structuralCompare : Prim → Bool
  | eq | compare | hash => true
  | _ => false

/-- Whether the primitive only inspects an operand of the given type. -/
def borrowsOperand (op : Prim) (operandTy : Ty) : Bool :=
  op == dataPeek ||
    (op.inspectOnly && (operandTy.isBoxedRc || (op.structuralCompare && operandTy.isVar)))

/-- Whether argument `index` is borrowed under the convention of the first operand's type. -/
def borrowsArgument (op : Prim) (index : Nat) (firstOperandTy : Ty) : Bool :=
  op.borrowsOperand firstOperandTy &&
    match op with
    | bytesGet | regexSlice => index == 0
    | bytesFind | bytesFindUtf8 => index < 2
    | bytesSpan => index == 0 || index == 3
    | textPairsRenderRows => index < 4 || index == 6
    | _ => true

/-- The primitives with a native Result entry, `native_result_symbol`. -/
def nativeResult : Prim → Bool
  | regexSlice => true
  | _ => false

end Prim

end Fai
