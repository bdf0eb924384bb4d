import FaiVerif.Core.Ir

/-!
# The reference-count classifier

`fai-codegen`'s inlined dup and drop strategies: which static types are immediates, which are
always boxed, which cells have a fixed shape whose fields can be released in place, and which
values are left to the runtime.
-/

namespace Fai

/-- `reference_free_array`: an array whose slots hold no counted references. -/
def Ty.referenceFreeArray : Ty → Bool
  | .app (.con .array) element =>
    match element with
    | .unit | .con .bool | .con .char | .con .float => true
    | _ => false
  | _ => false

namespace Classify

/-- `is_immediate_ty`. -/
def isImmediateTy : Ty → Bool
  | .unit | .con .bool | .con .char => true
  | _ => false

/-- The array head of `is_always_boxed_ty`. -/
def arrayHead : Ty → Bool
  | .con .array => true
  | .app head _ => arrayHead head
  | _ => false

/-- `is_always_boxed_ty`. -/
def isAlwaysBoxedTy : Ty → Bool
  | .con .string | .con .bytes | .con .float | .tuple _ | .interface _ | .arrow _ _ _ => true
  | .record fields _ => !fields.isEmpty
  | ty => arrayHead ty

/-- `is_leaf_boxed_ty`. -/
def isLeafBoxedTy : Ty → Bool
  | .con .int | .con .float => true
  | ty => ty.referenceFreeArray

/-- `is_data_maybe_immediate`. -/
def isDataMaybeImmediate : Ty → Bool
  | .adt _ | .con .list => true
  | .app head _ => isDataMaybeImmediate head
  | _ => false

/-- `may_use_scalar_slot`. -/
def mayUseScalarSlot : Ty → Bool
  | .con .float | .var _ | .adt _ | .effectArg _ | .error => true
  | .app head _ => mayUseScalarSlot head
  | _ => false

/-- `FieldDrop`: how a field of a fixed-shape cell is released. -/
inductive FieldDrop where
  | immediate | boxed | dynamic
  deriving DecidableEq

/-- `field_drop`. -/
def fieldDrop (ty : Ty) : FieldDrop :=
  if isImmediateTy ty then .immediate
  else if mayUseScalarSlot ty then .dynamic
  else .boxed

/-- `MAX_INLINE_DROP_BOXED_FIELDS`. -/
def maxInlineDropBoxedFields : Nat := 8

/-- The field classes of a cell, unless too many of them are boxed. -/
def capped (fields : List FieldDrop) : Option (List FieldDrop) :=
  if maxInlineDropBoxedFields < fields.countP (· != .immediate) then none else some fields

/-- `fixed_shape_drop`. -/
def fixedShapeDrop : Ty → Option (List FieldDrop)
  | .tuple elems => capped (elems.map fieldDrop)
  | .record fields .closed =>
    if fields.isEmpty then none else capped (fields.map fun field => fieldDrop field.2)
  | _ => none

/-- `DupPlan`: the inlined dup strategy. -/
inductive DupPlan where
  | noOp
  | incr (tagCheck : Bool)
  deriving DecidableEq

/-- `DropPlan`: the inlined drop strategy. -/
inductive DropPlan where
  | noOp
  | fixed (fields : List FieldDrop)
  | leaf (tagCheck : Bool)
  | data (tagCheck : Bool)
  | runtime
  deriving DecidableEq

/-- Whether a local of the type carries no reference count: an immediate or an unboxed float. -/
def uncounted (ty : Ty) : Bool := isImmediateTy ty || ty == .con .float

/-- `dup_class`. -/
def dupClass (ty : Ty) : DupPlan :=
  if uncounted ty then .noOp else .incr (!isAlwaysBoxedTy ty)

/-- `drop_class`. -/
def dropClass (ty : Ty) : DropPlan :=
  if uncounted ty then .noOp
  else
    match fixedShapeDrop ty with
    | some fields => .fixed fields
    | none =>
      if isLeafBoxedTy ty then .leaf (!isAlwaysBoxedTy ty)
      else if isAlwaysBoxedTy ty || isDataMaybeImmediate ty then .data (!isAlwaysBoxedTy ty)
      else .runtime

end Classify

end Fai
