import FaiVerif.Lib.Slots
import Mathlib.Data.List.FinRange
import Mathlib.Data.List.Sublists
import Mathlib.Tactic.Common

/-!
# Lowering and formatting record construction

`lower_record`, `lower_record_update` and `lower_row_poly_update` of `fai-core`'s `lower.rs`, and
the field order of `fai-fmt`'s `record_literal_doc`. A record literal is built in label order. An
update of a record whose row is closed builds the result row slot by slot; an update of a record
whose row is open replaces one slot after another in the order of the source. The formatter prints
the fields of both in label order. Every other form of expression is a node over its
subexpressions, which both passes rebuild around what they make of these.
-/

namespace Fai.Lower

/-- A local of the source. -/
abbrev LocalId := ℕ

/-- A source expression, by its place in the module's arena. -/
abbrev ExprId := ℕ

/-- A row variable. -/
abbrev RowVar := ℕ

/-- What typing knows of the row of an update's base: all of its labels, or some of them and a tail
whose labels are known at run time only. -/
inductive BaseRow (Label : Type) where
  | closed (labels : List Label)
  | open_ (tail : RowVar) (known : List Label)

/-- A source expression. The fields of a literal and of an update are numbered in the order of the
source, each with its label and the expression that gives its value. -/
inductive Expr (Label : Type) where
  /-- A use of a local. -/
  | local_ (name : LocalId)
  /-- Any other expression over its subexpressions. -/
  | node (id : ExprId) (arity : ℕ) (child : Fin arity → Expr Label)
  /-- `{ x = a, … }`. -/
  | record (arity : ℕ) (label : Fin arity → Label) (id : Fin arity → ExprId)
      (value : Fin arity → Expr Label)
  /-- `{ base with x = a, … }`. -/
  | update (id : ExprId) (base : Expr Label) (row : BaseRow Label) (arity : ℕ)
      (label : Fin arity → Label) (field : Fin arity → ExprId) (value : Fin arity → Expr Label)

/-- A local of Core: a local of the source, or the fresh one that holds an update's base. -/
inductive CLocal where
  | source (name : LocalId)
  | fresh (update : ExprId)
  deriving DecidableEq

/-- The Core that record construction is lowered to. -/
inductive CExpr (Label : Type) where
  /-- A use of a local. -/
  | local_ (name : CLocal)
  /-- The Core of any other expression over that of its subexpressions. -/
  | node (id : ExprId) (args : List (CExpr Label))
  /-- The Core of the expression that gives a field its value. -/
  | value (id : ExprId) (code : CExpr Label)
  /-- A tagless composite of its slots. -/
  | makeData (args : List (CExpr Label))
  /-- A slot of a composite. -/
  | dataField (base : CExpr Label) (index : ℕ)
  /-- `let local = value in body`. -/
  | let_ (local_ : ExprId) (value body : CExpr Label)
  /-- A copy of `record` with the slot at `preceding` plus the evidence for `label` in `tail`
  replaced. -/
  | recordUpdate (record : CExpr Label) (preceding : ℕ) (tail : RowVar) (label : Label)
      (value : CExpr Label)

/-- The slot of a source local that a lowered base already is. -/
def CExpr.asSource {Label : Type} : CExpr Label → Option LocalId
  | .local_ (.source name) => some name
  | _ => none

section Order

variable {Label : Type} [LinearOrder Label]

/-- Whether a field is not behind another in label order. -/
def labelLe {arity : ℕ} (label : Fin arity → Label) (first second : Fin arity) : Bool :=
  decide (label first ≤ label second)

/-- The fields in label order, those of one label in the order of the source: `sort_by` on the
labels. -/
def byLabel {arity : ℕ} (label : Fin arity → Label) : List (Fin arity) :=
  (List.finRange arity).mergeSort (labelLe label)

/-- The row of an update's result: the labels it sets beside the rest of the base's row, sorted. -/
def resultRow {arity : ℕ} (label : Fin arity → Label) (row : List Label) : List Label :=
  (List.ofFn label ++ row.filter fun key => key ∉ List.ofFn label).mergeSort
    fun first second => decide (first ≤ second)

/-- The first field of the source that sets a label. -/
def findField {arity : ℕ} (label : Fin arity → Label) (key : Label) : Option (Fin arity) :=
  (List.finRange arity).find? fun field => decide (label field = key)

/-- The Core of a literal, `lower_record`: its fields in label order. -/
def lowerRecord {arity : ℕ} (label : Fin arity → Label) (code : Fin arity → CExpr Label) :
    CExpr Label :=
  .makeData ((byLabel label).map code)

/-- One slot of an update's result: the new value of its label, or the slot of the base. -/
def updateSlot {arity : ℕ} (base : CLocal) (label : Fin arity → Label)
    (code : Fin arity → CExpr Label) (slot : Label × ℕ) : CExpr Label :=
  ((findField label slot.1).map code).getD (.dataField (.local_ base) slot.2)

/-- The Core of an update of a record whose row is closed, `lower_record_update`: the result row
slot by slot, over a base that is bound to a local when it is not one. -/
def lowerRecordUpdate {arity : ℕ} (id : ExprId) (base : CExpr Label) (row : List Label)
    (label : Fin arity → Label) (code : Fin arity → CExpr Label) : CExpr Label :=
  match base.asSource with
  | some name => .makeData ((resultRow label row).zipIdx.map (updateSlot (.source name) label code))
  | none =>
    .let_ id base (.makeData ((resultRow label row).zipIdx.map (updateSlot (.fresh id) label code)))

/-- Replaces the slot of one field of a record whose row is open. -/
def rowPolyStep {arity : ℕ} (tail : RowVar) (known : List Label) (label : Fin arity → Label)
    (code : Fin arity → CExpr Label) (cur : CExpr Label) (field : Fin arity) : CExpr Label :=
  .recordUpdate cur (known.countP fun key => key < label field) tail (label field) (code field)

/-- The Core of an update of a record whose row is open, `lower_row_poly_update`: one replaced slot
after another in the order of the source. -/
def lowerRowPolyUpdate {arity : ℕ} (base : CExpr Label) (tail : RowVar) (known : List Label)
    (label : Fin arity → Label) (code : Fin arity → CExpr Label) : CExpr Label :=
  (List.finRange arity).foldl (rowPolyStep tail known label code) base

/-- The Core of an update, by what is known of its base's row. -/
def lowerUpdate {arity : ℕ} (id : ExprId) (base : CExpr Label) (row : BaseRow Label)
    (label : Fin arity → Label) (code : Fin arity → CExpr Label) : CExpr Label :=
  match row with
  | .closed labels => lowerRecordUpdate id base labels label code
  | .open_ tail known => lowerRowPolyUpdate base tail known label code

/-- The Core of an expression, `lower_expr`. -/
def lower : Expr Label → CExpr Label
  | .local_ name => .local_ (.source name)
  | .node id arity child => .node id ((List.finRange arity).map fun place => lower (child place))
  | .record _ label id value =>
    lowerRecord label fun field => .value (id field) (lower (value field))
  | .update id base row _ label field value =>
    lowerUpdate id (lower base) row label fun place => .value (field place) (lower (value place))

/-- The expression the formatter prints: the fields of literals and updates in label order. -/
def format : Expr Label → Expr Label
  | .local_ name => .local_ name
  | .node id arity child => .node id arity fun place => format (child place)
  | .record _ label id value =>
    .record (byLabel label).length (fun place => label ((byLabel label).get place))
      (fun place => id ((byLabel label).get place))
      fun place => format (value ((byLabel label).get place))
  | .update id base row _ label field value =>
    .update id (format base) row (byLabel label).length
      (fun place => label ((byLabel label).get place))
      (fun place => field ((byLabel label).get place))
      fun place => format (value ((byLabel label).get place))

end Order

end Fai.Lower
