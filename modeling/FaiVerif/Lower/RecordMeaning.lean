import FaiVerif.Lower.Records

/-!
# What record construction means

The Core of record construction is run in an arbitrary monad: what a node makes of its
subexpressions is a parameter, as is what marks that a field's expression starts to be evaluated.
Two Cores that agree in every such machine return the same record, evaluate the same fields in the
same order, and perform the same effects, with traps and divergence among them. Where the updates
of open rows list their fields in label order, printing the fields of every literal and update in
label order leaves the Core of an expression as it is.
-/

namespace Fai.Lower

open Fai.Slots

/-- A value at run time: a composite of its slots, or anything else. -/
inductive Value (Atom : Type) where
  | atom (value : Atom)
  | record (slots : List (Value Atom))

/-- The slots of a composite. -/
def Value.slots {Atom : Type} : Value Atom → List (Value Atom)
  | .atom _ => []
  | .record slots => slots

/-- One slot of a composite. -/
def Value.slot {Atom : Type} (value : Value Atom) (index : ℕ) : Value Atom :=
  (value.slots[index]?).getD value

/-- What the locals of the source hold. -/
abbrev Env (Atom : Type) := LocalId → Value Atom

/-- What running an expression does, by what the locals hold. -/
abbrev Meaning (m : Type → Type) (Atom : Type) := Env Atom → m (Value Atom)

/-- What record construction runs on: what the other expressions make of their subexpressions, the
mark that a field's expression starts to be evaluated, and the labels a row variable stands for. -/
structure Machine (Label : Type) (m : Type → Type) (Atom : Type) where
  /-- What another expression makes of its subexpressions. -/
  node : ExprId → List (Meaning m Atom) → Meaning m Atom
  /-- A field's expression starts to be evaluated. -/
  enter : ExprId → m Unit
  /-- The labels of a row variable. -/
  hidden : RowVar → List Label

section Run

variable {Label Atom : Type} {m : Type → Type} [Monad m] [LinearOrder Label]

/-- The slot that the evidence of a field adds to the known labels below it. -/
def Machine.evidence (M : Machine Label m Atom) (tail : RowVar) (label : Label) : ℕ :=
  (M.hidden tail).countP fun key => key < label

mutual

/-- Runs Core: operands from left to right, a `let` before its body. -/
def eval (M : Machine Label m Atom) : CExpr Label → (ExprId → Value Atom) → Meaning m Atom
  | .local_ (.source name), _ => fun env => pure (env name)
  | .local_ (.fresh update), temps => fun _ => pure (temps update)
  | .node id args, temps => M.node id (evalAll M args temps)
  | .value id code, temps => fun env => do
    M.enter id
    eval M code temps env
  | .makeData args, temps => fun env => do
    let slots ← inOrder ((evalAll M args temps).map (· env))
    pure (.record slots)
  | .dataField base index, temps => fun env => do
    let value ← eval M base temps env
    pure (value.slot index)
  | .let_ local_ value body, temps => fun env => do
    let held ← eval M value temps env
    eval M body (fun update => if update = local_ then held else temps update) env
  | .recordUpdate record preceding tail label value, temps => fun env => do
    let base ← eval M record temps env
    let new ← eval M value temps env
    pure (.record (base.slots.set (preceding + M.evidence tail label) new))

/-- Runs operands. -/
def evalAll (M : Machine Label m Atom) :
    List (CExpr Label) → (ExprId → Value Atom) → List (Meaning m Atom)
  | [], _ => []
  | code :: rest, temps => eval M code temps :: evalAll M rest temps

end

/-- Operands are run one by one. -/
theorem evalAll_eq_map (M : Machine Label m Atom) (codes : List (CExpr Label))
    (temps : ExprId → Value Atom) :
    evalAll M codes temps = codes.map fun code => eval M code temps := by
  induction codes with
  | nil => rfl
  | cons code codes hypothesis => rw [evalAll, hypothesis, List.map_cons]

/-- The expression run from its Core, with no base bound yet. -/
def run [Inhabited Atom] (M : Machine Label m Atom) (e : Expr Label) : Meaning m Atom :=
  eval M (lower e) fun _ => .atom default

/-- A composite runs its slots in order. -/
theorem eval_makeData (M : Machine Label m Atom) (args : List (CExpr Label))
    (temps : ExprId → Value Atom) (env : Env Atom) :
    eval M (.makeData args) temps env =
      inOrder (args.map fun code => eval M code temps env) >>= fun slots =>
        pure (.record slots) := by
  simp only [eval, evalAll_eq_map, List.map_map, Function.comp_def]

end Run

section Within

variable {Label : Type}

/-- An expression occurs in another. -/
inductive Within (sub : Expr Label) : Expr Label → Prop
  | refl : Within sub sub
  | child {id : ExprId} {arity : ℕ} {child : Fin arity → Expr Label} (place : Fin arity) :
      Within sub (child place) → Within sub (.node id arity child)
  | literal {arity : ℕ} {label : Fin arity → Label} {id : Fin arity → ExprId}
      {value : Fin arity → Expr Label} (field : Fin arity) :
      Within sub (value field) → Within sub (.record arity label id value)
  | base {id : ExprId} {base : Expr Label} {row : BaseRow Label} {arity : ℕ}
      {label : Fin arity → Label} {ids : Fin arity → ExprId} {value : Fin arity → Expr Label} :
      Within sub base → Within sub (.update id base row arity label ids value)
  | updated {id : ExprId} {base : Expr Label} {row : BaseRow Label} {arity : ℕ}
      {label : Fin arity → Label} {ids : Fin arity → ExprId} {value : Fin arity → Expr Label}
      (field : Fin arity) :
      Within sub (value field) → Within sub (.update id base row arity label ids value)

/-- What occurs in a part occurs in the whole. -/
theorem Within.trans {sub part whole : Expr Label} (inner : Within sub part)
    (outer : Within part whole) : Within sub whole := by
  induction outer with
  | refl => exact inner
  | child place _ hypothesis => exact .child place hypothesis
  | literal field _ hypothesis => exact .literal field hypothesis
  | base _ hypothesis => exact .base hypothesis
  | updated field _ hypothesis => exact .updated field hypothesis

end Within

section Format

variable {Label : Type} [LinearOrder Label]

/-- Every update of a record whose row is open lists its fields in label order. -/
def OpenSorted (e : Expr Label) : Prop :=
  ∀ id base tail known arity label field value,
    Within (.update id base (.open_ tail known) arity label field value) e → Monotone label

/-- What holds of an expression's updates holds of those of a part. -/
theorem OpenSorted.part {part whole : Expr Label} (sorted : OpenSorted whole)
    (inside : Within part whole) : OpenSorted part :=
  fun id base tail known arity label field value within =>
    sorted id base tail known arity label field value (within.trans inside)

/-- Label order is transitive. -/
theorem labelLe_trans {arity : ℕ} (label : Fin arity → Label) (a b c : Fin arity)
    (first : labelLe label a b = true) (second : labelLe label b c = true) :
    labelLe label a c = true := by
  simp only [labelLe, decide_eq_true_eq] at *
  exact le_trans first second

/-- Label order is total. -/
theorem labelLe_total {arity : ℕ} (label : Fin arity → Label) (a b : Fin arity) :
    (labelLe label a b || labelLe label b a) = true := by
  simp only [labelLe, Bool.or_eq_true, decide_eq_true_eq]
  exact le_total _ _

/-- Fields listed in label order are left as they are. -/
theorem byLabel_of_monotone {arity : ℕ} {label : Fin arity → Label} (sorted : Monotone label) :
    byLabel label = List.finRange arity := by
  refine List.mergeSort_of_pairwise ?_
  refine (List.pairwise_lt_finRange arity).imp fun ordered => ?_
  simp only [labelLe, decide_eq_true_eq]
  exact sorted (le_of_lt ordered)

/-- The sorted fields are in label order. -/
theorem monotone_byLabel {arity : ℕ} (label : Fin arity → Label) :
    Monotone fun place => label ((byLabel label).get place) := by
  intro first second ordered
  rcases Nat.lt_or_eq_of_le ordered with before | same
  · have pairwise := List.pairwise_mergeSort (labelLe_trans label) (labelLe_total label)
      (List.finRange arity)
    have here := List.pairwise_iff_getElem.mp pairwise first second first.isLt second.isLt before
    exact of_decide_eq_true here
  · rw [Fin.ext same]

/-- Going through the places of a list is going through its entries. -/
theorem finRange_map_comp_get {α β : Type} (list : List α) (f : α → β) :
    ((List.finRange list.length).map fun place => f (list.get place)) = list.map f := by
  rw [show (fun place => f (list.get place)) = f ∘ list.get from rfl, ← List.map_map,
    List.map_get_finRange]

/-- The first field that sets a label is the same one after printing. -/
theorem findField_byLabel {arity : ℕ} {β : Type} (label : Fin arity → Label) (key : Label)
    (code : Fin arity → β) :
    ((findField (fun place => label ((byLabel label).get place)) key).map
      fun place => code ((byLabel label).get place)) = (findField label key).map code := by
  have stable : (byLabel label).find? (fun field => decide (label field = key)) =
      findField label key := by
    refine find?_mergeSort (labelLe_trans label) (labelLe_total label) _ fun a b left right => ?_
    simp only [decide_eq_true_eq] at left right
    simp only [labelLe, decide_eq_true_eq]
    exact le_of_eq (left.trans right.symm)
  have places : (findField (fun place => label ((byLabel label).get place)) key).map
      (byLabel label).get = (byLabel label).find? fun field => decide (label field = key) := by
    conv_rhs => rw [← List.map_get_finRange (byLabel label), List.find?_map]
    rfl
  rw [← stable, ← places, Option.map_map]
  rfl

/-- The result row does not depend on the order of the fields. -/
theorem resultRow_byLabel {arity : ℕ} (label : Fin arity → Label) (row : List Label) :
    resultRow (fun place => label ((byLabel label).get place)) row = resultRow label row := by
  have labels : (List.ofFn fun place => label ((byLabel label).get place)).Perm
      (List.ofFn label) := by
    rw [List.ofFn_eq_map, List.ofFn_eq_map, finRange_map_comp_get]
    exact (List.mergeSort_perm _ _).map label
  have rest : (row.filter fun key =>
      key ∉ List.ofFn fun place => label ((byLabel label).get place)) =
      row.filter fun key => key ∉ List.ofFn label := by
    refine List.filter_congr fun key _ => ?_
    simp only [labels.mem_iff]
  have ordered (first second third : Label) :
      decide (first ≤ second) = true → decide (second ≤ third) = true →
        decide (first ≤ third) = true := by
    simp only [decide_eq_true_eq]
    exact le_trans
  have total (first second : Label) :
      (decide (first ≤ second) || decide (second ≤ first)) = true := by
    simp only [Bool.or_eq_true, decide_eq_true_eq]
    exact le_total _ _
  rw [resultRow, resultRow, rest]
  refine List.Perm.eq_of_pairwise ?_ (List.pairwise_mergeSort ordered total _)
    (List.pairwise_mergeSort ordered total _)
    ((List.mergeSort_perm _ _).trans ((labels.append_right _).trans
      (List.mergeSort_perm _ _).symm))
  intro first second _ _ left right
  exact le_antisymm (of_decide_eq_true left) (of_decide_eq_true right)

/-- Printing the fields of literals and updates in label order does not change the Core. -/
theorem lower_format (e : Expr Label) (sorted : OpenSorted e) : lower (format e) = lower e := by
  induction e with
  | local_ name => rfl
  | node id arity child hypothesis =>
    simp only [format, lower]
    congr 1
    refine List.map_congr_left fun place _ => ?_
    exact hypothesis place (sorted.part (.child place .refl))
  | record arity label id value hypothesis =>
    simp only [format, lower, lowerRecord]
    rw [byLabel_of_monotone (monotone_byLabel label),
      finRange_map_comp_get (byLabel label)
        fun field => CExpr.value (id field) (lower (format (value field)))]
    congr 1
    refine List.map_congr_left fun field _ => ?_
    rw [hypothesis field (sorted.part (.literal field .refl))]
  | update id base row arity label field value base_hypothesis hypothesis =>
    have inner : lower (format base) = lower base :=
      base_hypothesis (sorted.part (.base .refl))
    have values : (fun place => CExpr.value (field place) (lower (format (value place)))) =
        fun place => CExpr.value (field place) (lower (value place)) := by
      funext place
      rw [hypothesis place (sorted.part (.updated place .refl))]
    simp only [format, lower]
    rw [inner]
    cases row with
    | closed labels =>
      have slot (local_ : CLocal) : updateSlot local_
          (fun place => label ((byLabel label).get place))
          (fun place => CExpr.value (field ((byLabel label).get place))
            (lower (format (value ((byLabel label).get place))))) =
          updateSlot local_ label
            fun place => CExpr.value (field place) (lower (value place)) := by
        funext slot
        rw [← values, updateSlot, updateSlot, ← findField_byLabel label slot.1]
      simp only [lowerUpdate, lowerRecordUpdate, resultRow_byLabel, slot]
    | open_ tail known =>
      have ordered := sorted id base tail known arity label field value .refl
      rw [lowerUpdate, lowerUpdate, lowerRowPolyUpdate, lowerRowPolyUpdate]
      refine Eq.trans (List.foldl_map (f := (byLabel label).get)
        (g := rowPolyStep tail known label
          fun place => CExpr.value (field place) (lower (format (value place))))
        (l := List.finRange (byLabel label).length)).symm ?_
      rw [List.map_get_finRange, byLabel_of_monotone ordered, values]

end Format

end Fai.Lower
