import FaiVerif.Core.Eval

/-!
# Heads and folds of Core

An expression is its head, what a node holds besides its children, and its children. Equality of
expressions is decided from heads, and a pass that visits children alike wherever it does nothing
special is a fold over them.
-/

namespace Fai

namespace CExpr

/-- What a node holds besides its children. -/
inductive Head where
  | lit (value : Lit) (ty : Ty)
  | loc (slot : LocalId) (ty : Ty)
  | global (target : DefId) (ty : Ty)
  | prim (op : Prim) (ty : Ty)
  | foreign (symbol : Symbol) (marshalled : Bool) (ty : Ty)
  | app (reuse : List (Option LocalId)) (alloc : ClosureAlloc) (ty : Ty)
  | ite (ty : Ty)
  | letIn (slot : LocalId) (ty : Ty)
  | spread (ty : Ty)
  | letMany (slots : List LocalId) (ty : Ty)
  | makeClosure (func : Nat) (captures : List LocalId) (alloc : ClosureAlloc) (ty : Ty)
  | makeData (tag : Nat) (reuse : Option LocalId) (scalars : Nat) (niche : Option NicheKind)
      (ty : Ty)
  | dataTag (niche : Option NicheKind) (ty : Ty)
  | dataField (index : FieldIndex) (scalar : Bool) (niche : Option NicheKind) (ty : Ty)
  | reset (token : LocalId) (ty : Ty)
  | freeReuse (token : LocalId) (ty : Ty)
  | dup (slot : LocalId) (ty : Ty)
  | drop (slot : LocalId) (ty : Ty)
  | join (params : List LocalId) (ty : Ty)
  | recur (ty : Ty)
  | holeStart (hole : LocalId) (ty : Ty)
  | holeFill (hole : LocalId) (field : Nat) (ty : Ty)
  | holeClose (hole : LocalId) (ty : Ty)
  | error (ty : Ty)
  deriving DecidableEq

/-- The head of an expression. -/
def head : CExpr → Head
  | .lit value ty => .lit value ty
  | .loc slot ty => .loc slot ty
  | .global target ty => .global target ty
  | .prim op _ ty => .prim op ty
  | .foreign symbol _ marshalled ty => .foreign symbol marshalled ty
  | .app _ _ reuse alloc ty => .app reuse alloc ty
  | .ite _ _ _ ty => .ite ty
  | .letIn slot _ _ ty => .letIn slot ty
  | .spread _ ty => .spread ty
  | .letMany slots _ _ ty => .letMany slots ty
  | .makeClosure func captures alloc ty => .makeClosure func captures alloc ty
  | .makeData tag _ reuse scalars niche ty => .makeData tag reuse scalars niche ty
  | .dataTag _ niche ty => .dataTag niche ty
  | .dataField _ index scalar niche ty => .dataField index scalar niche ty
  | .reset _ token _ ty => .reset token ty
  | .freeReuse token _ ty => .freeReuse token ty
  | .dup slot _ ty => .dup slot ty
  | .drop slot _ ty => .drop slot ty
  | .join params _ ty => .join params ty
  | .recur _ ty => .recur ty
  | .holeStart hole _ ty => .holeStart hole ty
  | .holeFill hole _ field ty => .holeFill hole field ty
  | .holeClose hole _ ty => .holeClose hole ty
  | .error ty => .error ty

/-- The expression of a head over as many children as the head has. -/
def Head.build : Head → List CExpr → CExpr
  | .lit value ty, _ => .lit value ty
  | .loc slot ty, _ => .loc slot ty
  | .global target ty, _ => .global target ty
  | .prim op ty, args => .prim op args ty
  | .foreign symbol marshalled ty, args => .foreign symbol args marshalled ty
  | .app reuse alloc ty, func :: args => .app func args reuse alloc ty
  | .ite ty, [cond, yes, no] => .ite cond yes no ty
  | .letIn slot ty, [value, body] => .letIn slot value body ty
  | .spread ty, components => .spread components ty
  | .letMany slots ty, [value, body] => .letMany slots value body ty
  | .makeClosure func captures alloc ty, _ => .makeClosure func captures alloc ty
  | .makeData tag reuse scalars niche ty, args => .makeData tag args reuse scalars niche ty
  | .dataTag niche ty, [base] => .dataTag base niche ty
  | .dataField index scalar niche ty, [base] => .dataField base index scalar niche ty
  | .reset token ty, [value, body] => .reset value token body ty
  | .freeReuse token ty, [body] => .freeReuse token body ty
  | .dup slot ty, [body] => .dup slot body ty
  | .drop slot ty, [body] => .drop slot body ty
  | .join params ty, [body] => .join params body ty
  | .recur ty, args => .recur args ty
  | .holeStart hole ty, [body] => .holeStart hole body ty
  | .holeFill hole field ty, [cell] => .holeFill hole cell field ty
  | .holeClose hole ty, [base] => .holeClose hole base ty
  | .error ty, _ => .error ty
  | _, _ => .error .error

/-- An expression over other children. -/
def withChildren (e : CExpr) (children : List CExpr) : CExpr := e.head.build children

/-- An expression is its head over its children. -/
theorem withChildren_children (e : CExpr) : e.withChildren e.children = e := by
  cases e <;> rfl

/-- Replacing every child is putting the head over the replaced children. -/
theorem withChildren_map (f : CExpr → CExpr) (e : CExpr) :
    e.withChildren (e.children.map f) = e.mapChildren f := by
  cases e <;> rfl

/-- The children of an expression over as many others are these. -/
theorem children_withChildren {e : CExpr} {es : List CExpr}
    (length : es.length = e.children.length) : (e.withChildren es).children = es := by
  cases e with
  | lit | loc | global | makeClosure | error => exact (List.length_eq_zero_iff.mp length).symm
  | prim | foreign | spread | makeData | recur => rfl
  | app func args =>
    cases es with
    | nil => cases length
    | cons => rfl
  | ite cond yes no =>
    obtain ⟨_, _, _, rfl⟩ := List.length_eq_three.mp length
    rfl
  | letIn | letMany | reset =>
    obtain ⟨_, _, rfl⟩ := List.length_eq_two.mp length
    rfl
  | _ =>
    obtain ⟨_, rfl⟩ := List.length_eq_one_iff.mp length
    rfl

/-- The head of an expression over as many other children. -/
theorem head_withChildren {e : CExpr} {es : List CExpr}
    (length : es.length = e.children.length) : (e.withChildren es).head = e.head := by
  cases e with
  | lit | loc | global | makeClosure | error => rfl
  | prim | foreign | spread | makeData | recur => rfl
  | app func args =>
    cases es with
    | nil => cases length
    | cons => rfl
  | ite cond yes no =>
    obtain ⟨_, _, _, rfl⟩ := List.length_eq_three.mp length
    rfl
  | letIn | letMany | reset =>
    obtain ⟨_, _, rfl⟩ := List.length_eq_two.mp length
    rfl
  | _ =>
    obtain ⟨_, rfl⟩ := List.length_eq_one_iff.mp length
    rfl

/-- Expressions of one head over the same children are equal. -/
theorem eq_of_head {e e' : CExpr} (head : e.head = e'.head)
    (children : e.children = e'.children) : e = e' := by
  rw [← withChildren_children e, ← withChildren_children e', withChildren, withChildren, head,
    children]

section Fold

variable {α : Type}

mutual

/-- What a node makes of itself and of what its children are folded to. -/
def fold (node : CExpr → List α → α) : CExpr → α
  | .lit value ty => node (.lit value ty) []
  | .loc slot ty => node (.loc slot ty) []
  | .global target ty => node (.global target ty) []
  | .prim op args ty => node (.prim op args ty) (foldAll node args)
  | .foreign symbol args marshalled ty =>
    node (.foreign symbol args marshalled ty) (foldAll node args)
  | .app func args reuse alloc ty =>
    node (.app func args reuse alloc ty) (fold node func :: foldAll node args)
  | .ite cond yes no ty =>
    node (.ite cond yes no ty) [fold node cond, fold node yes, fold node no]
  | .letIn slot value body ty =>
    node (.letIn slot value body ty) [fold node value, fold node body]
  | .spread components ty => node (.spread components ty) (foldAll node components)
  | .letMany slots value body ty =>
    node (.letMany slots value body ty) [fold node value, fold node body]
  | .makeClosure func captures alloc ty => node (.makeClosure func captures alloc ty) []
  | .makeData tag args reuse scalars niche ty =>
    node (.makeData tag args reuse scalars niche ty) (foldAll node args)
  | .dataTag base niche ty => node (.dataTag base niche ty) [fold node base]
  | .dataField base index scalar niche ty =>
    node (.dataField base index scalar niche ty) [fold node base]
  | .reset value token body ty =>
    node (.reset value token body ty) [fold node value, fold node body]
  | .freeReuse token body ty => node (.freeReuse token body ty) [fold node body]
  | .dup slot body ty => node (.dup slot body ty) [fold node body]
  | .drop slot body ty => node (.drop slot body ty) [fold node body]
  | .join params body ty => node (.join params body ty) [fold node body]
  | .recur args ty => node (.recur args ty) (foldAll node args)
  | .holeStart hole body ty => node (.holeStart hole body ty) [fold node body]
  | .holeFill hole cell field ty => node (.holeFill hole cell field ty) [fold node cell]
  | .holeClose hole base ty => node (.holeClose hole base ty) [fold node base]
  | .error ty => node (.error ty) []

/-- What operands are folded to. -/
def foldAll (node : CExpr → List α → α) : List CExpr → List α
  | [] => []
  | e :: rest => fold node e :: foldAll node rest

end

/-- Operands are folded one by one. -/
theorem foldAll_eq_map (node : CExpr → List α → α) (es : List CExpr) :
    foldAll node es = es.map (fold node) := by
  induction es with
  | nil => rfl
  | cons e es hypothesis => rw [foldAll, hypothesis, List.map_cons]

/-- A fold is what the root makes of itself and its folded children. -/
theorem fold_eq (node : CExpr → List α → α) (e : CExpr) :
    fold node e = node e (e.children.map (fold node)) := by
  cases e <;> simp only [fold, foldAll_eq_map, children, List.map_cons, List.map_nil]

end Fold

/-- A property that holds throughout has what it implies hold throughout. -/
theorem Throughout.imp {property other : CExpr → Prop} (implies : ∀ e, property e → other e)
    {e : CExpr} : e.Throughout property → e.Throughout other := by
  induction e using childInduction with
  | node e below =>
    exact fun throughout => .node (implies e throughout.here) fun child member =>
      below child member (throughout.child child member)

/-- Whether a test succeeds on an expression and on all its subexpressions. -/
def everywhere (test : CExpr → Bool) : CExpr → Bool :=
  fold fun e children => test e && children.all id

/-- A test that succeeds everywhere holds throughout. -/
theorem throughout_of_everywhere {test : CExpr → Bool} {e : CExpr}
    (succeeds : everywhere test e = true) : e.Throughout fun e => test e = true := by
  induction e using childInduction with
  | node e below =>
    rw [everywhere, fold_eq, Bool.and_eq_true, List.all_map, List.all_eq_true] at succeeds
    exact .node succeeds.1 fun child member => below child member (succeeds.2 child member)

/-- Tests for equality with an expression. -/
def tests : CExpr → CExpr → Bool :=
  fold fun e children e' => decide (e.head = e'.head) &&
    decide (children.length = e'.children.length) &&
      (List.zipWith (fun test child => test child) children e'.children).all id

/-- Tests of children succeed on the children themselves. -/
theorem zipWith_tests {es es' : List CExpr} (length : es.length = es'.length)
    (each : ∀ e ∈ es, ∀ e', tests e e' = true ↔ e = e') :
    (List.zipWith (fun test child => test child) (es.map tests) es').all id = true ↔ es = es' := by
  induction es generalizing es' with
  | nil =>
    cases es' with
    | nil => simp
    | cons => cases length
  | cons e es hypothesis =>
    cases es' with
    | nil => cases length
    | cons e' es' =>
      rw [List.length_cons, List.length_cons, Nat.succ_inj] at length
      have later := hypothesis length fun e member => each e (List.mem_cons_of_mem _ member)
      rw [List.map_cons, List.zipWith_cons_cons, List.all_cons, Bool.and_eq_true, later, id_eq,
        each e List.mem_cons_self, List.cons.injEq]

/-- The test decides equality. -/
theorem tests_iff (e : CExpr) : ∀ e', tests e e' = true ↔ e = e' := by
  induction e using childInduction with
  | node e below =>
    intro e'
    rw [tests, fold_eq, Bool.and_eq_true, Bool.and_eq_true, decide_eq_true_eq, decide_eq_true_eq,
      List.length_map]
    constructor
    · rintro ⟨⟨head, length⟩, children⟩
      exact eq_of_head head ((zipWith_tests length below).mp children)
    · rintro rfl
      exact ⟨⟨rfl, rfl⟩, (zipWith_tests rfl below).mpr rfl⟩

instance : DecidableEq CExpr := fun e e' => decidable_of_iff _ (tests_iff e e')

end CExpr

end Fai
