import FaiVerif.Core.Ir
import FaiVerif.Lib.Slots

/-!
# What Core computes

Core is run in an arbitrary monad, so that two expressions that run alike in every machine return
the same value, perform the same effects in the same order, and trap or diverge alike. Operands are
evaluated from left to right before the operation they belong to, a branch only when its condition
selects it, and a zero-arity definition each time it is read. What an operation does to its operands
is the machine's; the reference-counting nodes are operations on the values of their slots.
-/

namespace Fai.Eval

open Fai.Slots

variable {m : Type → Type} {V : Type}

/-- The slot of a projection: a constant, or a base plus the offset an evidence local holds. -/
inductive Place (V : Type) where
  | const (slot : Nat)
  | dyn (base : Nat) (evidence : V)

/-- What the operations of Core do. -/
structure Machine (m : Type → Type) (V : Type) where
  /-- The value of a literal. -/
  lit : Lit → V
  /-- Reads a definition: its closure, or the value its zero-arity body is run for. -/
  global : DefId → m V
  /-- A primitive on its operands. -/
  prim : Prim → List V → m V
  /-- A native symbol on its operands. -/
  foreign : Symbol → List V → m V
  /-- A value applied to arguments, with the reuse tokens of the call. -/
  apply : V → List V → List (Option V) → m V
  /-- Tests whether a condition selects the first branch. -/
  test : V → m Bool
  /-- A closure of a lifted function over its captures. -/
  closure : Nat → List V → ClosureAlloc → m V
  /-- A data value from its fields, into the memory of a token where one is given. -/
  data : Nat → Option NicheKind → Nat → List V → Option V → m V
  /-- The tag of a data value. -/
  tag : Option NicheKind → V → m V
  /-- A field of a data value. -/
  field : Option NicheKind → Bool → V → Place V → m V
  /-- Exploded components as one result. -/
  spread : List V → m V
  /-- The components of a multi-result value. -/
  components : V → m (List V)
  /-- Acquires a reference. -/
  dup : V → m Unit
  /-- Releases a reference. -/
  drop : V → m Unit
  /-- Releases a value for its memory. -/
  reset : V → m V
  /-- Frees the memory of a token. -/
  freeReuse : V → m Unit
  /-- Runs a loop from what one turn does and the first values of its parameters. -/
  loop : ((List V → m V) → List V → m V) → List V → m V
  /-- A fresh destination. -/
  holeStart : m V
  /-- Links a cell into a destination and advances it to a field of the cell. -/
  holeFill : V → V → Nat → m V
  /-- Writes the last value into a destination. -/
  holeClose : V → V → m V
  /-- What no accepted program reaches. -/
  trap : m V

/-- What the locals hold. -/
abbrev Locals (V : Type) := LocalId → V

/-- Binds a local. -/
def Locals.set (env : Locals V) (slot : LocalId) (value : V) : Locals V :=
  fun other => if other = slot then value else env other

/-- Binds several locals, the last binding of a slot prevailing; a value that is not given is
`missing`. -/
def Locals.setAll (env : Locals V) (missing : V) : List LocalId → List V → Locals V
  | [], _ => env
  | slot :: slots, values => (env.set slot (values.headD missing)).setAll missing slots values.tail

/-- The place of a field under what the locals hold. -/
def place (env : Locals V) : FieldIndex → Place V
  | .const slot => .const slot
  | .dyn base evidence => .dyn base (env evidence)

variable [Monad m]

mutual

/-- Runs an expression; `back` runs the enclosing loop again. -/
def eval (M : Machine m V) : CExpr → (List V → m V) → Locals V → m V
  | .lit value _, _ => fun _ => pure (M.lit value)
  | .loc slot _, _ => fun env => pure (env slot)
  | .global target _, _ => fun _ => M.global target
  | .prim op args _, back => fun env => do
    let values ← inOrder (evalList M args back env)
    M.prim op values
  | .foreign symbol args _ _, back => fun env => do
    let values ← inOrder (evalList M args back env)
    M.foreign symbol values
  | .app func args reuse _ _, back => fun env => do
    let callee ← eval M func back env
    let values ← inOrder (evalList M args back env)
    M.apply callee values (reuse.map (Option.map env))
  | .ite cond yes no _, back => fun env => do
    let value ← eval M cond back env
    let first ← M.test value
    if first then eval M yes back env else eval M no back env
  | .letIn slot value body _, back => fun env => do
    let held ← eval M value back env
    eval M body back (env.set slot held)
  | .spread components _, back => fun env => do
    let values ← inOrder (evalList M components back env)
    M.spread values
  | .letMany slots value body _, back => fun env => do
    let held ← eval M value back env
    let parts ← M.components held
    eval M body back (env.setAll (M.lit .unit) slots parts)
  | .makeClosure func captures alloc _, _ => fun env => M.closure func (captures.map env) alloc
  | .makeData tag args reuse scalars niche _, back => fun env => do
    let values ← inOrder (evalList M args back env)
    M.data tag niche scalars values (reuse.map env)
  | .dataTag base niche _, back => fun env => do
    let value ← eval M base back env
    M.tag niche value
  | .dataField base index scalar niche _, back => fun env => do
    let value ← eval M base back env
    M.field niche scalar value (place env index)
  | .reset value token body _, back => fun env => do
    let held ← eval M value back env
    let memory ← M.reset held
    eval M body back (env.set token memory)
  | .freeReuse token body _, back => fun env => do
    M.freeReuse (env token)
    eval M body back env
  | .dup slot body _, back => fun env => do
    M.dup (env slot)
    eval M body back env
  | .drop slot body _, back => fun env => do
    M.drop (env slot)
    eval M body back env
  | .join params body _, _ => fun env =>
    M.loop (fun again values => eval M body again (env.setAll (M.lit .unit) params values))
      (params.map env)
  | .recur args _, back => fun env => do
    let values ← inOrder (evalList M args back env)
    back values
  | .holeStart hole body _, back => fun env => do
    let destination ← M.holeStart
    eval M body back (env.set hole destination)
  | .holeFill hole cell field _, back => fun env => do
    let value ← eval M cell back env
    M.holeFill (env hole) value field
  | .holeClose hole base _, back => fun env => do
    let value ← eval M base back env
    M.holeClose (env hole) value
  | .error _, _ => fun _ => M.trap

/-- Runs operands. -/
def evalList (M : Machine m V) : List CExpr → (List V → m V) → Locals V → List (m V)
  | [], _ => fun _ => []
  | e :: rest, back => fun env => eval M e back env :: evalList M rest back env

end

/-- Operands are run one by one. -/
theorem evalList_eq_map (M : Machine m V) (es : List CExpr) (back : List V → m V)
    (env : Locals V) : evalList M es back env = es.map fun e => eval M e back env := by
  induction es with
  | nil => simp only [evalList, List.map_nil]
  | cons e es hypothesis => simp only [evalList, List.map_cons, hypothesis]

/-- Two expressions run alike in a machine. -/
def Alike (M : Machine m V) (first second : CExpr) : Prop :=
  ∀ (back : List V → m V) (env : Locals V), eval M first back env = eval M second back env

end Fai.Eval

namespace Fai.CExpr

/-- A property holds of an expression and of all its subexpressions. -/
inductive Throughout (property : CExpr → Prop) : CExpr → Prop
  | node {e : CExpr} : property e → (∀ child ∈ e.children, Throughout property child) →
      Throughout property e

/-- A property that holds throughout holds at the root. -/
theorem Throughout.here {property : CExpr → Prop} {e : CExpr}
    (throughout : Throughout property e) : property e := by
  cases throughout with
  | node here _ => exact here

/-- A property that holds throughout holds throughout every child. -/
theorem Throughout.child {property : CExpr → Prop} {e : CExpr}
    (throughout : Throughout property e) : ∀ child ∈ e.children, Throughout property child := by
  cases throughout with
  | node _ below => exact below

/-- `map_children`: an expression with every child replaced. -/
def mapChildren (f : CExpr → CExpr) : CExpr → CExpr
  | lit value ty => lit value ty
  | loc slot ty => loc slot ty
  | global target ty => global target ty
  | makeClosure func captures alloc ty => makeClosure func captures alloc ty
  | error ty => error ty
  | prim op args ty => prim op (args.map f) ty
  | foreign symbol args marshalled ty => foreign symbol (args.map f) marshalled ty
  | app func args reuse alloc ty => app (f func) (args.map f) reuse alloc ty
  | ite cond yes no ty => ite (f cond) (f yes) (f no) ty
  | letIn slot value body ty => letIn slot (f value) (f body) ty
  | spread components ty => spread (components.map f) ty
  | letMany slots value body ty => letMany slots (f value) (f body) ty
  | makeData tag args reuse scalars niche ty => makeData tag (args.map f) reuse scalars niche ty
  | dataTag base niche ty => dataTag (f base) niche ty
  | dataField base index scalar niche ty => dataField (f base) index scalar niche ty
  | reset value token body ty => reset (f value) token (f body) ty
  | freeReuse token body ty => freeReuse token (f body) ty
  | dup slot body ty => dup slot (f body) ty
  | drop slot body ty => drop slot (f body) ty
  | join params body ty => join params (f body) ty
  | recur args ty => recur (args.map f) ty
  | holeStart hole body ty => holeStart hole (f body) ty
  | holeFill hole cell field ty => holeFill hole (f cell) field ty
  | holeClose hole base ty => holeClose hole (f base) ty

/-- The children of an expression with replaced children. -/
theorem children_mapChildren (f : CExpr → CExpr) (e : CExpr) :
    (e.mapChildren f).children = e.children.map f := by
  cases e <;> rfl

/-- Children that are replaced by themselves leave an expression as it is. -/
theorem mapChildren_eq_self {f : CExpr → CExpr} {e : CExpr}
    (fixed : ∀ child ∈ e.children, f child = child) : e.mapChildren f = e := by
  have list {args : List CExpr} (fixed : ∀ child ∈ args, f child = child) : args.map f = args := by
    conv_rhs => rw [← List.map_id args]
    exact List.map_congr_left fixed
  cases e with
  | lit | loc | global | makeClosure | error => rfl
  | prim | foreign | spread | makeData | recur =>
    simp only [children] at fixed
    rw [mapChildren, list fixed]
  | app func args reuse alloc ty =>
    simp only [children, List.forall_mem_cons] at fixed
    rw [mapChildren, fixed.1, list fixed.2]
  | ite cond yes no ty =>
    simp only [children, List.forall_mem_cons] at fixed
    rw [mapChildren, fixed.1, fixed.2.1, fixed.2.2.1]
  | letIn | letMany | reset =>
    simp only [children, List.forall_mem_cons] at fixed
    rw [mapChildren, fixed.1, fixed.2.1]
  | _ =>
    simp only [children, List.forall_mem_cons] at fixed
    rw [mapChildren, fixed.1]

end Fai.CExpr

namespace Fai.Eval

open Fai.Slots

variable {m : Type → Type} {V : Type} [Monad m]

/-- Operands that run alike run alike in order. -/
theorem evalList_congr {M : Machine m V} {f : CExpr → CExpr} {es : List CExpr}
    (alike : ∀ e ∈ es, Alike M (f e) e) (back : List V → m V) (env : Locals V) :
    evalList M (es.map f) back env = evalList M es back env := by
  rw [evalList_eq_map, evalList_eq_map, List.map_map]
  exact List.map_congr_left fun e member => alike e member back env

/-- An expression whose children are replaced by some that run alike runs alike. -/
theorem alike_mapChildren {M : Machine m V} {f : CExpr → CExpr} {e : CExpr}
    (alike : ∀ child ∈ e.children, Alike M (f child) child) : Alike M (e.mapChildren f) e := by
  intro back env
  cases e with
  | lit | loc | global | makeClosure | error => rfl
  | prim | foreign | spread | makeData | recur =>
    simp only [CExpr.children] at alike
    simp only [CExpr.mapChildren, eval, evalList_congr alike]
  | app func args reuse alloc ty =>
    simp only [CExpr.children, List.forall_mem_cons] at alike
    simp only [CExpr.mapChildren, eval, alike.1 back env, evalList_congr alike.2]
  | ite cond yes no ty =>
    simp only [CExpr.children, List.forall_mem_cons] at alike
    simp only [CExpr.mapChildren, eval, alike.1 back env, alike.2.1 back env, alike.2.2.1 back env]
  | letIn | letMany | reset =>
    simp only [CExpr.children, List.forall_mem_cons] at alike
    simp only [CExpr.mapChildren, eval, alike.1 back env, alike.2.1 back]
  | join params body ty =>
    simp only [CExpr.children, List.forall_mem_cons] at alike
    simp only [CExpr.mapChildren, eval]
    congr 1
    funext again values
    exact alike.1 again (env.setAll (M.lit .unit) params values)
  | dataTag | dataField | freeReuse | dup | drop | holeStart | holeFill | holeClose =>
    simp only [CExpr.children, List.forall_mem_cons] at alike
    simp only [CExpr.mapChildren, eval, alike.1 back]

end Fai.Eval
