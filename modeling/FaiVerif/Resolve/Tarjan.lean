import Mathlib.Logic.Function.Basic

/-!
# Strongly connected components of definitions

The algorithm of `crates/fai-resolve/src/scc.rs` that finds the groups of definitions that depend on
one another. Hash maps are functions, and the recursion is given as much fuel as there are nodes.
A missing key and an empty stack, where the code panics, have no result.
-/

namespace Fai.Resolve

open Function

variable {α : Type} [DecidableEq α]

/-- `Tarjan`. The top of the stack is the head of its list. -/
structure Tarjan (α : Type) where
  /-- The number for the next node. -/
  index : Nat
  /-- The numbers of the visited nodes. -/
  indices : α → Option Nat
  /-- The smallest number of a node on the stack that is known to be reached. -/
  lowlink : α → Option Nat
  /-- The nodes on the stack. -/
  onStack : α → Bool
  /-- The nodes whose component is not complete. -/
  stack : List α
  /-- The complete components. -/
  components : List (List α)

namespace Tarjan

/-- `Tarjan::new`. -/
def new : Tarjan α where
  index := 0
  indices _ := none
  lowlink _ := none
  onStack _ := false
  stack := []
  components := []

/-- The first part of `connect`: a node is numbered and pushed. -/
def discover (v : α) (t : Tarjan α) : Tarjan α where
  index := t.index + 1
  indices := update t.indices v (some t.index)
  lowlink := update t.lowlink v (some t.index)
  onStack := update t.onStack v true
  stack := v :: t.stack
  components := t.components

/-- Lowers the link of a node. -/
def lower (v : α) (low : Nat) (t : Tarjan α) : Option (Tarjan α) := do
  let lowV ← t.lowlink v
  pure { t with lowlink := update t.lowlink v (some (min lowV low)) }

/-- A step of the loop of `connect` over edges. -/
def follow (connect : α → Tarjan α → Option (Tarjan α)) (v : α) (t : Tarjan α) (w : α) :
    Option (Tarjan α) :=
  if t.indices w = none then do
    let t ← connect w t
    let lowW ← t.lowlink w
    t.lower v lowW
  else if t.onStack w then do
    let idxW ← t.indices w
    t.lower v idxW
  else pure t

/-- The loop that pops a component from the stack. -/
def popComponent (v : α) : List α → (α → Bool) → List α → Option (List α × (α → Bool) × List α)
  | [], _, _ => none
  | w :: stack, onStack, component =>
    if w = v then some (stack, update onStack w false, component ++ [w])
    else popComponent v stack (update onStack w false) (component ++ [w])

/-- The last part of `connect`: a node whose link is its number completes a component. -/
def finish (v : α) (t : Tarjan α) : Option (Tarjan α) := do
  let low ← t.lowlink v
  let idx ← t.indices v
  if low = idx then
    let (stack, onStack, component) ← popComponent v t.stack t.onStack []
    pure { t with stack, onStack, components := t.components ++ [component] }
  else pure t

/-- The edges of a node; a node that the graph does not know has none. -/
def successors (graph : α → Option (List α)) (v : α) : List α := (graph v).getD []

/-- `connect`. -/
def connect (graph : α → Option (List α)) : Nat → α → Tarjan α → Option (Tarjan α)
  | 0, _, _ => none
  | fuel + 1, v, t => do
    let t ← (successors graph v).foldlM (follow (connect graph fuel) v) (t.discover v)
    t.finish v

/-- A step of the loops over all nodes. -/
def visit (graph : α → Option (List α)) (fuel : Nat) (t : Tarjan α) (node : α) :
    Option (Tarjan α) :=
  if t.indices node = none then connect graph fuel node t else pure t

/-- The components of a graph, its nodes visited in an order. -/
def componentsOf (graph : α → Option (List α)) (order : List α) : Option (List (List α)) := do
  let t ← order.foldlM (visit graph order.length) new
  pure t.components

end Tarjan

end Fai.Resolve
