import FaiVerif.Resolve.TarjanExact
import Mathlib.Data.String.Basic

/-!
# The components of a module

`def_deps`, `module_sccs` and `recursive_defs` of `crates/fai-resolve/src/scc.rs`. The definitions
of a file and what each body refers to are parameters, and so is the order in which a hash map
gives its keys.
-/

namespace Fai.Resolve

open Components Function Tarjan

/-- `DefId`: a definition, by its file and its name. -/
structure DefId where
  /-- The defining file. -/
  file : Nat
  /-- The name of the binding. -/
  name : String
deriving DecidableEq

/-- `DefInfo`, as far as components depend on it. -/
structure DefInfo where
  /-- The qualified name. -/
  name : String
  /-- The item of the signature, if there is one. -/
  signature : Option Nat

/-- `Scc`: definitions that are inferred together. -/
structure Scc where
  /-- The members, sorted by name. -/
  members : List DefId

/-- `ModuleSccs`. -/
structure ModuleSccs where
  /-- The components, sorted by the name of their first member. -/
  sccs : List Scc
  /-- The index of the component of a definition. -/
  indexOf : DefId → Option Nat

/-- `ModuleSccs::scc_of`. -/
def ModuleSccs.sccOf (result : ModuleSccs) (d : DefId) : Option Scc :=
  (result.indexOf d).bind fun i => result.sccs[i]?

/-- Sorts definitions by name. -/
def sortByName (defs : List DefId) : List DefId :=
  defs.mergeSort fun a b => decide (a.name ≤ b.name)

/-- `Vec::dedup`: drops entries that are equal to the one before them. -/
def dedup {α : Type} [DecidableEq α] : List α → List α
  | [] => []
  | [x] => [x]
  | x :: y :: rest => if x = y then dedup (y :: rest) else x :: dedup (y :: rest)

section Module

variable (file : Nat) (defs : List DefInfo) (depsOf : DefId → List DefId)

/-- The definitions without a signature. -/
def sigless : List DefId := (defs.filter (·.signature.isNone)).map fun d => ⟨file, d.name⟩

/-- `def_deps`: what definitions without a signature refer to, among themselves. -/
def defDeps (node : DefId) : Option (List DefId) :=
  if node ∈ sigless file defs then
    some (dedup (sortByName ((depsOf node).filter fun target =>
      target ≠ node ∧ target ∈ sigless file defs)))
  else none

/-- The name of the first member of a component. -/
def Scc.firstName (scc : Scc) : String := (scc.members.head?.map (·.name)).getD ""

/-- The loop that fills `index_of`. -/
def indexMembers (sccs : List Scc) : DefId → Option Nat :=
  sccs.zipIdx.foldl (fun index entry =>
    entry.1.members.foldl (fun index member => update index member (some entry.2)) index)
    fun _ => none

/-- `module_sccs`, with the keys of the graph in an order. -/
def moduleSccs (order : List DefId) : Option ModuleSccs := do
  let components ← componentsOf (defDeps file defs depsOf) order
  let singles := (defs.filter (·.signature.isSome)).map fun d => (⟨[⟨file, d.name⟩]⟩ : Scc)
  let sccs := (components.map (fun members => (⟨sortByName members⟩ : Scc)) ++ singles).mergeSort
    fun a b => decide (a.firstName ≤ b.firstName)
  pure ⟨sccs, indexMembers sccs⟩

/-- All definitions of the file. -/
def nodes : List DefId := defs.map fun d => ⟨file, d.name⟩

/-- The graph of `recursive_defs`: all references within the file. -/
def references (node : DefId) : Option (List DefId) :=
  if node ∈ nodes file defs then
    some (dedup (sortByName ((depsOf node).filter (· ∈ nodes file defs))))
  else none

/-- `recursive_defs`: those that refer to themselves, and the members of larger components. The keys
of the graph are sorted before they are visited. -/
def recursiveDefs (keys : List DefId) : Option (List DefId) := do
  let selfLoops := (nodes file defs).filter fun node => node ∈ depsOf node
  let components ← componentsOf (references file defs depsOf) (sortByName keys)
  pure (selfLoops ++ (components.filter fun component => 1 < component.length).flatten)

end Module

end Fai.Resolve
