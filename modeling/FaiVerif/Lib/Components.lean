import Mathlib.Data.List.Nodup
import Mathlib.Data.List.Pairwise
import Mathlib.Logic.Relation

/-!
# Strongly connected components

Two nodes of a directed graph are in one component when each reaches the other. A list of components
is exact for some nodes when every node is in one of them and only there, and each of them is the
whole class of its nodes. Any two exact lists hold the same components.
-/

namespace Components

variable {α : Type} (edges : α → List α)

/-- A node reaches another one along edges. -/
def Reach : α → α → Prop := Relation.ReflTransGen fun x y => y ∈ edges x

/-- Two nodes reach each other. -/
def Strong (x y : α) : Prop := Reach edges x y ∧ Reach edges y x

/-- The components of some nodes. -/
structure Exact (nodes : List α) (components : List (List α)) : Prop where
  /-- Every node is in a component, and no other one is. -/
  covers : ∀ x, x ∈ components.flatten ↔ x ∈ nodes
  /-- No node is in two places. -/
  distinct : components.flatten.Nodup
  /-- Components have nodes. -/
  nonempty : ∀ c ∈ components, c ≠ []
  /-- A component is the class of each of its nodes. -/
  strong : ∀ c ∈ components, ∀ x ∈ c, ∀ y, y ∈ c ↔ Strong edges x y

variable {edges}

/-- Reachability along one edge and then more. -/
theorem Reach.head {x y z : α} (edge : y ∈ edges x) (rest : Reach edges y z) : Reach edges x z :=
  Relation.ReflTransGen.head edge rest

/-- Nodes that reach each other are the same, or lie on a cycle. -/
theorem Strong.cycle {x y : α} (strong : Strong edges x y) (differ : x ≠ y) :
    Relation.TransGen (fun x y => y ∈ edges x) x x := by
  rcases Relation.reflTransGen_iff_eq_or_transGen.mp strong.1 with same | path
  · exact absurd same.symm differ
  · exact path.trans_left strong.2

/-- A set that edges do not leave holds all that its nodes reach. -/
theorem Reach.closed {inside : α → Prop} (keeps : ∀ x, inside x → ∀ y ∈ edges x, inside y) {x y : α}
    (reach : Reach edges x y) (start : inside x) : inside y := by
  induction reach with
  | refl => exact start
  | tail _ edge hypothesis => exact keeps _ hypothesis _ edge

namespace Exact

variable {nodes nodes' : List α} {first second : List (List α)}

/-- The component of a node. -/
theorem exists_component (exact : Exact edges nodes first) {x : α} (node : x ∈ nodes) :
    ∃ c ∈ first, x ∈ c := List.mem_flatten.mp ((exact.covers x).mpr node)

/-- The components of a node in two exact lists hold the same nodes. -/
theorem perm_of_mem (exact : Exact edges nodes first) (exact' : Exact edges nodes' second)
    {c d : List α} (member : c ∈ first) (member' : d ∈ second) {x : α} (inside : x ∈ c)
    (inside' : x ∈ d) : c.Perm d := by
  rw [List.perm_ext_iff_of_nodup]
  · intro y
    rw [exact.strong c member x inside, exact'.strong d member' x inside']
  · exact (List.nodup_flatten.mp exact.distinct).1 c member
  · exact (List.nodup_flatten.mp exact'.distinct).1 d member'

/-- A node is in one component only. -/
theorem eq_of_mem (exact : Exact edges nodes first) {c d : List α} (member : c ∈ first)
    (member' : d ∈ first) {x : α} (inside : x ∈ c) (inside' : x ∈ d) : c = d := by
  by_contra differ
  have apart := (List.nodup_flatten.mp exact.distinct).2
  have symmetric : Std.Symm (@List.Disjoint α) :=
    ⟨fun _ _ apart _ first second => apart second first⟩
  exact List.disjoint_left.mp (apart.forall member member' differ) inside inside'

/-- Components in another order. -/
theorem perm (exact : Exact edges nodes first) (perm : first.Perm second) :
    Exact edges nodes second where
  covers x := (perm.flatten.mem_iff.symm).trans (exact.covers x)
  distinct := perm.flatten.nodup_iff.mp exact.distinct
  nonempty c member := exact.nonempty c (perm.mem_iff.mpr member)
  strong c member := exact.strong c (perm.mem_iff.mpr member)

/-- Components arranged in a way that does not depend on the order of their nodes are different. -/
theorem nodup_map (exact : Exact edges nodes first) {arrange : List α → List α}
    (keeps : ∀ c, (arrange c).Perm c) : (first.map arrange).Nodup := by
  have apart := (List.nodup_flatten.mp exact.distinct).2
  rw [List.nodup_map_iff_inj_on ?_]
  · intro c member d member' same
    obtain ⟨x, inside⟩ := List.exists_mem_of_ne_nil c (exact.nonempty c member)
    refine exact.eq_of_mem member member' inside ((keeps d).mem_iff.mp ?_)
    rw [← same]
    exact (keeps c).mem_iff.mpr inside
  · refine apart.imp_of_mem fun {c d} member member' disjoint same => ?_
    obtain ⟨x, inside⟩ := List.exists_mem_of_ne_nil c (exact.nonempty c member)
    exact List.disjoint_left.mp disjoint inside (same ▸ inside)

/-- A node is in one place only. -/
theorem index_unique (exact : Exact edges nodes first) {i j : Nat} {c d : List α}
    (entry : first[i]? = some c) (entry' : first[j]? = some d) {x : α} (inside : x ∈ c)
    (inside' : x ∈ d) : i = j := by
  have same := exact.eq_of_mem (List.mem_of_getElem? entry) (List.mem_of_getElem? entry') inside
    inside'
  have distinct : first.Nodup := by
    have := @nodup_map _ _ _ _ exact id fun c => .refl c
    rwa [List.map_id] at this
  obtain ⟨within, -⟩ := List.getElem?_eq_some_iff.mp entry
  exact (List.getElem?_inj within distinct).mp (by rw [entry, entry', same])

/-- Two exact lists hold the same components, arranged in a way that does not depend on the order of
their nodes. -/
theorem perm_map (exact : Exact edges nodes first) (exact' : Exact edges nodes' second)
    (same : ∀ x, x ∈ nodes ↔ x ∈ nodes') {arrange : List α → List α}
    (keeps : ∀ c, (arrange c).Perm c)
    (canonical : ∀ c d, (∀ x ∈ c, x ∈ nodes) → c.Perm d → arrange c = arrange d) :
    (first.map arrange).Perm (second.map arrange) := by
  have mem_of_mem {these those : List α} {first second : List (List α)}
      (exact : Exact edges these first) (exact' : Exact edges those second)
      (within : ∀ x, x ∈ these → x ∈ those) (within' : ∀ x, x ∈ those → x ∈ nodes) {c : List α}
      (member : c ∈ first.map arrange) : c ∈ second.map arrange := by
    obtain ⟨d, first', rfl⟩ := List.mem_map.mp member
    obtain ⟨x, inside⟩ := List.exists_mem_of_ne_nil d (exact.nonempty d first')
    have node := within x ((exact.covers x).mp (List.mem_flatten.mpr ⟨d, first', inside⟩))
    obtain ⟨e, second', inside'⟩ := exact'.exists_component node
    have among : ∀ y ∈ e, y ∈ nodes := fun y member =>
      within' y ((exact'.covers y).mp (List.mem_flatten.mpr ⟨e, second', member⟩))
    exact List.mem_map.mpr
      ⟨e, second', canonical _ _ among (exact'.perm_of_mem exact second' first' inside' inside)⟩
  rw [List.perm_ext_iff_of_nodup (exact.nodup_map keeps) (exact'.nodup_map keeps)]
  exact fun c => ⟨mem_of_mem exact exact' (fun x => (same x).mp) fun x => (same x).mpr,
    mem_of_mem exact' exact (fun x => (same x).mpr) fun _ => id⟩

end Exact

end Components
