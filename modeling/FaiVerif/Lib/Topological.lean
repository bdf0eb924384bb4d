import FaiVerif.Lib.SortedMap
import Mathlib.Algebra.Ring.Nat
import Mathlib.Data.Fintype.Order
import Mathlib.Data.List.Count
import Mathlib.Algebra.BigOperators.Group.List.Basic
import Mathlib.Order.WellFounded

/-!
# Removing nodes without incoming edges

A graph is given by its nodes and, for each node, the list of the nodes its edges lead to, with
repetition; edges that lead elsewhere do not count. Removing again and again a node that no
remaining edge leads to removes every node exactly when the graph has no cycle.
-/

namespace Topological

variable {α : Type} [LinearOrder α]

/-- Count one more edge into a node. -/
def raise (incoming : SortedMap α Nat) (x : α) : SortedMap α Nat :=
  match incoming.get x with
  | none => incoming
  | some n => incoming.insert x (n + 1)

/-- The number of edges into each node. -/
def incomingOf (nodes : List α) (edges : α → List α) : SortedMap α Nat :=
  nodes.foldl (fun incoming node => (edges node).foldl raise incoming)
    (nodes.foldl (fun incoming node => incoming.insert node 0) SortedMap.empty)

/-- Drop one edge into a node, which becomes ready with its last one. -/
def release (state : SortedMap α Nat × List α) (x : α) : SortedMap α Nat × List α :=
  match state.1.get x with
  | none => state
  | some n => (state.1.insert x (n - 1), if n - 1 = 0 then x :: state.2 else state.2)

/-- Remove ready nodes, counting them; the last node to become ready goes first. -/
def drain (edges : α → List α) : Nat → SortedMap α Nat → List α → Nat → Option Nat
  | _, _, [], count => some count
  | 0, _, _ :: _, _ => none
  | fuel + 1, incoming, current :: ready, count =>
    match (edges current).foldl release (incoming, ready) with
    | (incoming, ready) => drain edges fuel incoming ready (count + 1)

/-- The nodes that no edge leads to, the last one first. -/
def readyOf (incoming : SortedMap α Nat) : List α :=
  ((incoming.entries.filter fun entry => entry.2 == 0).map Prod.fst).reverse

/-- An edge between nodes. -/
def Edge (nodes : List α) (edges : α → List α) (a b : α) : Prop :=
  a ∈ nodes ∧ b ∈ nodes ∧ b ∈ edges a

/-- No path of edges leads back to where it started. -/
def Acyclic (nodes : List α) (edges : α → List α) : Prop :=
  ∀ x, ¬ Relation.TransGen (Edge nodes edges) x x

variable {nodes : List α} {edges : α → List α}

/-- The number of edges into a node from the nodes of a list. -/
def degree (edges : α → List α) (list : List α) (x : α) : Nat :=
  (list.map fun node => (edges node).count x).sum

/-- A count raised for each edge of a list. -/
theorem get_raises (x : α) : ∀ (list : List α) (incoming : SortedMap α Nat),
    (list.foldl raise incoming).get x = (incoming.get x).map (· + list.count x)
  | [], incoming => by simp
  | y :: rest, incoming => by
    rw [List.foldl_cons, get_raises x rest, List.count_cons]
    unfold raise
    cases held : incoming.get y with
    | none =>
      by_cases same : y = x
      · rw [← same, held]
        rfl
      · simp [same]
    | some n =>
      simp only
      by_cases same : y = x
      · rw [← same, SortedMap.get_insert_same, held]
        simp
        omega
      · rw [SortedMap.get_insert_other _ (Ne.symm same)]
        simp [same]

/-- The counts of the edges of several nodes. -/
theorem get_raiseAll (x : α) : ∀ (list : List α) (incoming : SortedMap α Nat),
    (list.foldl (fun incoming node => (edges node).foldl raise incoming) incoming).get x =
      (incoming.get x).map (· + degree edges list x)
  | [], incoming => by simp [degree]
  | node :: rest, incoming => by
    rw [List.foldl_cons, get_raiseAll x rest, get_raises, Option.map_map]
    congr 1
    funext n
    simp only [Function.comp_apply, degree, List.map_cons, List.sum_cons]
    omega

/-- The counts start at zero. -/
theorem get_zeros (x : α) : ∀ (list : List α) (incoming : SortedMap α Nat),
    (list.foldl (fun incoming node => incoming.insert node 0) incoming).get x =
      if x ∈ list then some 0 else incoming.get x
  | [], incoming => by simp
  | node :: rest, incoming => by
    rw [List.foldl_cons, get_zeros x rest, SortedMap.get_insert]
    by_cases inRest : x ∈ rest
    · simp [inRest]
    · by_cases same : x = node
      · simp [same]
      · simp [inRest, same]

/-- The number of edges into each node. -/
theorem get_incomingOf (x : α) :
    (incomingOf nodes edges).get x = if x ∈ nodes then some (degree edges nodes x) else none := by
  rw [incomingOf, get_raiseAll, get_zeros]
  by_cases inside : x ∈ nodes
  · simp [inside]
  · simp [inside]

/-- The nodes removed and those ready for it, with what is left of the edges. -/
structure Removing (nodes : List α) (edges : α → List α) (done ready : List α)
    (incoming : SortedMap α Nat) (pending : List α) : Prop where
  /-- A node is removed or becomes ready once. -/
  distinct : (done ++ ready).Nodup
  /-- The counts are those of the edges of the other nodes and of the pending ones. -/
  counts : ∀ x, incoming.get x = if x ∈ nodes then
    some (degree edges (nodes.filter fun node => !decide (node ∈ done)) x + pending.count x)
    else none
  /-- A node is removed or ready when no edge into it is left. -/
  free : ∀ x, x ∈ done ++ ready ↔ incoming.get x = some 0

namespace Removing

variable {done ready pending : List α} {incoming : SortedMap α Nat}

/-- Dropping one pending edge. -/
theorem release {y : α} (removing : Removing nodes edges done ready incoming (y :: pending)) :
    Removing nodes edges done (Topological.release (incoming, ready) y).2
      (Topological.release (incoming, ready) y).1 pending := by
  have countY := removing.counts y
  unfold Topological.release
  simp only
  by_cases inside : y ∈ nodes
  · rw [if_pos inside, List.count_cons_self] at countY
    rw [countY]
    simp only
    have counts : ∀ x, (incoming.insert y
        (degree edges (nodes.filter fun node => !decide (node ∈ done)) y +
          (pending.count y + 1) - 1)).get x = if x ∈ nodes then
        some (degree edges (nodes.filter fun node => !decide (node ∈ done)) x + pending.count x)
        else none := by
      intro x
      by_cases same : x = y
      · rw [same, SortedMap.get_insert_same, if_pos inside]
        rfl
      · rw [SortedMap.get_insert_other _ same, removing.counts x,
          List.count_cons_of_ne (Ne.symm same)]
    have busy : y ∉ done ++ ready := by
      rw [removing.free, countY]
      simp
    have others : ∀ x, x ≠ y → (x ∈ done ++ ready ↔ (incoming.insert y
        (degree edges (nodes.filter fun node => !decide (node ∈ done)) y +
          (pending.count y + 1) - 1)).get x = some 0) := by
      intro x other
      rw [SortedMap.get_insert_other _ other, removing.free]
    by_cases last : degree edges (nodes.filter fun node => !decide (node ∈ done)) y +
        (pending.count y + 1) - 1 = 0
    · rw [if_pos last]
      refine ⟨?_, counts, ?_⟩
      · rw [List.nodup_middle]
        exact List.nodup_cons.mpr ⟨busy, removing.distinct⟩
      · intro x
        by_cases same : x = y
        · rw [same, SortedMap.get_insert_same, last]
          simp
        · rw [← others x same]
          simp [same]
    · rw [if_neg last]
      refine ⟨removing.distinct, counts, ?_⟩
      intro x
      by_cases same : x = y
      · rw [same, SortedMap.get_insert_same, Option.some_inj]
        exact ⟨fun held => absurd held busy, fun zero => absurd zero last⟩
      · exact others x same
  · rw [if_neg inside] at countY
    rw [countY]
    refine ⟨removing.distinct, ?_, removing.free⟩
    intro x
    rw [removing.counts x]
    by_cases same : x = y
    · rw [same, if_neg inside, if_neg inside]
    · rw [List.count_cons_of_ne (Ne.symm same)]

/-- Dropping every pending edge. -/
theorem releases : ∀ {pending : List α} {ready : List α} {incoming : SortedMap α Nat},
    Removing nodes edges done ready incoming pending →
    Removing nodes edges done (pending.foldl Topological.release (incoming, ready)).2
      (pending.foldl Topological.release (incoming, ready)).1 []
  | [], _, _, removing => removing
  | _ :: _, _, _, removing => removing.release.releases

/-- A removed or ready node is a node. -/
theorem mem_nodes (removing : Removing nodes edges done ready incoming pending) {x : α}
    (inside : x ∈ done ++ ready) : x ∈ nodes := by
  have counted := (removing.free x).mp inside
  rw [removing.counts x] at counted
  by_contra outside
  rw [if_neg outside] at counted
  cases counted

end Removing

/-- The edges of the remaining nodes when one of them is taken out. -/
theorem degree_take {done : List α} {current : α} (x : α) (fresh : current ∉ done) :
    ∀ {nodes : List α}, nodes.Nodup → current ∈ nodes →
    degree edges (nodes.filter fun node => !decide (node ∈ done)) x =
      degree edges (nodes.filter fun node => !decide (node ∈ current :: done)) x +
        (edges current).count x
  | [], _, inside => absurd inside (List.not_mem_nil)
  | node :: rest, distinct, inside => by
    obtain ⟨outside, distinctRest⟩ := List.nodup_cons.mp distinct
    rcases List.mem_cons.mp inside with here | later
    · have same : (rest.filter fun node => !decide (node ∈ done)) =
          rest.filter fun node => !decide (node ∈ current :: done) := by
        apply List.filter_congr
        intro other inRest
        have differ : other ≠ current := by
          intro equal
          rw [equal, here] at inRest
          exact outside inRest
        simp [differ]
      rw [← here, List.filter_cons_of_pos (by simpa using fresh),
        List.filter_cons_of_neg (by simp), ← same]
      simp only [degree, List.map_cons, List.sum_cons]
      omega
    · have differ : node ≠ current := by
        intro equal
        rw [equal] at outside
        exact outside later
      have induct := degree_take x fresh distinctRest later
      by_cases removed : node ∈ done
      · rw [List.filter_cons_of_neg (by simpa using removed),
          List.filter_cons_of_neg (by simp [removed])]
        exact induct
      · rw [List.filter_cons_of_pos (by simpa using removed),
          List.filter_cons_of_pos (by simp [removed, differ])]
        simp only [degree, List.map_cons, List.sum_cons] at induct ⊢
        omega

/-- No edge leads from a node to one removed before it, or to itself. -/
structure Ordered (edges : α → List α) (done : List α) : Prop where
  /-- Later nodes have no edge to earlier ones. -/
  backwards : done.Pairwise fun later earlier => earlier ∉ edges later
  /-- No node has an edge to itself. -/
  loops : ∀ x ∈ done, x ∉ edges x

section Drain

variable {done ready : List α} {incoming : SortedMap α Nat}

/-- An edge of a remaining node is counted. -/
theorem count_le_degree (edges : α → List α) {current : α} (x : α) :
    ∀ {list : List α}, current ∈ list →
    (edges current).count x ≤ degree edges list x
  | [], inside => absurd inside (List.not_mem_nil)
  | node :: rest, inside => by
    simp only [degree, List.map_cons, List.sum_cons]
    rcases List.mem_cons.mp inside with here | later
    · rw [here]
      omega
    · have induct := count_le_degree edges x later
      unfold degree at induct
      omega

/-- Nodes without an edge to a node. -/
theorem degree_eq_zero {x : α} {list : List α} (none : ∀ node ∈ list, x ∉ edges node) :
    degree edges list x = 0 := by
  apply List.sum_eq_zero
  intro n member
  obtain ⟨node, inside, rfl⟩ := List.mem_map.mp member
  exact List.count_eq_zero.mpr (none node inside)

/-- A remaining node has no edge to a removed or ready one. -/
theorem Removing.no_edge (removing : Removing nodes edges done ready incoming [])
    {x node : α} (free : x ∈ done ++ ready) (inside : node ∈ nodes) (remaining : node ∉ done) :
    x ∉ edges node := by
  have counted := (removing.free x).mp free
  rw [removing.counts x, if_pos (removing.mem_nodes free), Option.some_inj] at counted
  have less := count_le_degree edges x
    (List.mem_filter.mpr ⟨inside, by simpa using remaining⟩ :
      node ∈ nodes.filter fun node => !decide (node ∈ done))
  rw [← List.count_eq_zero]
  omega

/-- Taking out a ready node. -/
theorem Removing.take (distinctNodes : nodes.Nodup) {current : α}
    (removing : Removing nodes edges done (current :: ready) incoming []) :
    Removing nodes edges (current :: done) ready incoming (edges current) := by
  have apart : (current :: (done ++ ready)).Nodup := List.nodup_middle.mp removing.distinct
  have fresh : current ∉ done := by
    intro inside
    exact (List.nodup_cons.mp apart).1 (List.mem_append_left _ inside)
  have inside := removing.mem_nodes (List.mem_append_right done List.mem_cons_self)
  refine ⟨apart, ?_, ?_⟩
  · intro x
    rw [removing.counts x, degree_take x fresh distinctNodes inside]
    rfl
  · intro x
    rw [← removing.free]
    simp only [List.cons_append, List.mem_cons, List.mem_append]
    constructor
    · rintro (here | before | after)
      · exact .inr (.inl here)
      · exact .inl before
      · exact .inr (.inr after)
    · rintro (before | here | after)
      · exact .inr (.inl before)
      · exact .inl here
      · exact .inr (.inr after)

/-- Removing ends when no node is ready, and then every node left has an edge from another one. -/
theorem drain_spec (distinctNodes : nodes.Nodup) : ∀ (fuel : Nat) {done ready : List α}
    {incoming : SortedMap α Nat}, Removing nodes edges done ready incoming [] →
    Ordered edges done → nodes.length ≤ done.length + fuel → ∃ last final,
      drain edges fuel incoming ready done.length = some last.length ∧
        Removing nodes edges last [] final [] ∧ Ordered edges last
  | fuel, done, [], incoming, removing, ordered, _ => by
    refine ⟨done, incoming, ?_, removing, ordered⟩
    cases fuel with
    | zero => rfl
    | succ => rfl
  | 0, done, current :: rest, incoming, removing, _, enough => by
    have all : (done ++ current :: rest).length ≤ nodes.length :=
      (removing.distinct.subperm fun _ inside => removing.mem_nodes inside).length_le
    rw [List.length_append, List.length_cons] at all
    omega
  | fuel + 1, done, current :: rest, incoming, removing, ordered, enough => by
    have taken := (removing.take distinctNodes).releases
    have inside := removing.mem_nodes (List.mem_append_right done List.mem_cons_self)
    have apart : (current :: (done ++ rest)).Nodup := List.nodup_middle.mp removing.distinct
    have fresh : current ∉ done := by
      intro before
      exact (List.nodup_cons.mp apart).1 (List.mem_append_left _ before)
    have next : Ordered edges (current :: done) := by
      refine ⟨List.pairwise_cons.mpr ⟨?_, ordered.backwards⟩, ?_⟩
      · intro earlier before
        exact removing.no_edge (List.mem_append_left _ before) inside fresh
      · intro x member
        rcases List.mem_cons.mp member with here | before
        · rw [here]
          exact removing.no_edge (List.mem_append_right _ List.mem_cons_self) inside fresh
        · exact ordered.loops x before
    simp only [drain]
    exact drain_spec distinctNodes fuel taken next (by rw [List.length_cons]; omega)

end Drain

/-- A path leads to nodes removed later. -/
theorem Ordered.later {done : List α} (ordered : Ordered edges done)
    (all : ∀ x ∈ nodes, x ∈ done) {a b : α}
    (path : Relation.TransGen (Edge nodes edges) a b) : done.idxOf b < done.idxOf a := by
  have step : ∀ {x y : α}, Edge nodes edges x y → done.idxOf y < done.idxOf x := by
    rintro x y ⟨xIn, yIn, edge⟩
    have xBound := List.idxOf_lt_length_of_mem (all x xIn)
    have yBound := List.idxOf_lt_length_of_mem (all y yIn)
    by_contra notLess
    rcases Nat.lt_or_eq_of_le (Nat.le_of_not_lt notLess) with before | same
    · have apart := List.pairwise_iff_getElem.mp ordered.backwards _ _ xBound yBound before
      rw [List.getElem_idxOf xBound, List.getElem_idxOf yBound] at apart
      exact apart edge
    · have equal : x = y := (List.idxOf_inj (all x xIn)).mp same
      rw [equal] at edge
      exact ordered.loops y (all y yIn) edge
  induction path with
  | single edge => exact step edge
  | tail _ edge induct => exact lt_trans (step edge) induct

omit [LinearOrder α] in
/-- In a graph without cycles some node of every set of nodes has no edge from the set. -/
theorem Acyclic.exists_source (acyclic : Acyclic nodes edges) (left : α → Prop) {start : α}
    (inside : start ∈ nodes) (held : left start) :
    ∃ x ∈ nodes, left x ∧ ∀ y ∈ nodes, left y → x ∉ edges y := by
  let before : {x // x ∈ nodes} → {x // x ∈ nodes} → Prop := fun a b =>
    Relation.TransGen (Edge nodes edges) a.1 b.1
  have finite : Finite {x // x ∈ nodes} := List.finite_toSet nodes
  have irreflexive : Std.Irrefl before := ⟨fun a => acyclic a.1⟩
  have transitive : IsTrans _ before := ⟨fun a b c first second => first.trans second⟩
  have founded : WellFounded before := Finite.wellFounded_of_trans_of_irrefl before
  obtain ⟨least, inSet, minimal⟩ := founded.has_min {x | left x.1} ⟨⟨start, inside⟩, held⟩
  refine ⟨least.1, least.2, inSet, ?_⟩
  intro y yIn yHeld edge
  exact minimal ⟨y, yIn⟩ yHeld (.single ⟨yIn, least.2, edge⟩)

/-- Removing removes every node exactly when there is no cycle. -/
theorem drain_eq_length_iff (edges : α → List α) (distinctNodes : nodes.Nodup) : ∃ count,
    drain edges nodes.length (incomingOf nodes edges) (readyOf (incomingOf nodes edges)) 0 =
      some count ∧ (count = nodes.length ↔ Acyclic nodes edges) := by
  have start : Removing nodes edges [] (readyOf (incomingOf nodes edges)) (incomingOf nodes edges)
      [] := by
    refine ⟨?_, ?_, ?_⟩
    · rw [List.nil_append, readyOf, List.nodup_reverse]
      exact ((incomingOf nodes edges).nodup_keys).sublist
        (List.filter_sublist.map Prod.fst)
    · intro x
      rw [get_incomingOf]
      simp
    · intro x
      rw [List.nil_append, readyOf, List.mem_reverse, List.mem_map]
      constructor
      · rintro ⟨entry, member, rfl⟩
        obtain ⟨inside, zero⟩ := List.mem_filter.mp member
        rw [SortedMap.get_eq_some]
        have same : entry.2 = 0 := by simpa using zero
        rw [← same]
        exact inside
      · intro zero
        exact ⟨(x, 0), List.mem_filter.mpr ⟨SortedMap.get_eq_some.mp zero, by simp⟩, rfl⟩
  have fresh : Ordered edges ([] : List α) := ⟨List.Pairwise.nil, fun _ inside => by cases inside⟩
  obtain ⟨last, final, drained, removing, ordered⟩ :=
    drain_spec distinctNodes nodes.length start fresh (by simp)
  refine ⟨last.length, drained, ?_⟩
  have subset : last ⊆ nodes := fun x inside =>
    removing.mem_nodes (List.mem_append_left _ inside)
  have distinct : last.Nodup := by
    have both := removing.distinct
    rw [List.append_nil] at both
    exact both
  constructor
  · intro whole x path
    have all : ∀ x ∈ nodes, x ∈ last := by
      have same := (distinct.subperm subset).perm_of_length_le (Nat.le_of_eq whole.symm)
      exact fun x inside => same.mem_iff.mpr inside
    exact absurd (ordered.later all path) (lt_irrefl _)
  · intro acyclic
    have all : nodes ⊆ last := by
      intro x inside
      by_contra remains
      obtain ⟨source, sourceIn, sourceLeft, none⟩ :=
        acyclic.exists_source (fun x => x ∉ last) inside remains
      refine sourceLeft ?_
      have free : source ∈ last ++ [] := by
        rw [removing.free, removing.counts, if_pos sourceIn, degree_eq_zero]
        · rfl
        · intro node member
          obtain ⟨nodeIn, nodeLeft⟩ := List.mem_filter.mp member
          exact none node nodeIn (by simpa using nodeLeft)
      rw [List.append_nil] at free
      exact free
    have least := (distinctNodes.subperm all).length_le
    have most := (distinct.subperm subset).length_le
    omega

end Topological
