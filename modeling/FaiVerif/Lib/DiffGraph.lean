import Mathlib.Data.List.Dedup
import Mathlib.Data.List.Lookmap
import Mathlib.Data.Finset.Card
import Mathlib.Tactic.Ring

/-!
# Difference constraints as weighted graphs

A graph over any node type records inequalities `a ≤ b + c`. A valuation satisfies the graph when
it satisfies every recorded inequality; tightening an edge, relaxing distances from one node and
narrowing absolute intervals all keep what a satisfying valuation makes true. Distances may be
summed with a saturating addition: the budget on weights and nodes shows that its ceiling is
never met.
-/

namespace DiffGraph

section Assignment

variable {κ α : Type} [DecidableEq κ]

/-- Insert or replace the entry of a key in an association list. -/
def assign (key : κ) (value : α) : List (κ × α) → List (κ × α)
  | [] => [(key, value)]
  | (k, old) :: rest => if k = key then (k, value) :: rest else (k, old) :: assign key value rest

/-- An entry of an updated list is the new one or was there before. -/
theorem mem_assign {key : κ} {value : α} {entries : List (κ × α)} {entry : κ × α}
    (member : entry ∈ assign key value entries) :
    entry = (key, value) ∨ entry ∈ entries := by
  induction entries with
  | nil => exact .inl (by simpa [assign] using member)
  | cons head rest induct =>
    obtain ⟨k, old⟩ := head
    unfold assign at member
    split at member
    · rename_i same
      rcases List.mem_cons.mp member with rfl | tail
      · exact .inl (by rw [same])
      · exact .inr (List.mem_cons_of_mem _ tail)
    · rcases List.mem_cons.mp member with rfl | tail
      · exact .inr List.mem_cons_self
      · rcases induct tail with fresh | kept
        · exact .inl fresh
        · exact .inr (List.mem_cons_of_mem _ kept)

/-- A successful lookup names an entry of the list. -/
theorem mem_of_lookup {key : κ} {value : α} {entries : List (κ × α)}
    (found : entries.lookup key = some value) : (key, value) ∈ entries := by
  obtain ⟨before, after, split, -⟩ := List.lookup_eq_some_iff.mp found
  rw [split]
  exact List.mem_append_right _ List.mem_cons_self

/-- A key with no entry is in no pair of the list. -/
theorem not_mem_of_lookup {key : κ} {entries : List (κ × α)}
    (missing : entries.lookup key = none) : key ∉ entries.map Prod.fst := by
  intro present
  obtain ⟨entry, member, same⟩ := List.mem_map.mp present
  have differ := List.lookup_eq_none_iff.mp missing entry member
  simp [same] at differ

/-- Updating a present key keeps the list of keys. -/
theorem keys_assign_of_mem {key : κ} {value : α} {entries : List (κ × α)}
    (present : key ∈ entries.map Prod.fst) :
    (assign key value entries).map Prod.fst = entries.map Prod.fst := by
  induction entries with
  | nil => simp at present
  | cons head rest induct =>
    obtain ⟨k, old⟩ := head
    unfold assign
    split
    · rfl
    · rename_i differ
      have inTail : key ∈ rest.map Prod.fst := by
        simp only [List.map_cons, List.mem_cons] at present
        rcases present with same | tail
        · exact absurd same.symm differ
        · exact tail
      simp only [List.map_cons, induct inTail]

/-- Updating an absent key appends it. -/
theorem assign_of_not_mem {key : κ} {value : α} {entries : List (κ × α)}
    (absent : key ∉ entries.map Prod.fst) :
    assign key value entries = entries ++ [(key, value)] := by
  induction entries with
  | nil => rfl
  | cons head rest induct =>
    obtain ⟨k, old⟩ := head
    simp only [List.map_cons, List.mem_cons, not_or] at absent
    simp only [assign, if_neg (Ne.symm absent.1), induct absent.2, List.cons_append]

end Assignment

/-- Edges by source node: `(a, [(b, c), …])` records `a ≤ b + c`. -/
abbrev Graph (ν : Type) := List (ν × List (ν × Int))

variable {ν : Type}

/-- Every edge of a graph has a property. -/
def Every (property : ν → ν → Int → Prop) (graph : Graph ν) : Prop :=
  ∀ a row, (a, row) ∈ graph → ∀ b c, (b, c) ∈ row → property a b c

/-- A valuation of the nodes satisfies every recorded inequality. -/
def Sat (value : ν → Int) (graph : Graph ν) : Prop :=
  Every (fun a b c => value a ≤ value b + c) graph

/-- The nodes of a graph, with repetitions. -/
def nodes (graph : Graph ν) : List ν := graph.flatMap fun (a, row) => a :: row.map Prod.fst

/-- A property of all edges follows from a stronger one. -/
theorem Every.imp {weak strong : ν → ν → Int → Prop} {graph : Graph ν}
    (every : Every strong graph)
    (implies : ∀ a b c, a ∈ nodes graph → b ∈ nodes graph → strong a b c → weak a b c) :
    Every weak graph := by
  intro a row inGraph b c inRow
  have nodeA : a ∈ nodes graph :=
    List.mem_flatMap.mpr ⟨(a, row), inGraph, List.mem_cons_self⟩
  have nodeB : b ∈ nodes graph :=
    List.mem_flatMap.mpr ⟨(a, row), inGraph,
      List.mem_cons_of_mem _ (List.mem_map.mpr ⟨(b, c), inRow, rfl⟩)⟩
  exact implies a b c nodeA nodeB (every a row inGraph b c inRow)

/-- Two valuations that agree on the nodes satisfy the same graphs. -/
theorem Sat.congr {first second : ν → Int} {graph : Graph ν} (holds : Sat first graph)
    (agree : ∀ a ∈ nodes graph, first a = second a) : Sat second graph := by
  refine Every.imp holds fun a b c nodeA nodeB edge => ?_
  rw [← agree a nodeA, ← agree b nodeB]
  exact edge

section Tighten

variable [DecidableEq ν]

/-- Keep the smallest weight recorded for a target in one row. -/
def tightenRow (target : ν) (c : Int) : List (ν × Int) → List (ν × Int)
  | [] => [(target, c)]
  | (t, old) :: rest =>
    if t = target then (t, if c < old then c else old) :: rest
    else (t, old) :: tightenRow target c rest

/-- Keep the smallest weight recorded for an edge. -/
def tighten (origin target : ν) (c : Int) : Graph ν → Graph ν
  | [] => [(origin, [(target, c)])]
  | (a, row) :: rest =>
    if a = origin then (a, tightenRow target c row) :: rest
    else (a, row) :: tighten origin target c rest

/-- An edge of a tightened row is the new one or was there before. -/
theorem mem_tightenRow {target : ν} {c : Int} {row : List (ν × Int)} {edge : ν × Int}
    (member : edge ∈ tightenRow target c row) : edge = (target, c) ∨ edge ∈ row := by
  induction row with
  | nil => exact .inl (by simpa [tightenRow] using member)
  | cons head rest induct =>
    obtain ⟨t, old⟩ := head
    unfold tightenRow at member
    split at member
    · rename_i same
      rcases List.mem_cons.mp member with rfl | tail
      · split
        · exact .inl (by rw [same])
        · exact .inr List.mem_cons_self
      · exact .inr (List.mem_cons_of_mem _ tail)
    · rcases List.mem_cons.mp member with rfl | tail
      · exact .inr List.mem_cons_self
      · rcases induct tail with fresh | kept
        · exact .inl fresh
        · exact .inr (List.mem_cons_of_mem _ kept)

/-- Tightening keeps a property of all edges that the new edge has. -/
theorem every_tighten {property : ν → ν → Int → Prop} {graph : Graph ν} {origin target : ν}
    {c : Int} (every : Every property graph) (edge : property origin target c) :
    Every property (tighten origin target c graph) := by
  induction graph with
  | nil =>
    intro a row inGraph b w inRow
    simp only [tighten, List.mem_singleton, Prod.mk.injEq] at inGraph
    obtain ⟨rfl, rfl⟩ := inGraph
    simp only [List.mem_singleton, Prod.mk.injEq] at inRow
    obtain ⟨rfl, rfl⟩ := inRow
    exact edge
  | cons head rest induct =>
    obtain ⟨k, old⟩ := head
    have tail : Every property rest := fun a row inRest =>
      every a row (List.mem_cons_of_mem _ inRest)
    intro a row inGraph b w inRow
    unfold tighten at inGraph
    split at inGraph
    · rename_i same
      rcases List.mem_cons.mp inGraph with here | later
      · cases here
        rcases mem_tightenRow inRow with fresh | kept
        · cases fresh
          rw [same]
          exact edge
        · exact every _ old List.mem_cons_self b w kept
      · exact tail a row later b w inRow
    · rcases List.mem_cons.mp inGraph with here | later
      · cases here
        exact every _ _ List.mem_cons_self b w inRow
      · exact induct tail a row later b w inRow

/-- Tightening adds no node but the two ends of the edge. -/
theorem mem_nodes_tighten {graph : Graph ν} {origin target node : ν} {c : Int}
    (member : node ∈ nodes (tighten origin target c graph)) :
    node = origin ∨ node = target ∨ node ∈ nodes graph := by
  induction graph with
  | nil =>
    simp only [nodes, tighten, List.flatMap_cons, List.flatMap_nil, List.map_cons, List.map_nil,
      List.append_nil, List.mem_cons, List.not_mem_nil, or_false] at member
    rcases member with isOrigin | isTarget
    · exact .inl isOrigin
    · exact .inr (.inl isTarget)
  | cons head rest induct =>
    obtain ⟨k, row⟩ := head
    unfold tighten at member
    simp only [nodes, List.flatMap_cons, List.mem_append, List.mem_cons] at member induct ⊢
    split at member
    · simp only [List.flatMap_cons, List.mem_append, List.mem_cons, List.mem_map] at member
      rcases member with (isSource | ⟨edge, inRow, isTarget⟩) | later
      · exact .inr (.inr (.inl (.inl isSource)))
      · rcases mem_tightenRow inRow with fresh | kept
        · cases fresh
          exact .inr (.inl isTarget.symm)
        · exact .inr (.inr (.inl (.inr (List.mem_map.mpr ⟨edge, kept, isTarget⟩))))
      · exact .inr (.inr (.inr later))
    · simp only [List.flatMap_cons, List.mem_append, List.mem_cons] at member
      rcases member with here | later
      · exact .inr (.inr (.inl here))
      · rcases induct later with isOrigin | isTarget | kept
        · exact .inl isOrigin
        · exact .inr (.inl isTarget)
        · exact .inr (.inr (.inr kept))

/-- The distinct nodes of a graph. -/
def nodeSet (graph : Graph ν) : Finset ν := (nodes graph).toFinset

/-- The number of distinct nodes of a graph. -/
def nodeCount (graph : Graph ν) : Nat := (nodeSet graph).card

/-- Membership in the set of distinct nodes. -/
@[simp]
theorem mem_nodeSet {graph : Graph ν} {node : ν} : node ∈ nodeSet graph ↔ node ∈ nodes graph :=
  List.mem_toFinset

/-- Tightening adds at most the ends that were not nodes yet. -/
theorem nodeCount_tighten (graph : Graph ν) (origin target : ν) (c : Int) :
    nodeCount (tighten origin target c graph) ≤
      nodeCount graph + ((if origin ∈ nodes graph then 0 else 1) +
        (if target ∈ nodes graph then 0 else 1)) := by
  have subset : nodeSet (tighten origin target c graph) ⊆
      insert origin (insert target (nodeSet graph)) := by
    intro node member
    rcases mem_nodes_tighten (mem_nodeSet.mp member) with rfl | rfl | kept
    · exact Finset.mem_insert_self _ _
    · exact Finset.mem_insert_of_mem (Finset.mem_insert_self _ _)
    · exact Finset.mem_insert_of_mem (Finset.mem_insert_of_mem (mem_nodeSet.mpr kept))
  have inner : (insert target (nodeSet graph)).card ≤
      nodeCount graph + (if target ∈ nodes graph then 0 else 1) := by
    split
    · rename_i present
      rw [Finset.insert_eq_of_mem (mem_nodeSet.mpr present)]
      exact Nat.le_refl _
    · exact Finset.card_insert_le _ _
  have outer : (insert origin (insert target (nodeSet graph))).card ≤
      (insert target (nodeSet graph)).card + (if origin ∈ nodes graph then 0 else 1) := by
    split
    · rename_i present
      rw [Finset.insert_eq_of_mem (Finset.mem_insert_of_mem (mem_nodeSet.mpr present))]
      exact Nat.le_refl _
    · exact Finset.card_insert_le _ _
  have covered := Finset.card_le_card subset
  simp only [nodeCount] at inner ⊢
  omega

end Tighten

section Distance

variable [DecidableEq ν]

/-- Relax one edge from a node at distance `reached`, an absent target counting as `top`. -/
def relaxEdge (add : Int → Int → Int) (top reached : Int) (dist : List (ν × Int))
    (edge : ν × Int) : List (ν × Int) :=
  let offered := add reached edge.2
  let old := (dist.lookup edge.1).getD top
  assign edge.1 (if offered < old then offered else old) dist

/-- Relax every edge once. -/
def relaxAll (add : Int → Int → Int) (top : Int) (graph : Graph ν) (dist : List (ν × Int)) :
    List (ν × Int) :=
  graph.foldl (fun dist (a, row) =>
    match dist.lookup a with
    | some reached => row.foldl (relaxEdge add top reached) dist
    | none => dist) dist

/-- A bounded number of rounds, stopped early when a round changes nothing. -/
def relaxLoop (add : Int → Int → Int) (top : Int) (graph : Graph ν) :
    Nat → List (ν × Int) → List (ν × Int)
  | 0, dist => dist
  | fuel + 1, dist =>
    let next := relaxAll add top graph dist
    if next = dist then dist else relaxLoop add top graph fuel next

variable (value : ν → Int) (origin : ν) (cap : Int) (pool : Finset ν)

/-- What every relaxation keeps: distances are true, at most one for each node of the pool, and no
larger than a full budget of weights. -/
structure Reached (dist : List (ν × Int)) : Prop where
  /-- A distance bounds the origin by the node. -/
  bounded : ∀ node d, (node, d) ∈ dist → value origin ≤ value node + d
  /-- A node has one distance. -/
  distinct : (dist.map Prod.fst).Nodup
  /-- Only nodes of the pool have a distance. -/
  within : ∀ node ∈ dist.map Prod.fst, node ∈ pool
  /-- A distance is the sum of at most one weight for each reached node. -/
  small : ∀ node d, (node, d) ∈ dist → d ≤ dist.length * cap

variable {value origin cap pool}

/-- No more nodes are reached than the pool holds. -/
theorem Reached.length_le {dist : List (ν × Int)} (reached : Reached value origin cap pool dist) :
    dist.length ≤ pool.card := by
  have subset : (dist.map Prod.fst).toFinset ⊆ pool := fun node member =>
    reached.within node (List.mem_toFinset.mp member)
  have counted := Finset.card_le_card subset
  rw [List.toFinset_card_of_nodup reached.distinct, List.length_map] at counted
  exact counted

omit [DecidableEq ν] in
/-- The search starts with the origin at distance zero. -/
theorem Reached.start (nonnegative : 0 ≤ cap) (inPool : origin ∈ pool) :
    Reached value origin cap pool [(origin, 0)] where
  bounded := by
    intro node d member
    simp only [List.mem_singleton, Prod.mk.injEq] at member
    obtain ⟨rfl, rfl⟩ := member
    omega
  distinct := by simp
  within := by simpa using inPool
  small := by
    intro node d member
    simp only [List.mem_singleton, Prod.mk.injEq] at member
    obtain ⟨rfl, rfl⟩ := member
    simpa using nonnegative

variable {add : Int → Int → Int} {top : Int}

section Saturating

variable (nonnegative : 0 ≤ cap)
  (room : (pool.card + 1) * cap < top)
  (atLeast : ∀ n m, n + m ≤ top → n + m ≤ add n m)
  (atMost : ∀ n m, add n m ≤ max 0 (n + m))

include nonnegative room atLeast atMost

/-- Relaxing a true edge from a reached node keeps the distances true. -/
theorem reached_relaxEdge {dist : List (ν × Int)} {a : ν} {distance : Int} (edge : ν × Int)
    (reached : Reached value origin cap pool dist)
    (source : value origin ≤ value a + distance) (short : distance ≤ dist.length * cap)
    (edgeTrue : value a ≤ value edge.1 + edge.2) (light : edge.2 ≤ cap)
    (inPool : edge.1 ∈ pool) :
    Reached value origin cap pool (relaxEdge add top distance dist edge) ∧
      dist.length ≤ (relaxEdge add top distance dist edge).length := by
  obtain ⟨b, c⟩ := edge
  have fits : (dist.length : Int) ≤ pool.card := Int.ofNat_le.mpr reached.length_le
  have scaled : (dist.length : Int) * cap ≤ pool.card * cap :=
    Int.mul_le_mul_of_nonneg_right fits nonnegative
  have roomSum : (pool.card : Int) * cap + cap < top := by
    rw [add_mul, one_mul] at room
    exact room
  have sumSmall : distance + c ≤ dist.length * cap + cap := by
    have := light
    simp only at this
    omega
  have lengthNonneg : 0 ≤ (dist.length : Int) * cap :=
    Int.mul_nonneg (Int.natCast_nonneg _) nonnegative
  have offeredLe : add distance c ≤ dist.length * cap + cap := by
    have := atMost distance c
    omega
  have offeredGe : distance + c ≤ add distance c := atLeast _ _ (by omega)
  have offeredTrue : value origin ≤ value b + add distance c := by
    simp only at edgeTrue
    omega
  unfold relaxEdge
  cases found : dist.lookup b with
  | some old =>
    have present := mem_of_lookup found
    have keys : (assign b (if add distance c < old then add distance c else old) dist).map
        Prod.fst = dist.map Prod.fst :=
      keys_assign_of_mem (List.mem_map.mpr ⟨_, present, rfl⟩)
    have sameLength : (assign b (if add distance c < old then add distance c else old)
        dist).length = dist.length := by
      simpa using congrArg List.length keys
    simp only [Option.getD_some]
    refine ⟨⟨?_, ?_, ?_, ?_⟩, sameLength.ge⟩
    · intro node d member
      rcases mem_assign member with fresh | kept
      · cases fresh
        split
        · exact offeredTrue
        · exact reached.bounded _ _ present
      · exact reached.bounded _ _ kept
    · rw [keys]
      exact reached.distinct
    · rw [keys]
      exact reached.within
    · intro node d member
      rw [sameLength]
      rcases mem_assign member with fresh | kept
      · cases fresh
        have oldSmall := reached.small _ _ present
        split <;> omega
      · exact reached.small _ _ kept
  | none =>
    have absent := not_mem_of_lookup found
    have below : add distance c < top := by omega
    simp only [Option.getD_none, if_pos below, assign_of_not_mem absent]
    refine ⟨⟨?_, ?_, ?_, ?_⟩, by simp⟩
    · intro node d member
      rcases List.mem_append.mp member with kept | fresh
      · exact reached.bounded _ _ kept
      · simp only [List.mem_singleton, Prod.mk.injEq] at fresh
        obtain ⟨rfl, rfl⟩ := fresh
        exact offeredTrue
    · rw [List.map_append, List.map_singleton]
      exact List.nodup_append.mpr ⟨reached.distinct, List.nodup_singleton _, by
        intro x inOld y inNew same
        rw [same, List.mem_singleton.mp inNew] at inOld
        exact absent inOld⟩
    · intro node member
      rw [List.map_append, List.map_singleton] at member
      rcases List.mem_append.mp member with kept | fresh
      · exact reached.within _ kept
      · rw [List.mem_singleton.mp fresh]
        exact inPool
    · intro node d member
      have lengthSucc : ((dist ++ [(b, add distance c)]).length : Int) * cap =
          dist.length * cap + cap := by
        push_cast [List.length_append, List.length_singleton]
        ring
      rw [lengthSucc]
      rcases List.mem_append.mp member with kept | fresh
      · have := reached.small _ _ kept
        omega
      · simp only [List.mem_singleton, Prod.mk.injEq] at fresh
        obtain ⟨rfl, rfl⟩ := fresh
        exact offeredLe

/-- Relaxing a row of true edges keeps the distances true. -/
theorem reached_relaxRow {a : ν} {distance : Int} (source : value origin ≤ value a + distance)
    (row : List (ν × Int)) (rowTrue : ∀ b c, (b, c) ∈ row → value a ≤ value b + c)
    (light : ∀ b c, (b, c) ∈ row → c ≤ cap) (inPool : ∀ b c, (b, c) ∈ row → b ∈ pool)
    {dist : List (ν × Int)} (reached : Reached value origin cap pool dist)
    (short : distance ≤ dist.length * cap) :
    Reached value origin cap pool (row.foldl (relaxEdge add top distance) dist) := by
  induction row generalizing dist with
  | nil => exact reached
  | cons edge rest induct =>
    obtain ⟨b, c⟩ := edge
    obtain ⟨next, longer⟩ := reached_relaxEdge nonnegative room atLeast atMost (b, c)
      reached source short (rowTrue b c List.mem_cons_self) (light b c List.mem_cons_self)
      (inPool b c List.mem_cons_self)
    have scaled := Int.mul_le_mul_of_nonneg_right (Int.ofNat_le.mpr longer) nonnegative
    refine induct (fun b c member => rowTrue b c (List.mem_cons_of_mem _ member))
      (fun b c member => light b c (List.mem_cons_of_mem _ member))
      (fun b c member => inPool b c (List.mem_cons_of_mem _ member)) next ?_
    exact Int.le_trans short scaled

/-- One round over a satisfied graph keeps the distances true. -/
theorem reached_relaxAll (graph : Graph ν) (sat : Sat value graph)
    (light : Every (fun _ _ c => c ≤ cap) graph) (inPool : Every (fun _ b _ => b ∈ pool) graph)
    {dist : List (ν × Int)} (reached : Reached value origin cap pool dist) :
    Reached value origin cap pool (relaxAll add top graph dist) := by
  induction graph generalizing dist with
  | nil => exact reached
  | cons head rest induct =>
    obtain ⟨a, row⟩ := head
    simp only [relaxAll, List.foldl_cons]
    refine induct (fun a row member => sat a row (List.mem_cons_of_mem _ member))
      (fun a row member => light a row (List.mem_cons_of_mem _ member))
      (fun a row member => inPool a row (List.mem_cons_of_mem _ member)) ?_
    cases found : dist.lookup a with
    | none => exact reached
    | some distance =>
      have member := mem_of_lookup found
      exact reached_relaxRow nonnegative room atLeast atMost (reached.bounded _ _ member) row
        (sat a row List.mem_cons_self) (light a row List.mem_cons_self)
        (inPool a row List.mem_cons_self) reached (reached.small _ _ member)

/-- Any number of rounds over a satisfied graph keeps the distances true. -/
theorem reached_relaxLoop (graph : Graph ν) (sat : Sat value graph)
    (light : Every (fun _ _ c => c ≤ cap) graph) (inPool : Every (fun _ b _ => b ∈ pool) graph)
    (fuel : Nat) {dist : List (ν × Int)} (reached : Reached value origin cap pool dist) :
    Reached value origin cap pool (relaxLoop add top graph fuel dist) := by
  induction fuel generalizing dist with
  | zero => exact reached
  | succ fuel induct =>
    unfold relaxLoop
    have next := reached_relaxAll nonnegative room atLeast atMost graph sat light inPool reached
    simp only
    split
    · exact reached
    · exact induct next

end Saturating

end Distance

section Intervals

variable [DecidableEq ν]

/-- The interval of a node in a range table, or its base interval. -/
def rangeOf (base : ν → Int × Int) (ranges : List (ν × Int × Int)) (node : ν) : Int × Int :=
  (ranges.lookup node).getD (base node)

/-- Narrow the upper end of the source and the lower end of the target of one edge. -/
def narrowEdge (base : ν → Int × Int) (origin : ν) (ranges : List (ν × Int × Int))
    (edge : ν × Int) : List (ν × Int × Int) :=
  let (originLo, originHi) := rangeOf base ranges origin
  let (targetLo, targetHi) := rangeOf base ranges edge.1
  let hi := min originHi (targetHi + edge.2)
  let lo := max targetLo (originLo - edge.2)
  let ranges := if hi < originHi then assign origin (originLo, hi) ranges else ranges
  if targetLo < lo then assign edge.1 (lo, (rangeOf base ranges edge.1).2) ranges else ranges

/-- One sweep of the propagation over every edge. -/
def narrowAll (base : ν → Int × Int) (graph : Graph ν) (ranges : List (ν × Int × Int)) :
    List (ν × Int × Int) :=
  graph.foldl (fun ranges (a, row) => row.foldl (narrowEdge base a) ranges) ranges

/-- A bounded number of sweeps, stopped early when a sweep changes nothing. -/
def narrowLoop (base : ν → Int × Int) (graph : Graph ν) :
    Nat → List (ν × Int × Int) → List (ν × Int × Int)
  | 0, ranges => ranges
  | fuel + 1, ranges =>
    let next := narrowAll base graph ranges
    if next = ranges then ranges else narrowLoop base graph fuel next

/-- A valuation lies in every interval of a table. -/
def Contains (value : ν → Int) (ranges : List (ν × Int × Int)) : Prop :=
  ∀ node lo hi, (node, lo, hi) ∈ ranges → lo ≤ value node ∧ value node ≤ hi

/-- Updating an entry with an interval that contains the value keeps the table true. -/
theorem contains_assign {value : ν → Int} {ranges : List (ν × Int × Int)}
    (contains : Contains value ranges)
    {node : ν} {lo hi : Int} (low : lo ≤ value node) (high : value node ≤ hi) :
    Contains value (assign node (lo, hi) ranges) := by
  intro other otherLo otherHi member
  rcases mem_assign member with fresh | kept
  · cases fresh
    exact ⟨low, high⟩
  · exact contains _ _ _ kept

variable {value : ν → Int} {base : ν → Int × Int}
  (inBase : ∀ node, (base node).1 ≤ value node ∧ value node ≤ (base node).2)

include inBase

/-- A looked-up interval contains the value. -/
theorem contains_rangeOf {ranges : List (ν × Int × Int)} (contains : Contains value ranges)
    (node : ν) :
    (rangeOf base ranges node).1 ≤ value node ∧ value node ≤ (rangeOf base ranges node).2 := by
  unfold rangeOf
  cases found : ranges.lookup node with
  | none => exact inBase node
  | some range => exact contains node range.1 range.2 (mem_of_lookup found)

/-- Narrowing along a true edge keeps the table true. -/
theorem contains_narrowEdge {ranges : List (ν × Int × Int)} (contains : Contains value ranges)
    {origin : ν} {edge : ν × Int} (edgeTrue : value origin ≤ value edge.1 + edge.2) :
    Contains value (narrowEdge base origin ranges edge) := by
  have source := contains_rangeOf inBase contains origin
  have target := contains_rangeOf inBase contains edge.1
  unfold narrowEdge
  have first : Contains value
      (if min (rangeOf base ranges origin).2 ((rangeOf base ranges edge.1).2 + edge.2) <
          (rangeOf base ranges origin).2 then
        assign origin ((rangeOf base ranges origin).1,
          min (rangeOf base ranges origin).2
            ((rangeOf base ranges edge.1).2 + edge.2)) ranges
      else ranges) := by
    split
    · exact contains_assign contains source.1 (by omega)
    · exact contains
  simp only
  split
  · exact contains_assign first (by omega) (contains_rangeOf inBase first edge.1).2
  · exact first

/-- A sweep over a satisfied graph keeps the table true. -/
theorem contains_narrowAll (graph : Graph ν) (sat : Sat value graph)
    {ranges : List (ν × Int × Int)} (contains : Contains value ranges) :
    Contains value (narrowAll base graph ranges) := by
  have rowKeeps : ∀ (a : ν) (row : List (ν × Int)) (ranges : List (ν × Int × Int)),
      (∀ b c, (b, c) ∈ row → value a ≤ value b + c) → Contains value ranges →
        Contains value (row.foldl (narrowEdge base a) ranges) := by
    intro a row
    induction row with
    | nil => exact fun _ _ contains => contains
    | cons edge rest induct =>
      intro ranges rowTrue contains
      exact induct _ (fun b c member => rowTrue b c (List.mem_cons_of_mem _ member))
        (contains_narrowEdge inBase contains (rowTrue edge.1 edge.2 List.mem_cons_self))
  induction graph generalizing ranges with
  | nil => exact contains
  | cons head rest induct =>
    obtain ⟨a, row⟩ := head
    simp only [narrowAll, List.foldl_cons]
    exact induct (fun a row member => sat a row (List.mem_cons_of_mem _ member))
      (rowKeeps a row ranges (sat a row List.mem_cons_self) contains)

/-- Any number of sweeps over a satisfied graph keeps the table true. -/
theorem contains_narrowLoop (graph : Graph ν) (sat : Sat value graph) (fuel : Nat)
    {ranges : List (ν × Int × Int)} (contains : Contains value ranges) :
    Contains value (narrowLoop base graph fuel ranges) := by
  induction fuel generalizing ranges with
  | zero => exact contains
  | succ fuel induct =>
    unfold narrowLoop
    have next := contains_narrowAll inBase graph sat contains
    simp only
    split
    · exact contains
    · exact induct next

end Intervals

end DiffGraph
