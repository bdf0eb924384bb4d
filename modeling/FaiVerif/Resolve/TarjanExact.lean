import FaiVerif.Lib.Components
import FaiVerif.Resolve.Tarjan

/-!
# The components are exact

A node is white before it has a number, gray while its edges are followed, and black afterwards. The
invariant is about the stack: nodes with smaller numbers reach those with larger ones, and every
node on it reaches a gray node with a number that is not larger.
-/

namespace Fai.Resolve.Tarjan

open Components Function

variable {α : Type} [DecidableEq α]

/-- A node has a number. -/
def Visited (t : Tarjan α) (x : α) : Prop := (t.indices x).isSome = true

/-- The number of a visited node. -/
def number (t : Tarjan α) (x : α) : Nat := (t.indices x).getD 0

/-- What holds while the edges of gray nodes are followed. -/
structure Formed (edges : α → List α) (nodes : List α) (gray : α → Prop) (t : Tarjan α) : Prop where
  /-- The flags tell what is on the stack. -/
  flags : ∀ x, t.onStack x = true ↔ x ∈ t.stack
  /-- Visited nodes are on the stack or in a component. -/
  visited : ∀ x, t.Visited x ↔ x ∈ t.stack ∨ x ∈ t.components.flatten
  /-- They are nodes of the graph. -/
  inside : ∀ x, t.Visited x → x ∈ nodes
  /-- They are not in both places. -/
  apart : ∀ x ∈ t.stack, x ∉ t.components.flatten
  /-- Gray nodes are on the stack. -/
  grays : ∀ g, gray g → g ∈ t.stack
  /-- Numbers descend along the stack. -/
  descending : t.stack.Pairwise fun x y => t.number y < t.number x
  /-- Numbers are below the next one. -/
  bounded : ∀ x ∈ t.stack, t.number x < t.index
  /-- No node is in two components. -/
  distinct : t.components.flatten.Nodup
  /-- Components have nodes. -/
  nonempty : ∀ c ∈ t.components, c ≠ []
  /-- Components are classes. -/
  strong : ∀ c ∈ t.components, ∀ x ∈ c, ∀ y, y ∈ c ↔ Strong edges x y
  /-- Edges do not leave the complete components. -/
  closed : ∀ x ∈ t.components.flatten, ∀ y ∈ edges x, y ∈ t.components.flatten
  /-- Nodes on the stack reach those with larger numbers. -/
  down : ∀ x ∈ t.stack, ∀ y ∈ t.stack, t.number x ≤ t.number y → Reach edges x y
  /-- Nodes on the stack reach a gray one whose number is not larger. -/
  up : ∀ y ∈ t.stack, ∃ g, gray g ∧ g ∈ t.stack ∧ t.number g ≤ t.number y ∧ Reach edges y g
  /-- Black nodes have no edge to a white one. -/
  black : ∀ x, t.Visited x → ¬ gray x → ∀ y ∈ edges x, t.Visited y

/-- What following all edges of a node comes to. -/
structure Connected (edges : α → List α) (v : α) (before after : Tarjan α) : Prop where
  /-- Visited nodes keep their numbers. -/
  numbers : ∀ x, before.Visited x → after.indices x = before.indices x
  /-- They keep their links. -/
  links : ∀ x, before.Visited x → after.lowlink x = before.lowlink x
  /-- The node has the next number. -/
  number : after.indices v = some before.index
  /-- The stack may have new nodes, and the link of the node bounds what they see below them. -/
  low : ∃ new low, after.stack = new ++ before.stack ∧ after.lowlink v = some low ∧
    (low = before.index ∨ ∃ w ∈ before.stack, Reach edges v w ∧ before.number w = low) ∧
    ∀ x ∈ new, ¬ before.Visited x ∧ ∀ y ∈ edges x, y ∈ before.stack → low ≤ before.number y

/-- What holds while the edges of a node are followed, some of them done. -/
structure Scanned (edges : α → List α) (nodes : List α) (gray : α → Prop) (v : α)
    (before : Tarjan α) (done : List α) (t : Tarjan α) : Prop where
  /-- The invariant, with the node gray. -/
  formed : Formed edges nodes (fun x => x = v ∨ gray x) t
  /-- Visited nodes keep their numbers. -/
  numbers : ∀ x, before.Visited x → t.indices x = before.indices x
  /-- They keep their links. -/
  links : ∀ x, before.Visited x → t.lowlink x = before.lowlink x
  /-- The node has the next number. -/
  number : t.indices v = some before.index
  /-- The targets of the edges that are done are visited. -/
  seen : ∀ y ∈ done, t.Visited y
  /-- The link of the node is the number of a node that it reaches, and bounds what is seen. -/
  low : ∃ above low, t.stack = above ++ v :: before.stack ∧ t.lowlink v = some low ∧
    low ≤ before.index ∧ (∃ w ∈ t.stack, Reach edges v w ∧ t.number w = low) ∧
    (∀ y ∈ done, y ∈ before.stack → low ≤ before.number y) ∧
    ∀ x ∈ above, ¬ before.Visited x ∧ ∀ y ∈ edges x, y ∈ before.stack → low ≤ before.number y

omit [DecidableEq α] in
/-- A node with a number. -/
theorem visited_of_eq {t : Tarjan α} {x : α} {i : Nat} (has : t.indices x = some i) :
    t.Visited x := by
  rw [Visited, has]
  rfl

omit [DecidableEq α] in
/-- The number of a node. -/
theorem number_of_eq {t : Tarjan α} {x : α} {i : Nat} (has : t.indices x = some i) :
    t.number x = i := by
  rw [Tarjan.number, has]
  rfl

omit [DecidableEq α] in
/-- A white node. -/
theorem not_visited_iff {t : Tarjan α} {x : α} : ¬ t.Visited x ↔ t.indices x = none := by
  rw [Visited, Bool.not_eq_true, Option.isSome_eq_false_iff, Option.isNone_iff_eq_none]

variable {edges : α → List α} {nodes : List α} {gray : α → Prop} {t : Tarjan α}

omit [DecidableEq α] in
/-- Links do not matter for the invariant. -/
theorem Formed.congr_lowlink (formed : Formed edges nodes gray t) (lowlink : α → Option Nat) :
    Formed edges nodes gray { t with lowlink } :=
  ⟨formed.flags, formed.visited, formed.inside, formed.apart, formed.grays, formed.descending,
    formed.bounded, formed.distinct, formed.nonempty, formed.strong, formed.closed,
    formed.down, formed.up, formed.black⟩

section Discover

/-- Numbering a node keeps the other numbers. -/
theorem discover_indices_of_ne {v x : α} (differ : x ≠ v) :
    (t.discover v).indices x = t.indices x := update_of_ne differ _ _

/-- A numbered node. -/
theorem discover_indices (v : α) : (t.discover v).indices v = some t.index := update_self _ _ _

/-- Numbering a white node keeps what is visited. -/
theorem discover_numbers {v x : α} (white : ¬ t.Visited v) (visited : t.Visited x) :
    (t.discover v).indices x = t.indices x := by
  refine discover_indices_of_ne ?_
  rintro rfl
  exact white visited

/-- The nodes that are visited after one is numbered. -/
theorem visited_discover {v x : α} : (t.discover v).Visited x ↔ x = v ∨ t.Visited x := by
  by_cases same : x = v
  · subst same
    exact ⟨fun _ => .inl rfl, fun _ => visited_of_eq (discover_indices x)⟩
  · rw [Visited, discover_indices_of_ne same, Visited]
    simp [same]

/-- A numbered node is gray. -/
theorem Formed.discover {v : α} (formed : Formed edges nodes gray t) (white : ¬ t.Visited v)
    (node : v ∈ nodes) (reached : ∀ g, gray g → Reach edges g v) :
    Formed edges nodes (fun x => x = v ∨ gray x) (t.discover v) := by
  have numbers {x : α} (member : x ∈ t.stack) : (t.discover v).number x = t.number x := by
    rw [Tarjan.number, discover_numbers white ((formed.visited x).mpr (.inl member)),
      Tarjan.number]
  have next : (t.discover v).number v = t.index := number_of_eq (discover_indices v)
  have outside : v ∉ t.components.flatten := fun member =>
    white ((formed.visited v).mpr (.inr member))
  have fresh : v ∉ t.stack := fun member => white ((formed.visited v).mpr (.inl member))
  refine ⟨fun x => ?_, fun x => ?_, fun x visited => ?_, fun x member => ?_, fun g isGray => ?_, ?_,
    fun x member => ?_, formed.distinct, formed.nonempty, formed.strong, formed.closed,
    fun x member y member' less => ?_,
    fun y member => ?_, fun x visited black y edge => ?_⟩
  · by_cases same : x = v
    · subst same
      simp [Tarjan.discover]
    · simp [Tarjan.discover, same, formed.flags]
  · rw [visited_discover, formed.visited]
    simp [Tarjan.discover, or_assoc]
  · rcases visited_discover.mp visited with rfl | visited
    · exact node
    · exact formed.inside x visited
  · rcases List.mem_cons.mp member with rfl | member
    · exact outside
    · exact formed.apart x member
  · rcases isGray with rfl | isGray
    · exact List.mem_cons_self
    · exact List.mem_cons_of_mem v (formed.grays g isGray)
  · refine List.pairwise_cons.mpr ⟨fun x member => ?_, formed.descending.imp_of_mem ?_⟩
    · rw [next, numbers member]
      exact formed.bounded x member
    · intro x y member member' less
      rwa [numbers member, numbers member']
  · rcases List.mem_cons.mp member with rfl | member
    · rw [next]
      exact Nat.lt_succ_self _
    · rw [numbers member]
      exact Nat.lt_trans (formed.bounded x member) (Nat.lt_succ_self _)
  · rcases List.mem_cons.mp member with rfl | below
    · rcases List.mem_cons.mp member' with rfl | member'
      · exact .refl
      · have bounded := formed.bounded y member'
        rw [next, numbers member'] at less
        omega
    · rcases List.mem_cons.mp member' with rfl | member'
      · obtain ⟨g, isGray, -, -, reach⟩ := formed.up x below
        exact reach.trans (reached g isGray)
      · rw [numbers below, numbers member'] at less
        exact formed.down x below y member' less
  · rcases List.mem_cons.mp member with rfl | older
    · exact ⟨y, .inl rfl, List.mem_cons_self, Nat.le_refl _, .refl⟩
    · obtain ⟨g, isGray, onStack, less, reach⟩ := formed.up y older
      refine ⟨g, .inr isGray, List.mem_cons_of_mem v onStack, ?_, reach⟩
      rwa [numbers onStack, numbers older]
  · rcases visited_discover.mp visited with same | visited
    · exact absurd (.inl same) black
    · exact visited_discover.mpr (.inr (formed.black x visited (fun isGray => black (.inr isGray)) y
        edge))

/-- Before any edge is followed. -/
theorem Scanned.start {v : α} (formed : Formed edges nodes gray t) (white : ¬ t.Visited v)
    (node : v ∈ nodes) (reached : ∀ g, gray g → Reach edges g v) :
    Scanned edges nodes gray v t [] (t.discover v) where
  formed := formed.discover white node reached
  numbers x visited := discover_numbers white visited
  links x visited := by
    refine update_of_ne ?_ _ _
    rintro rfl
    exact white visited
  number := discover_indices v
  seen y member := absurd member List.not_mem_nil
  low := by
    refine ⟨[], t.index, rfl, update_self _ _ _, Nat.le_refl _, ⟨v, List.mem_cons_self, .refl,
      number_of_eq (discover_indices v)⟩, ?_, ?_⟩
    · exact fun y member => absurd member List.not_mem_nil
    · exact fun x member => absurd member List.not_mem_nil

end Discover

section Follow

variable {v w : α} {before after : Tarjan α} {done : List α}

omit [DecidableEq α] in
/-- Nodes visited at the start are visited. -/
theorem Scanned.visited (scanned : Scanned edges nodes gray v before done t) {x : α}
    (visited : before.Visited x) : t.Visited x := by
  rw [Visited, scanned.numbers x visited]
  exact visited

omit [DecidableEq α] in
/-- They have the numbers that they had. -/
theorem Scanned.number_eq (scanned : Scanned edges nodes gray v before done t) {x : α}
    (visited : before.Visited x) : t.number x = before.number x := by
  rw [Tarjan.number, scanned.numbers x visited, Tarjan.number]

/-- Following an edge to a node that is visited, when the link is lowered to its number if it is on
the stack. -/
theorem Scanned.follow_visited (scanned : Scanned edges nodes gray v before done t)
    (formed : Formed edges nodes gray before) (white : ¬ before.Visited v) (edge : w ∈ edges v)
    (visited : t.Visited w) (connect : α → Tarjan α → Option (Tarjan α)) :
    ∃ t', follow connect v t w = some t' ∧ t'.indices = t.indices ∧
      Scanned edges nodes gray v before (done ++ [w]) t' := by
  obtain ⟨above, low, stack, link, most, ⟨u, member, reach, number⟩, bound, bound'⟩ := scanned.low
  have numbered : t.indices w ≠ none := fun no => not_visited_iff.mpr no visited
  have seen : ∀ y ∈ done ++ [w], t.Visited y := by
    intro y member
    rcases List.mem_append.mp member with earlier | last
    · exact scanned.seen y earlier
    · rwa [List.mem_singleton.mp last]
  rw [follow, if_neg numbered]
  by_cases onStack : t.onStack w = true
  · have stacked := (scanned.formed.flags w).mp onStack
    obtain ⟨idx, has⟩ := Option.isSome_iff_exists.mp visited
    rw [if_pos onStack, has]
    refine ⟨{ t with lowlink := update t.lowlink v (some (min low idx)) }, by
      simp [lower, link], rfl, ?_⟩
    refine ⟨scanned.formed.congr_lowlink _, scanned.numbers, fun x visited => ?_, scanned.number,
      seen, above, min low idx, stack, update_self _ _ _, by omega, ?_, ?_, ?_⟩
    · rw [← scanned.links x visited]
      refine update_of_ne ?_ _ _
      rintro rfl
      exact white visited
    · by_cases less : low ≤ idx
      · exact ⟨u, member, reach, by rw [Nat.min_eq_left less]; exact number⟩
      · refine ⟨w, stacked, .single edge, ?_⟩
        rw [Nat.min_eq_right (by omega)]
        exact number_of_eq has
    · intro y member below
      rcases List.mem_append.mp member with earlier | last
      · exact Nat.le_trans (Nat.min_le_left _ _) (bound y earlier below)
      · obtain rfl := List.mem_singleton.mp last
        have same := scanned.number_eq ((formed.visited y).mpr (.inl below))
        rw [number_of_eq has] at same
        rw [← same]
        exact Nat.min_le_right _ _
    · exact fun x member => ⟨(bound' x member).1, fun y edge below =>
        Nat.le_trans (Nat.min_le_left _ _) ((bound' x member).2 y edge below)⟩
  · rw [if_neg onStack]
    refine ⟨t, rfl, rfl, scanned.formed, scanned.numbers, scanned.links,
      scanned.number, seen, above, low, stack, link, most, ⟨u, member, reach, number⟩,
      fun y member below => ?_, bound'⟩
    rcases List.mem_append.mp member with earlier | last
    · exact bound y earlier below
    · obtain rfl := List.mem_singleton.mp last
      refine absurd ((scanned.formed.flags y).mpr ?_) onStack
      rw [stack]
      exact List.mem_append_right above (List.mem_cons_of_mem v below)

/-- Following an edge to a white node, when its own edges are followed first. -/
theorem Scanned.follow_white (scanned : Scanned edges nodes gray v before done t)
    (formed : Formed edges nodes gray before) (white : ¬ before.Visited v) (edge : w ∈ edges v)
    (fresh : ¬ t.Visited w) {connect : α → Tarjan α → Option (Tarjan α)}
    (call : connect w t = some after)
    (formed' : Formed edges nodes (fun x => x = v ∨ gray x) after)
    (connected : Connected edges w t after) :
    ∃ t', follow connect v t w = some t' ∧ t'.indices = after.indices ∧
      Scanned edges nodes gray v before (done ++ [w]) t' := by
  obtain ⟨above, low, stack, link, most, ⟨u, member, reach, number⟩, bound, bound'⟩ := scanned.low
  obtain ⟨new, lowW, stack', link', source, bound''⟩ := connected.low
  have gray' : t.Visited v := visited_of_eq scanned.number
  have linkV : after.lowlink v = some low := (connected.links v gray').trans link
  have numbers {x : α} (visited : t.Visited x) : after.number x = t.number x := by
    rw [Tarjan.number, connected.numbers x visited, Tarjan.number]
  have later {x : α} (visited : t.Visited x) : after.Visited x := by
    rw [Visited, connected.numbers x visited]
    exact visited
  have stacked {x : α} (member : x ∈ t.stack) : t.Visited x :=
    (scanned.formed.visited x).mpr (.inl member)
  have older {y : α} (below : y ∈ before.stack) : y ∈ t.stack := by
    rw [stack]
    exact List.mem_append_right above (List.mem_cons_of_mem v below)
  have kept {y : α} (below : y ∈ before.stack) : t.number y = before.number y :=
    scanned.number_eq ((formed.visited y).mpr (.inl below))
  rw [follow, if_pos (not_visited_iff.mp fresh), call]
  refine ⟨{ after with lowlink := update after.lowlink v (some (min low lowW)) }, by
    simp [lower, link', linkV], rfl, ?_⟩
  refine ⟨formed'.congr_lowlink _, fun x visited => ?_, fun x visited => ?_, ?_, fun y member => ?_,
    new ++ above, min low lowW, ?_, update_self _ _ _, by omega, ?_, ?_, ?_⟩
  · exact (connected.numbers x (scanned.visited visited)).trans (scanned.numbers x visited)
  · rw [← scanned.links x visited, ← connected.links x (scanned.visited visited)]
    refine update_of_ne ?_ _ _
    rintro rfl
    exact white visited
  · exact (connected.numbers v gray').trans scanned.number
  · rcases List.mem_append.mp member with earlier | last
    · exact later (scanned.seen y earlier)
    · rw [List.mem_singleton.mp last]
      exact visited_of_eq connected.number
  · rw [List.append_assoc, ← stack]
    exact stack'
  · have old : u ∈ after.stack := by
      rw [stack']
      exact List.mem_append_right new member
    by_cases less : low ≤ lowW
    · refine ⟨u, old, reach, ?_⟩
      rw [Nat.min_eq_left less]
      exact (numbers (stacked member)).trans number
    · rcases source with popped | ⟨x, member', reach', number'⟩
      · -- the link of a popped node is its own number, which is larger than that of any gray node
        have bounded := scanned.formed.bounded u member
        omega
      · refine ⟨x, ?_, reach'.head edge, ?_⟩
        · show x ∈ after.stack
          rw [stack']
          exact List.mem_append_right new member'
        · rw [Nat.min_eq_right (by omega)]
          exact (numbers (stacked member')).trans number'
  · intro y member below
    rcases List.mem_append.mp member with earlier | last
    · exact Nat.le_trans (Nat.min_le_left _ _) (bound y earlier below)
    · obtain rfl := List.mem_singleton.mp last
      exact absurd (stacked (older below)) fresh
  · intro x member
    rcases List.mem_append.mp member with first | second
    · refine ⟨fun visited => (bound'' x first).1 (scanned.visited visited), fun y edge below => ?_⟩
      rw [← kept below]
      exact Nat.le_trans (Nat.min_le_right _ _) ((bound'' x first).2 y edge (older below))
    · exact ⟨(bound' x second).1, fun y edge below =>
        Nat.le_trans (Nat.min_le_left _ _) ((bound' x second).2 y edge below)⟩

end Follow

section Finish

variable {v : α} {before : Tarjan α}

/-- Popping up to a node that is on the stack once. -/
theorem popComponent_eq {above : List α} (below component : List α) (onStack : α → Bool)
    (fresh : v ∉ above) : ∃ onStack', popComponent v (above ++ v :: below) onStack component =
        some (below, onStack', component ++ above ++ [v]) ∧
      ∀ x, onStack' x = true ↔ onStack x = true ∧ x ∉ above ++ [v] := by
  induction above generalizing onStack component with
  | nil =>
    refine ⟨update onStack v false, by simp [popComponent], fun x => ?_⟩
    by_cases same : x = v
    · subst same
      simp
    · simp [same]
  | cons w above hypothesis =>
    have differ : w ≠ v := fun same => fresh (same ▸ List.mem_cons_self)
    obtain ⟨onStack', popped, flags⟩ := hypothesis (component ++ [w]) (update onStack w false)
      fun member => fresh (List.mem_cons_of_mem w member)
    refine ⟨onStack', ?_, fun x => ?_⟩
    · rw [List.cons_append, popComponent, if_neg differ, popped]
      simp
    · rw [flags]
      by_cases same : x = w
      · subst same
        simp
      · simp [same]

omit [DecidableEq α] in
/-- The nodes above one on the stack have larger numbers. -/
theorem number_le_of_mem {t : Tarjan α} {above below : List α}
    (descending : t.stack.Pairwise fun x y => t.number y < t.number x)
    (stack : t.stack = above ++ v :: below) {x : α} (member : x ∈ above ++ [v]) :
    t.number v ≤ t.number x := by
  rw [stack, List.pairwise_append] at descending
  rcases List.mem_append.mp member with first | last
  · exact Nat.le_of_lt (descending.2.2 x first v List.mem_cons_self)
  · exact Nat.le_of_eq (congrArg t.number (List.mem_singleton.mp last).symm)

omit [DecidableEq α] in
/-- The nodes below one on the stack have smaller numbers. -/
theorem number_lt_of_mem {t : Tarjan α} {above below : List α}
    (descending : t.stack.Pairwise fun x y => t.number y < t.number x)
    (stack : t.stack = above ++ v :: below) {x : α} (member : x ∈ below) :
    t.number x < t.number v := by
  rw [stack, List.pairwise_append] at descending
  exact List.rel_of_pairwise_cons descending.2.1 member

omit [DecidableEq α] in
/-- The component of a node whose link is its number: what is above it on the stack. -/
theorem Scanned.component (scanned : Scanned edges nodes gray v before (edges v) t)
    (formed : Formed edges nodes gray before) (reached : ∀ g, gray g → Reach edges g v)
    {above : List α} (stack : t.stack = above ++ v :: before.stack)
    (fresh : ∀ x ∈ above, ¬ before.Visited x)
    (inner : ∀ x ∈ above ++ [v], ∀ y ∈ edges x, y ∉ before.stack) :
    (∀ x ∈ above ++ [v], ∀ y ∈ edges x, y ∈ above ++ [v] ∨ y ∈ t.components.flatten) ∧
      ∀ x ∈ above ++ [v], ∀ y, y ∈ above ++ [v] ↔ Strong edges x y := by
  have formed' := scanned.formed
  have mem_stack {x : α} : x ∈ t.stack ↔ x ∈ above ++ [v] ∨ x ∈ before.stack := by
    rw [stack]
    simp [or_assoc]
  have edge_inner : ∀ x ∈ above ++ [v], ∀ y ∈ edges x,
      y ∈ above ++ [v] ∨ y ∈ t.components.flatten := by
    intro x member y edge
    have visited : t.Visited y := by
      rcases List.mem_append.mp member with first | last
      · refine formed'.black x ((formed'.visited x).mpr (.inl (mem_stack.mpr (.inl member)))) ?_ y
          edge
        rintro (rfl | isGray)
        · have descending := formed'.descending
          rw [stack, List.pairwise_append] at descending
          exact Nat.lt_irrefl _ (descending.2.2 x first x List.mem_cons_self)
        · exact fresh x first ((formed.visited x).mpr (.inl (formed.grays x isGray)))
      · rw [List.mem_singleton.mp last] at edge
        exact scanned.seen y edge
    rcases (formed'.visited y).mp visited with onStack | complete
    · exact .inl ((mem_stack.mp onStack).resolve_right (inner x member y edge))
    · exact .inr complete
  have ascends {x : α} (member : x ∈ above ++ [v]) : Reach edges v x :=
    formed'.down v (mem_stack.mpr (.inl (List.mem_append_right above List.mem_cons_self))) x
      (mem_stack.mpr (.inl member)) (number_le_of_mem formed'.descending stack member)
  have descends {x : α} (member : x ∈ above ++ [v]) : Reach edges x v := by
    obtain ⟨g, isGray, -, -, reach⟩ := formed'.up x (mem_stack.mpr (.inl member))
    rcases isGray with rfl | isGray
    · exact reach
    · exact reach.trans (reached g isGray)
  refine ⟨edge_inner, fun x member y => ⟨fun member' => ?_, fun strong => ?_⟩⟩
  · exact ⟨(descends member).trans (ascends member'), (descends member').trans (ascends member)⟩
  · have keeps : ∀ z, z ∈ above ++ [v] ∨ z ∈ t.components.flatten → ∀ w ∈ edges z,
        w ∈ above ++ [v] ∨ w ∈ t.components.flatten := by
      intro z inside w edge
      rcases inside with among | complete
      · exact edge_inner z among w edge
      · exact .inr (formed'.closed z complete w edge)
    have there : y ∈ above ++ [v] ∨ y ∈ t.components.flatten :=
      strong.1.closed keeps (.inl member)
    refine there.resolve_right fun complete => ?_
    exact formed'.apart x (mem_stack.mpr (.inl member)) (strong.2.closed formed'.closed complete)

/-- A node whose link is smaller than its number stays on the stack. -/
theorem Scanned.stay (scanned : Scanned edges nodes gray v before (edges v) t) {low : Nat} {w : α}
    (less : low < before.index)
    (member : w ∈ t.stack) (reach : Reach edges v w) (number : t.number w = low) :
    Formed edges nodes gray t := by
  have formed' := scanned.formed
  have numbered : t.number v = before.index := number_of_eq scanned.number
  have kept : ∀ g, gray g → _ := fun g isGray => formed'.grays g (.inr isGray)
  refine { formed' with grays := kept, up := ?_, black := ?_ }
  · intro y member'
    obtain ⟨g, isGray, onStack, small, reach'⟩ := formed'.up y member'
    rcases isGray with rfl | isGray
    · obtain ⟨h, isGray, onStack', small', reach''⟩ := formed'.up w member
      refine ⟨h, isGray.resolve_left ?_, onStack', by omega, reach'.trans (reach.trans reach'')⟩
      rintro rfl
      omega
    · exact ⟨g, isGray, onStack, small, reach'⟩
  · intro x visited white y edge
    by_cases same : x = v
    · exact scanned.seen y (same ▸ edge)
    · exact formed'.black x visited (fun either => either.elim same white) y edge

/-- A complete component is popped. -/
theorem Scanned.pop (scanned : Scanned edges nodes gray v before (edges v) t)
    (formed : Formed edges nodes gray before) (reached : ∀ g, gray g → Reach edges g v)
    {above : List α} (stack : t.stack = above ++ v :: before.stack)
    (fresh : ∀ x ∈ above, ¬ before.Visited x)
    (inner : ∀ x ∈ above ++ [v], ∀ y ∈ edges x, y ∉ before.stack) {onStack : α → Bool}
    (flags : ∀ x, onStack x = true ↔ t.onStack x = true ∧ x ∉ above ++ [v]) :
    Formed edges nodes gray { t with
      stack := before.stack, onStack, components := t.components ++ [above ++ [v]] } := by
  have formed' := scanned.formed
  obtain ⟨edge_inner, classes⟩ := scanned.component formed reached stack fresh inner
  have mem_stack {x : α} : x ∈ t.stack ↔ x ∈ above ++ [v] ∨ x ∈ before.stack := by
    rw [stack]
    simp [or_assoc]
  have flatten : (t.components ++ [above ++ [v]]).flatten =
      t.components.flatten ++ (above ++ [v]) := by
    rw [List.flatten_append, List.flatten_singleton]
  have older {x : α} (member : x ∈ before.stack) : x ∉ above ++ [v] := fun member' => by
    have small := number_lt_of_mem formed'.descending stack member
    have large := number_le_of_mem formed'.descending stack member'
    omega
  have distinct : (above ++ [v]).Nodup := by
    have all : t.stack.Nodup := formed'.descending.imp fun less same => by
      subst same
      exact Nat.lt_irrefl _ less
    rw [stack, ← List.singleton_append, ← List.append_assoc] at all
    exact (List.nodup_append.mp all).1
  refine ⟨fun x => ?_, fun x => ?_, formed'.inside, fun x member => ?_, formed.grays, ?_,
    fun x member => formed'.bounded x (mem_stack.mpr (.inr member)), ?_, fun c member => ?_,
    fun c member => ?_, fun x member y edge => ?_, fun x member y member' less => ?_,
    fun y member => ?_, fun x visited white y edge => ?_⟩
  · rw [flags, formed'.flags, mem_stack]
    exact ⟨fun both => both.1.resolve_left both.2, fun member => ⟨.inr member, older member⟩⟩
  · have same : Visited { t with
        stack := before.stack, onStack, components := t.components ++ [above ++ [v]] } x ↔
      t.Visited x := Iff.rfl
    rw [same, formed'.visited, mem_stack, flatten, @List.mem_append _ x t.components.flatten]
    exact ⟨fun either => either.elim (fun stacked => stacked.elim (fun among => .inr (.inr among))
      .inl) fun complete => .inr (.inl complete), fun either => either.elim
        (fun below => .inl (.inr below)) fun done => done.elim .inr fun among => .inl (.inl among)⟩
  · rw [flatten, List.mem_append]
    rintro (complete | among)
    · exact formed'.apart x (mem_stack.mpr (.inr member)) complete
    · exact older member among
  · have descending := formed'.descending
    rw [stack, List.pairwise_append] at descending
    exact descending.2.1.of_cons
  · rw [flatten, List.nodup_append]
    refine ⟨formed'.distinct, distinct, fun x complete y among same => ?_⟩
    subst same
    exact formed'.apart x (mem_stack.mpr (.inl among)) complete
  · rcases List.mem_append.mp member with earlier | last
    · exact formed'.nonempty c earlier
    · rw [List.mem_singleton.mp last]
      exact List.append_ne_nil_of_right_ne_nil above (List.cons_ne_nil v [])
  · rcases List.mem_append.mp member with earlier | last
    · exact formed'.strong c earlier
    · rw [List.mem_singleton.mp last]
      exact classes
  · rw [flatten, List.mem_append] at member ⊢
    rcases member with complete | among
    · exact .inl (formed'.closed x complete y edge)
    · exact (edge_inner x among y edge).symm
  · exact formed'.down x (mem_stack.mpr (.inr member)) y (mem_stack.mpr (.inr member')) less
  · obtain ⟨g, isGray, there, small, reach⟩ := formed'.up y (mem_stack.mpr (.inr member))
    have below := number_lt_of_mem formed'.descending stack member
    have differ : g ≠ v := by
      rintro rfl
      omega
    exact ⟨g, isGray.resolve_left differ, formed.grays g (isGray.resolve_left differ), small, reach⟩
  · by_cases same : x = v
    · exact scanned.seen y (same ▸ edge)
    · exact formed'.black x visited (fun either => either.elim same white) y edge

/-- When all edges of a node are followed, it is connected. -/
theorem Scanned.finish (scanned : Scanned edges nodes gray v before (edges v) t)
    (formed : Formed edges nodes gray before) (white : ¬ before.Visited v)
    (reached : ∀ g, gray g → Reach edges g v) :
    ∃ t', finish v t = some t' ∧ t'.indices = t.indices ∧ Formed edges nodes gray t' ∧
      Connected edges v before t' := by
  obtain ⟨above, low, stack, link, most, ⟨w, member, reach, number⟩, bound, bound'⟩ := scanned.low
  have numbered : t.number v = before.index := number_of_eq scanned.number
  have all : ∀ x ∈ above ++ [v], ∀ y ∈ edges x, y ∈ before.stack → low ≤ before.number y := by
    intro x member y edge
    rcases List.mem_append.mp member with first | last
    · exact (bound' x first).2 y edge
    · rw [List.mem_singleton.mp last] at edge
      exact bound y edge
  by_cases root : low = before.index
  · have outside : v ∉ above := fun inside => by
      have descending := scanned.formed.descending
      rw [stack, List.pairwise_append] at descending
      exact Nat.lt_irrefl _ (descending.2.2 v inside v List.mem_cons_self)
    obtain ⟨onStack, popped, flags⟩ :=
      popComponent_eq before.stack [] t.onStack outside
    rw [List.nil_append, ← stack] at popped
    refine ⟨{ t with
        stack := before.stack, onStack, components := t.components ++ [above ++ [v]] },
      by simp [Tarjan.finish, link, scanned.number, root, popped], rfl,
      scanned.pop formed reached stack (fun x member => (bound' x member).1) ?_ flags,
      scanned.numbers, scanned.links, scanned.number, [], low, rfl, link, .inl root,
      fun x member => absurd member List.not_mem_nil⟩
    intro x member y edge below
    have large := all x member y edge below
    have small := formed.bounded y below
    omega
  · have below : w ∈ before.stack := by
      rw [stack] at member
      rcases List.mem_append.mp member with first | later
      · have large := number_le_of_mem scanned.formed.descending stack
          (List.mem_append_left [v] first)
        omega
      · rcases List.mem_cons.mp later with rfl | below
        · omega
        · exact below
    refine ⟨t, by simp [Tarjan.finish, link, scanned.number, root], rfl,
      scanned.stay (by omega) member reach number, scanned.numbers, scanned.links,
      scanned.number, above ++ [v], low, by simp [stack], link, .inr ⟨w, ?_, reach, ?_⟩, ?_⟩
    · exact below
    · rw [← scanned.number_eq ((formed.visited w).mpr (.inl below))]
      exact number
    · intro x among
      refine ⟨?_, all x among⟩
      rcases List.mem_append.mp among with first | last
      · exact (bound' x first).1
      · rwa [List.mem_singleton.mp last]

end Finish

section Run

omit [DecidableEq α]

/-- The nodes without a number. -/
def unvisited (nodes : List α) (t : Tarjan α) : Nat := nodes.countP fun x => (t.indices x).isNone

/-- Visiting more leaves fewer. -/
theorem unvisited_le {t' : Tarjan α} (more : ∀ x, t.Visited x → t'.Visited x) :
    unvisited nodes t' ≤ unvisited nodes t := by
  refine List.countP_mono_left fun x _ white => ?_
  rw [Option.isNone_iff_eq_none, ← not_visited_iff] at white ⊢
  exact fun visited => white (more x visited)

/-- Visiting a node leaves fewer. -/
theorem unvisited_lt {t' : Tarjan α} {v : α} (more : ∀ x, t.Visited x → t'.Visited x)
    (white : ¬ t.Visited v) (visited : t'.Visited v) (node : v ∈ nodes) :
    unvisited nodes t' < unvisited nodes t := by
  obtain ⟨front, back, rfl⟩ := List.append_of_mem node
  have first : unvisited front t' ≤ unvisited front t := unvisited_le more
  have second : unvisited back t' ≤ unvisited back t := unvisited_le more
  have before : (t.indices v).isNone = true :=
    Option.isNone_iff_eq_none.mpr (not_visited_iff.mp white)
  have after : (t'.indices v).isNone = false := by
    rw [← Bool.not_eq_true, Option.isNone_iff_eq_none, ← not_visited_iff]
    exact fun no => no visited
  simp only [unvisited, List.countP_append, List.countP_cons, before, after] at first second ⊢
  simp
  omega

variable [DecidableEq α] {graph : α → Option (List α)}
  (inside : ∀ x ∈ nodes, ∀ y ∈ successors graph x, y ∈ nodes)

include inside

/-- Following all edges of a node, when nodes that are still white can be connected. -/
theorem follow_all {fuel : Nat} {v : α} {before : Tarjan α}
    (formed : Formed (successors graph) nodes gray before) (white : ¬ before.Visited v)
    (node : v ∈ nodes) (reached : ∀ g, gray g → Reach (successors graph) g v)
    (calls : ∀ w t, Formed (successors graph) nodes (fun x => x = v ∨ gray x) t →
      ¬ t.Visited w → w ∈ nodes →
      (∀ g, g = v ∨ gray g → Reach (successors graph) g w) → unvisited nodes t ≤ fuel →
        ∃ t', connect graph fuel w t = some t' ∧
          Formed (successors graph) nodes (fun x => x = v ∨ gray x) t' ∧
          Connected (successors graph) w t t') :
    ∀ (rest done : List α) (t : Tarjan α), done ++ rest = successors graph v →
      unvisited nodes t ≤ fuel → Scanned (successors graph) nodes gray v before done t →
        ∃ t', rest.foldlM (follow (connect graph fuel) v) t = some t' ∧
          Scanned (successors graph) nodes gray v before (successors graph v) t'
  | [], done, t, split, _, scanned => by
    rw [List.append_nil] at split
    exact ⟨t, rfl, split ▸ scanned⟩
  | w :: rest, done, t, split, enough, scanned => by
    have edge : w ∈ successors graph v := by
      rw [← split]
      exact List.mem_append_right done List.mem_cons_self
    have split' : (done ++ [w]) ++ rest = successors graph v := by
      rw [List.append_assoc, List.singleton_append, split]
    have step : ∃ t', follow (connect graph fuel) v t w = some t' ∧ unvisited nodes t' ≤ fuel ∧
        Scanned (successors graph) nodes gray v before (done ++ [w]) t' := by
      by_cases visited : t.Visited w
      · obtain ⟨t', followed, same, scanned'⟩ :=
          scanned.follow_visited formed white edge visited (connect graph fuel)
        refine ⟨t', followed, ?_, scanned'⟩
        rw [unvisited, same]
        exact enough
      · have onward : ∀ g, g = v ∨ gray g → Reach (successors graph) g w := by
          rintro g (rfl | isGray)
          · exact .single edge
          · exact (reached g isGray).tail edge
        obtain ⟨after, call, formed', connected⟩ :=
          calls w t scanned.formed visited (inside v node w edge) onward enough
        obtain ⟨t', followed, same, scanned'⟩ :=
          scanned.follow_white formed white edge visited call formed' connected
        refine ⟨t', followed, Nat.le_trans (unvisited_le fun x seen => ?_) enough, scanned'⟩
        rw [Visited, same, connected.numbers x seen]
        exact seen
    obtain ⟨t', followed, enough', scanned'⟩ := step
    obtain ⟨final, run, complete⟩ := follow_all formed white node reached calls rest
      (done ++ [w]) t' split' enough' scanned'
    refine ⟨final, ?_, complete⟩
    rw [List.foldlM_cons, followed]
    exact run

/-- Connecting a white node returns and keeps the invariant. -/
theorem connect_spec : ∀ (fuel : Nat) (v : α) (t : Tarjan α) (gray : α → Prop),
    Formed (successors graph) nodes gray t → ¬ t.Visited v → v ∈ nodes →
    (∀ g, gray g → Reach (successors graph) g v) → unvisited nodes t ≤ fuel →
      ∃ t', connect graph fuel v t = some t' ∧ Formed (successors graph) nodes gray t' ∧
        Connected (successors graph) v t t'
  | 0, v, t, gray, formed, white, node, _, enough => by
    have more := unvisited_lt (fun x seen => visited_discover.mpr (.inr seen)) white
      (visited_discover.mpr (.inl rfl)) node
    omega
  | fuel + 1, v, t, gray, formed, white, node, reached, enough => by
    have less : unvisited nodes (t.discover v) < unvisited nodes t :=
      unvisited_lt (fun x seen => visited_discover.mpr (.inr seen)) white
        (visited_discover.mpr (.inl rfl)) node
    obtain ⟨scan, run, scanned⟩ := follow_all inside formed white node reached
      (fun w t formed white node reached enough =>
        connect_spec fuel w t _ formed white node reached enough)
      (successors graph v) [] (t.discover v) rfl (by omega)
      (.start formed white node reached)
    obtain ⟨final, finished, -, formed', connected⟩ := scanned.finish formed white reached
    refine ⟨final, ?_, formed', connected⟩
    rw [connect, run]
    exact finished

/-- Visiting nodes one after another visits all of them. -/
theorem visit_all {fuel : Nat} (enough : nodes.length ≤ fuel) : ∀ (rest : List α) (t : Tarjan α),
    (∀ x ∈ rest, x ∈ nodes) → Formed (successors graph) nodes (fun _ => False) t →
      ∃ t', rest.foldlM (visit graph fuel) t = some t' ∧
        Formed (successors graph) nodes (fun _ => False) t' ∧
        ∀ x, x ∈ rest ∨ t.Visited x → t'.Visited x
  | [], t, _, formed => ⟨t, rfl, formed, fun x either =>
      either.resolve_left fun member => absurd member List.not_mem_nil⟩
  | w :: rest, t, among, formed => by
    have step : ∃ t', visit graph fuel t w = some t' ∧
        Formed (successors graph) nodes (fun _ => False) t' ∧
        t'.Visited w ∧ ∀ x, t.Visited x → t'.Visited x := by
      by_cases visited : t.Visited w
      · refine ⟨t, ?_, formed, visited, fun _ => id⟩
        rw [visit, if_neg fun no => not_visited_iff.mpr no visited]
        rfl
      · have bounded : unvisited nodes t ≤ fuel := Nat.le_trans List.countP_le_length enough
        obtain ⟨t', run, formed', connected⟩ := connect_spec inside fuel w t _ formed visited
          (among w List.mem_cons_self) (fun g no => absurd no id) bounded
        refine ⟨t', ?_, formed', visited_of_eq connected.number, fun x seen => ?_⟩
        · rw [visit, if_pos (not_visited_iff.mp visited), run]
        · rw [Visited, connected.numbers x seen]
          exact seen
    obtain ⟨t', run, formed', visited, more⟩ := step
    obtain ⟨final, run', formed'', all⟩ := visit_all enough rest t'
      (fun x member => among x (List.mem_cons_of_mem w member)) formed'
    refine ⟨final, ?_, formed'', fun x either => all x ?_⟩
    · rw [List.foldlM_cons, run]
      exact run'
    · rcases either with member | seen
      · rcases List.mem_cons.mp member with rfl | later
        · exact .inr visited
        · exact .inl later
      · exact .inr (more x seen)

omit [DecidableEq α] inside in
/-- Nothing is visited at the start. -/
theorem Formed.new : Formed edges nodes (fun _ => False) (new : Tarjan α) where
  flags x := by simp [Tarjan.new]
  visited x := by simp [Visited, Tarjan.new]
  inside x visited := by simp [Visited, Tarjan.new] at visited
  apart x member := absurd member List.not_mem_nil
  grays g isGray := absurd isGray id
  descending := .nil
  bounded x member := absurd member List.not_mem_nil
  distinct := .nil
  nonempty c member := absurd member List.not_mem_nil
  strong c member := absurd member List.not_mem_nil
  closed x member := absurd member List.not_mem_nil
  down x member := absurd member List.not_mem_nil
  up x member := absurd member List.not_mem_nil
  black x visited := by simp [Visited, Tarjan.new] at visited

end Run

/-- The components of a graph whose edges stay among its nodes, visited in any order: the search
returns, and finds exactly the classes of nodes that reach each other. -/
theorem componentsOf_exact (graph : α → Option (List α)) (nodes : List α)
    (inside : ∀ x ∈ nodes, ∀ y ∈ successors graph x, y ∈ nodes) :
    ∃ components, componentsOf graph nodes = some components ∧
      Exact (successors graph) nodes components := by
  obtain ⟨t, run, formed, all⟩ :=
    visit_all inside (Nat.le_refl _) nodes new (fun _ member => member) .new
  have empty : t.stack = [] := by
    refine List.eq_nil_iff_forall_not_mem.mpr fun x member => ?_
    obtain ⟨g, isGray, -⟩ := formed.up x member
    exact isGray
  refine ⟨t.components, ?_, fun x => ⟨fun member => ?_, fun node => ?_⟩, formed.distinct,
    formed.nonempty, formed.strong⟩
  · rw [componentsOf, run]
    rfl
  · exact formed.inside x ((formed.visited x).mpr (.inr member))
  · refine ((formed.visited x).mp (all x (.inl node))).resolve_left fun member => ?_
    rw [empty] at member
    exact absurd member List.not_mem_nil

end Fai.Resolve.Tarjan
