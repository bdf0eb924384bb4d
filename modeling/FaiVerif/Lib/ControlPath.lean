/-!
# Control paths

A control path is chosen by a list of branch decisions: running along it consumes decisions and
emits events. Paths are built by emitting, sequencing and branching. A relation between event
lists lifts to paths that take the same decisions, and an event can occur when some decisions lead
to it.
-/

/-- A family of runs: from the decisions, the events and the decisions left over. -/
abbrev ControlPath (ε : Type) := List Bool → List ε × List Bool

namespace ControlPath

variable {ε : Type}

/-- Emit events and decide nothing. -/
def emit (events : List ε) : ControlPath ε := fun choices => (events, choices)

/-- One run after the other. -/
def seq (first second : ControlPath ε) : ControlPath ε := fun choices =>
  ((first choices).1 ++ (second (first choices).2).1, (second (first choices).2).2)

/-- A decision between two runs; a missing decision takes the second. -/
def branch (yes no : ControlPath ε) : ControlPath ε
  | true :: choices => yes choices
  | choices => no choices.tail

/-- Emitting nothing afterwards changes nothing. -/
theorem seq_nil (path : ControlPath ε) : seq path (emit []) = path := by
  funext choices
  simp only [seq, emit, List.append_nil]

/-- Two paths decide alike and their events are related. -/
def Rel (relation : List ε → List ε → Prop) (first second : ControlPath ε) : Prop :=
  ∀ choices, (second choices).2 = (first choices).2 ∧
    relation (first choices).1 (second choices).1

/-- Relations that survive concatenation lift to sequences. -/
theorem rel_seq {one two both : List ε → List ε → Prop}
    {first first' second second' : ControlPath ε}
    (left : Rel one first first') (right : Rel two second second')
    (join : ∀ a a' b b', one a a' → two b b' → both (a ++ b) (a' ++ b')) :
    Rel both (seq first second) (seq first' second') := by
  intro choices
  obtain ⟨sameLeft, relatedLeft⟩ := left choices
  obtain ⟨sameRight, relatedRight⟩ := right (first choices).2
  simp only [seq, sameLeft]
  exact ⟨sameRight, join _ _ _ _ relatedLeft relatedRight⟩

/-- A relation of both branches is one of the decision. -/
theorem rel_branch {relation : List ε → List ε → Prop} {yes yes' no no' : ControlPath ε}
    (left : Rel relation yes yes') (right : Rel relation no no') :
    Rel relation (branch yes no) (branch yes' no') := by
  intro choices
  match choices with
  | true :: rest => exact left rest
  | false :: rest => exact right rest
  | [] => exact right []

/-- A weaker relation of the same paths. -/
theorem Rel.imp {strong weak : List ε → List ε → Prop} {first second : ControlPath ε}
    (related : Rel strong first second) (implies : ∀ a b, strong a b → weak a b) :
    Rel weak first second :=
  fun choices => ⟨(related choices).1, implies _ _ (related choices).2⟩

/-- Every list of decisions can be left over. -/
def Onto (path : ControlPath ε) : Prop := ∀ rest, ∃ choices, (path choices).2 = rest

/-- Emitting leaves any decisions over. -/
theorem onto_emit (events : List ε) : Onto (emit events) := fun rest => ⟨rest, rfl⟩

/-- Sequences leave any decisions over. -/
theorem onto_seq {first second : ControlPath ε} (left : Onto first) (right : Onto second) :
    Onto (seq first second) := by
  intro rest
  obtain ⟨middle, reached⟩ := right rest
  obtain ⟨choices, before⟩ := left middle
  exact ⟨choices, by simp only [seq, before, reached]⟩

/-- Decisions leave any decisions over. -/
theorem onto_branch {yes no : ControlPath ε} (right : Onto no) : Onto (branch yes no) := by
  intro rest
  obtain ⟨choices, reached⟩ := right rest
  exact ⟨false :: choices, reached⟩

/-- An event occurs along some path. -/
def Can (path : ControlPath ε) (event : ε) : Prop := ∃ choices, event ∈ (path choices).1

/-- An event of the first run occurs in the sequence. -/
theorem can_seq_left {first second : ControlPath ε} {event : ε} (can : Can first event) :
    Can (seq first second) event := by
  obtain ⟨choices, occurs⟩ := can
  exact ⟨choices, List.mem_append_left _ occurs⟩

/-- An event of the second run occurs in the sequence. -/
theorem can_seq_right {first second : ControlPath ε} {event : ε} (onto : Onto first)
    (can : Can second event) : Can (seq first second) event := by
  obtain ⟨choices, occurs⟩ := can
  obtain ⟨before, reached⟩ := onto choices
  refine ⟨before, List.mem_append_right _ ?_⟩
  rw [reached]
  exact occurs

/-- An event of the first branch occurs in the decision. -/
theorem can_branch_left {yes no : ControlPath ε} {event : ε} (can : Can yes event) :
    Can (branch yes no) event := by
  obtain ⟨choices, occurs⟩ := can
  exact ⟨true :: choices, occurs⟩

/-- An event of the second branch occurs in the decision. -/
theorem can_branch_right {yes no : ControlPath ε} {event : ε} (can : Can no event) :
    Can (branch yes no) event := by
  obtain ⟨choices, occurs⟩ := can
  exact ⟨false :: choices, occurs⟩

/-- Emitted events occur. -/
theorem can_emit {events : List ε} {event : ε} (member : event ∈ events) :
    Can (emit events) event := ⟨[], member⟩

end ControlPath
