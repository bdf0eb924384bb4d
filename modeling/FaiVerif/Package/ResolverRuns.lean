import FaiVerif.Package.ResolverSearch
import Mathlib.Data.Set.Insert

/-!
# Runs of the search

The search is run from two memories at once, with two providers whose arranged answers are the
same. Both runs then meet the same candidates, so they end alike; and what one run finds or excludes
is what the valid graphs say.
-/

namespace Fai.Package

open Agreeing

variable {Version Req : Type} [LinearOrder Version] [DecidableEq Req]

section Memories

variable (outside : Outside Version Req)
  (answers : PackageKey → Except ProviderFailure (CandidateSet Version Req))
  (request : ResolutionRequest Version Req)

/-- Asking a provider gives the arranged answers. -/
structure Serves (provider : Provider Version Req) : Prop where
  /-- A failure of the provider, or an inconsistent answer. -/
  failure : ∀ key selectors memory failure,
    answerFor outside answers request key = .error failure →
    ask outside provider request key selectors memory = .error (.provider failure)
  /-- An answer, which is remembered. -/
  answer : ∀ key selectors memory set, answerFor outside answers request key = .ok set →
    ask outside provider request key selectors memory =
      .ok (set, memory.keep request key selectors set)

/-- A memory holds only answers, and those of some packages at least. -/
structure Remembers (known : Set PackageKey) (memory : Memory Version Req) : Prop where
  /-- What is held was answered; the root is never asked for. -/
  answered : ∀ key entry, memory.cache.get key = some entry →
    key ≠ request.root ∧ answerFor outside answers request key = .ok entry.2
  /-- The answers that are held. -/
  holds : ∀ key ∈ known, ∃ entry, memory.cache.get key = some entry

/-- Two memories that differ at most in the answers they hold. -/
structure Paired (known : Set PackageKey) (first second : Memory Version Req) : Prop where
  /-- The first memory. -/
  left : Remembers outside answers request known first
  /-- The second memory. -/
  right : Remembers outside answers request known second
  /-- The last conflict is the same. -/
  conflict : first.conflict = second.conflict

/-- The branch bindings that are remembered of the selected packages. -/
def recalled (key : PackageKey) : Option (SortedMap String String) :=
  if key = request.root then none
  else
    match answerFor outside answers request key with
    | .ok set => some set.branches
    | .error _ => none

end Memories

/-- The errors with which a search ends. -/
def Stops (error : ResolutionError Req) : Prop :=
  error = .conflict depthLimit ∨ ∃ failure, error = .provider failure

section Answers

variable {outside : Outside Version Req}
  {answers : PackageKey → Except ProviderFailure (CandidateSet Version Req)}
  {request : ResolutionRequest Version Req} {provider provider' : Provider Version Req}
  {known : Set PackageKey} {memory first second : Memory Version Req}

/-- A provider that answers consistently serves its arranged answers. -/
theorem Answers.serves (consistent : Answers answers provider) :
    Serves outside answers request provider := by
  have asks : ∀ key selectors memory, ask outside provider request key selectors memory =
      accept outside request key selectors (answers (actualKey request key)) memory := by
    intro key selectors memory
    show accept outside request key selectors
      (provider memory.asked (queryFor request key selectors)) memory = _
    rw [consistent]
    rfl
  constructor
  · intro key selectors memory failure answer
    rw [asks]
    rw [answerFor] at answer
    cases given : answers (actualKey request key) with
    | error refusal =>
      simp only [given] at answer
      cases answer
      rfl
    | ok set =>
      simp only [given] at answer
      by_cases valid : consistentSources (actualKey request key) set.candidates SortedMap.empty
      · rw [if_pos valid] at answer
        cases answer
      · rw [if_neg valid] at answer
        cases answer
        rw [accept, if_neg valid]
        rfl
  · intro key selectors memory set answer
    rw [asks]
    rw [answerFor] at answer
    cases given : answers (actualKey request key) with
    | error refusal =>
      simp only [given] at answer
      cases answer
    | ok raw =>
      simp only [given] at answer
      by_cases valid : consistentSources (actualKey request key) raw.candidates SortedMap.empty
      · rw [if_pos valid] at answer
        cases answer
        rw [accept, if_pos valid]
        rfl
      · rw [if_neg valid] at answer
        cases answer

/-- Fewer answers known to be held. -/
theorem Remembers.mono {known' : Set PackageKey} (fewer : known' ⊆ known)
    (remembers : Remembers outside answers request known memory) :
    Remembers outside answers request known' memory :=
  ⟨remembers.answered, fun key inside => remembers.holds key (fewer inside)⟩

/-- Fewer answers known to be held in both memories. -/
theorem Paired.mono {known' : Set PackageKey} (fewer : known' ⊆ known)
    (paired : Paired outside answers request known first second) :
    Paired outside answers request known' first second :=
  ⟨paired.left.mono fewer, paired.right.mono fewer, paired.conflict⟩

/-- Recording one conflict in both memories. -/
theorem Paired.blame (conflict : ResolutionConflict Req)
    (paired : Paired outside answers request known first second) :
    Paired outside answers request known { first with conflict } { second with conflict } :=
  ⟨⟨paired.left.answered, paired.left.holds⟩, ⟨paired.right.answered, paired.right.holds⟩, rfl⟩

/-- Remembering one more answer. -/
theorem Remembers.insert {key : PackageKey} {set : CandidateSet Version Req}
    (remembers : Remembers outside answers request known memory) (other : key ≠ request.root)
    (answer : answerFor outside answers request key = .ok set)
    (selectors : List (PackageSelector Req)) :
    Remembers outside answers request (insert key known)
      (memory.keep request key selectors set) := by
  constructor
  · intro asked entry held
    rw [Memory.keep, SortedMap.get_insert] at held
    by_cases same : asked = key
    · rw [if_pos same, Option.some_inj] at held
      rw [same, ← held]
      exact ⟨other, answer⟩
    · rw [if_neg same] at held
      exact remembers.answered asked entry held
  · intro asked inside
    rw [Memory.keep, SortedMap.get_insert]
    by_cases same : asked = key
    · exact ⟨_, if_pos same⟩
    · rw [if_neg same]
      exact remembers.holds asked (Set.mem_of_mem_insert_of_ne inside same)

/-- Asking for candidates fails when the provider does. -/
theorem candidateSet_failure (serves : Serves outside answers request provider)
    (remembers : Remembers outside answers request known memory) {key : PackageKey}
    {failure : ProviderFailure} (answer : answerFor outside answers request key = .error failure)
    (demands : List (PackageRequirement Req)) :
    candidateSet outside provider request key demands memory = .error (.provider failure) := by
  show recallOrAsk outside provider request key (selectorsFor outside request key demands)
    (memory.cache.get key) memory = _
  cases held : memory.cache.get key with
  | none => exact serves.failure key _ memory failure answer
  | some entry =>
    have answered := (remembers.answered key entry held).2
    rw [answer] at answered
    cases answered

/-- Candidates are those answered, from memory or anew, and they are remembered. -/
theorem candidateSet_answer (serves : Serves outside answers request provider)
    (remembers : Remembers outside answers request known memory) {key : PackageKey}
    (other : key ≠ request.root) {set : CandidateSet Version Req}
    (answer : answerFor outside answers request key = .ok set)
    (demands : List (PackageRequirement Req)) :
    ∃ after, candidateSet outside provider request key demands memory = .ok (set, after) ∧
      Remembers outside answers request (insert key known) after ∧
      after.conflict = memory.conflict := by
  have anew : ∃ after, ask outside provider request key (selectorsFor outside request key demands)
      memory = .ok (set, after) ∧ Remembers outside answers request (insert key known) after ∧
      after.conflict = memory.conflict :=
    ⟨_, serves.answer key _ memory set answer, remembers.insert other answer _, rfl⟩
  show ∃ after, recallOrAsk outside provider request key
    (selectorsFor outside request key demands) (memory.cache.get key) memory = .ok (set, after) ∧ _
  cases held : memory.cache.get key with
  | none => exact anew
  | some entry =>
    obtain ⟨previous, kept⟩ := entry
    by_cases same : previous = selectorsFor outside request key demands
    · have answered := (remembers.answered key _ held).2
      rw [answer] at answered
      cases answered
      refine ⟨memory, ?_, ⟨remembers.answered, ?_⟩, rfl⟩
      · simp only [recallOrAsk, if_pos same]
        rfl
      · intro asked inside
        rcases Set.mem_insert_iff.mp inside with here | before
        · exact ⟨_, here ▸ held⟩
        · exact remembers.holds asked before
    · simp only [recallOrAsk, if_neg same]
      exact anew

/-- Two resolvers that ask for candidates get the same ones. -/
theorem candidateSet_agree (serves : Serves outside answers request provider)
    (serves' : Serves outside answers request provider') {key : PackageKey}
    (other : key ≠ request.root) (demands : List (PackageRequirement Req))
    (paired : Paired outside answers request known first second) :
    Agree Stops
      (fun set first second => answerFor outside answers request key = .ok set ∧
        Paired outside answers request (insert key known) first second)
      (candidateSet outside provider request key demands first)
      (candidateSet outside provider' request key demands second) := by
  cases answer : answerFor outside answers request key with
  | error failure =>
    rw [candidateSet_failure serves paired.left answer,
      candidateSet_failure serves' paired.right answer]
    exact .failed _ (.inr ⟨failure, rfl⟩)
  | ok set =>
    obtain ⟨after, run, remembers, conflict⟩ :=
      candidateSet_answer serves paired.left other answer demands
    obtain ⟨after', run', remembers', conflict'⟩ :=
      candidateSet_answer serves' paired.right other answer demands
    rw [run, run']
    refine .ended set after after' ⟨rfl, remembers, remembers', ?_⟩
    rw [conflict, conflict', paired.conflict]

/-- The bindings of an answered package. -/
theorem bindings_of_answer {key : PackageKey} (other : key ≠ request.root)
    {set : CandidateSet Version Req} (answer : answerFor outside answers request key = .ok set) :
    bindings answers request key = set.branches := by
  rw [answerFor] at answer
  rw [bindings, if_neg other]
  cases given : answers (actualKey request key) with
  | error refusal =>
    simp only [given] at answer
    cases answer
  | ok raw =>
    simp only [given] at answer ⊢
    by_cases valid : consistentSources (actualKey request key) raw.candidates SortedMap.empty
    · rw [if_pos valid] at answer
      cases answer
      rfl
    · rw [if_neg valid] at answer
      cases answer

/-- Two resolvers read the bindings of a selected package alike. -/
theorem bindingsOf_agree (serves : Serves outside answers request provider)
    (serves' : Serves outside answers request provider') (key : PackageKey)
    (demands : List (PackageRequirement Req))
    (paired : Paired outside answers request known first second) :
    Agree Stops
      (fun branches first second => branches = bindings answers request key ∧
        Paired outside answers request (known ∪ {asked | asked = key ∧ asked ≠ request.root})
          first second)
      (bindingsOf outside provider request key demands first)
      (bindingsOf outside provider' request key demands second) := by
  by_cases root : key = request.root
  · simp only [bindingsOf, if_pos root]
    refine agree_pure ⟨?_, paired.mono ?_⟩
    · rw [bindings, if_pos root]
    · rintro asked (before | ⟨same, other⟩)
      · exact before
      · exact absurd (same.trans root) other
  · simp only [bindingsOf, if_neg root]
    refine agree_bind (candidateSet_agree serves serves' root demands paired) ?_
    rintro set first second ⟨answer, paired⟩
    refine agree_pure ⟨(bindings_of_answer root answer).symm, paired.mono ?_⟩
    rintro asked (before | ⟨same, _⟩)
    · exact Set.mem_insert_of_mem _ before
    · exact Set.mem_insert_iff.mpr (.inl same)

/-- Two resolvers check the selected packages alike: all pass, or one fails. -/
theorem checkSelected_agree (serves : Serves outside answers request provider)
    (serves' : Serves outside answers request provider')
    (required : SortedMap PackageKey (List (PackageRequirement Req)))
    (fixed : SortedMap PackageKey (PackagePin Version)) :
    ∀ (list : List (PackageKey × PackageCandidate Version Req)) {known : Set PackageKey}
      {first second : Memory Version Req}, Paired outside answers request known first second →
    Agree Stops
      (fun passed first second =>
        (passed = true → (∀ entry ∈ list, fails outside request fixed entry.1
            ((required.get entry.1).getD []) (bindings answers request entry.1) entry.2 = false) ∧
          Paired outside answers request
            (known ∪ {key | key ∈ list.map Prod.fst ∧ key ≠ request.root}) first second) ∧
        (passed = false → (∃ entry ∈ list, fails outside request fixed entry.1
            ((required.get entry.1).getD []) (bindings answers request entry.1) entry.2 = true) ∧
          Paired outside answers request known first second))
      (checkSelected outside provider request required fixed list first)
      (checkSelected outside provider' request required fixed list second)
  | [], known, first, second, paired => by
    refine agree_pure ⟨fun _ => ⟨by simp, paired.mono ?_⟩, by simp⟩
    rintro asked (before | ⟨inside, _⟩)
    · exact before
    · exact absurd inside List.not_mem_nil
  | (key, candidate) :: rest, known, first, second, paired => by
    refine agree_bind (bindingsOf_agree serves serves' key ((required.get key).getD []) paired) ?_
    rintro branches first second ⟨rfl, paired⟩
    by_cases failing : fails outside request fixed key ((required.get key).getD [])
        (bindings answers request key) candidate
    · simp only [if_pos failing]
      refine agree_modify (agree_pure ⟨by simp, fun _ => ⟨?_, ?_⟩⟩)
      · exact ⟨(key, candidate), List.mem_cons_self, failing⟩
      · exact (paired.blame _).mono Set.subset_union_left
    · simp only [if_neg failing]
      refine (checkSelected_agree serves serves' required fixed rest paired).imp (fun _ => id) ?_
      rintro passed first second ⟨all, one⟩
      refine ⟨fun success => ⟨?_, ?_⟩, fun failure => ⟨?_, ?_⟩⟩
      · intro entry inside
        rcases List.mem_cons.mp inside with rfl | later
        · exact Bool.not_eq_true _ ▸ failing
        · exact (all success).1 entry later
      · refine (all success).2.mono ?_
        rintro asked (before | ⟨inside, other⟩)
        · exact .inl (.inl before)
        · rcases List.mem_cons.mp inside with here | later
          · exact .inl (.inr ⟨here, other⟩)
          · exact .inr ⟨later, other⟩
      · obtain ⟨entry, inside, fails⟩ := (one failure).1
        exact ⟨entry, List.mem_cons_of_mem _ inside, fails⟩
      · exact (one failure).2.mono Set.subset_union_left

end Answers

section Search

variable (outside : Outside Version Req)
  (answers : PackageKey → Except ProviderFailure (CandidateSet Version Req))
  (request : ResolutionRequest Version Req)

/-- A selection of the root and packages reached from it, as they are offered. -/
structure Grounded (selected : Selection Version Req) : Prop where
  /-- The root is selected as it is. -/
  root : selected.get request.root = some request.candidate
  /-- The root is eligible. -/
  rootEligible : eligible outside request request.candidate = true
  /-- The other packages are offered. -/
  offered : ∀ key candidate, selected.get key = some candidate → key ≠ request.root →
    Offered outside answers request key candidate
  /-- The packages are reached from the root. -/
  reached : ∀ key ∈ selected.keys, Reached request selected key

/-- No valid graph with the targets and the fixed selections extends a selection. -/
def Barren (fixed : SortedMap PackageKey (PackagePin Version)) (selected : Selection Version Req) :
    Prop :=
  ∀ whole, Valid outside answers request whole → Respects fixed whole →
    HasTargets request whole → ¬Extends selected whole

/-- A graph as the search builds it: valid, with the targets and the fixed selections. -/
structure Found (fixed : SortedMap PackageKey (PackagePin Version))
    (found : ResolvedGraph Version Req) : Prop where
  /-- The packages form a valid graph. -/
  valid : Valid outside answers request found.packages
  /-- The fixed selections are respected. -/
  respects : Respects fixed found.packages
  /-- Every target is there. -/
  targets : HasTargets request found.packages
  /-- The edges and bindings are those of the packages. -/
  shape : found = graph request found.packages (recalled outside answers request)

/-- What is known after a search. -/
structure Searched (fixed : SortedMap PackageKey (PackagePin Version)) (known : Set PackageKey)
    (excluded : Prop) (found : Option (ResolvedGraph Version Req))
    (first second : Memory Version Req) : Prop where
  /-- The memories keep what they held. -/
  paired : Paired outside answers request known first second
  /-- A graph is as it should be, and the answers of its packages are held. -/
  graph : ∀ graph, found = some graph → Found outside answers request fixed graph ∧
    Paired outside answers request
      (known ∪ {key | key ∈ graph.packages.keys ∧ key ≠ request.root}) first second
  /-- Without a graph there is none. -/
  none : found = none → excluded

end Search

section Pruning

variable {outside : Outside Version Req}
  {answers : PackageKey → Except ProviderFailure (CandidateSet Version Req)}
  {request : ResolutionRequest Version Req} {selected whole : Selection Version Req}
  {fixed : SortedMap PackageKey (PackagePin Version)}

omit [DecidableEq Req] in
/-- What is fixed excludes no candidate of a graph that respects it. -/
theorem Respects.excluded_eq_false (respects : Respects fixed whole) {key : PackageKey}
    {candidate : PackageCandidate Version Req} (held : whole.get key = some candidate) :
    excluded fixed key candidate = false := by
  rw [excluded]
  cases fix : fixed.get key with
  | none => rfl
  | some pin => simp [respects key pin candidate fix held]

omit [LinearOrder Version] [DecidableEq Req] in
/-- A candidate of a valid graph meets what a part of the graph requires. -/
theorem Valid.any_unsatisfied (valid : Valid outside answers request whole)
    (extend : Extends selected whole) {key : PackageKey}
    {candidate : PackageCandidate Version Req} (held : whole.get key = some candidate) :
    (((requirements request selected).get key).getD []).any (fun requirement =>
      !satisfies outside request candidate requirement (bindings answers request key)) = false := by
  rw [List.any_eq_false]
  intro requirement member
  have demanded := (mem_requirements.mp member).extend extend
  simp [valid.satisfied key candidate requirement held demanded]

omit [DecidableEq Req] in
/-- A selected candidate that fails is in no valid graph. -/
theorem Valid.fails_eq_false (valid : Valid outside answers request whole)
    (respects : Respects fixed whole) (extend : Extends selected whole) {key : PackageKey}
    {candidate : PackageCandidate Version Req} (held : selected.get key = some candidate) :
    fails outside request fixed key (((requirements request selected).get key).getD [])
      (bindings answers request key) candidate = false := by
  have inside := extend key candidate held
  have root : (decide (key = request.root) &&
      Package.rootReplaced outside request candidate (bindings answers request key)) = false := by
    by_cases same : key = request.root
    · rw [same, valid.root, Option.some_inj] at inside
      rw [bindings, if_pos same, ← inside, valid.rootReplaced, Bool.and_false]
    · rw [decide_eq_false same, Bool.false_and]
  rw [fails, respects.excluded_eq_false (extend key candidate held),
    valid.any_unsatisfied extend (extend key candidate held), root]
  rfl

omit [DecidableEq Req] in
/-- A complete selection without failures and cycles is a valid graph that respects what is
fixed. -/
theorem Grounded.valid (grounded : Grounded outside answers request selected)
    (passes : ∀ entry ∈ selected.entries, fails outside request fixed entry.1
      (((requirements request selected).get entry.1).getD []) (bindings answers request entry.1)
      entry.2 = false)
    (closed : ∀ key requirement, Demanded request selected key requirement → key ∈ selected.keys)
    (acyclic : hasCycle request selected = false) :
    Valid outside answers request selected ∧ Respects fixed selected := by
  have parts : ∀ key candidate, selected.get key = some candidate →
      (excluded fixed key candidate = false ∧
        (((requirements request selected).get key).getD []).any (fun requirement =>
          !satisfies outside request candidate requirement (bindings answers request key)) =
            false) ∧
      (decide (key = request.root) &&
        rootReplaced outside request candidate (bindings answers request key)) = false := by
    intro key candidate held
    have passed := passes (key, candidate) (SortedMap.get_eq_some.mp held)
    rw [fails, Bool.or_eq_false_iff, Bool.or_eq_false_iff] at passed
    exact passed
  constructor
  · refine ⟨grounded.root, grounded.rootEligible, ?_, grounded.offered, ?_, closed,
      grounded.reached, hasCycle_eq_false.mp acyclic⟩
    · have root := (parts _ _ grounded.root).2
      rw [decide_eq_true rfl, Bool.true_and, bindings, if_pos rfl] at root
      exact root
    · intro key candidate requirement held demanded
      have met := (parts key candidate held).1.2
      rw [List.any_eq_false] at met
      simpa using met requirement (mem_requirements.mpr demanded)
  · intro key pin candidate fix held
    have pinned := (parts key candidate held).1.1
    rw [excluded, fix] at pinned
    simpa using pinned

omit [LinearOrder Version] [DecidableEq Req] in
/-- A required package that is offered may be selected. -/
theorem Grounded.insert (grounded : Grounded outside answers request selected) {key : PackageKey}
    (fresh : key ∉ selected.keys) {requirement : PackageRequirement Req}
    (demanded : Demanded request selected key requirement)
    {candidate : PackageCandidate Version Req}
    (offered : Offered outside answers request key candidate) :
    Grounded outside answers request (selected.insert key candidate) := by
  have extend := extends_insert fresh candidate
  have reached := demanded.reached grounded.reached
  refine ⟨extend _ _ grounded.root, grounded.rootEligible, ?_, ?_⟩
  · intro other chosen held notRoot
    rw [SortedMap.get_insert] at held
    by_cases same : other = key
    · rw [if_pos same, Option.some_inj] at held
      rw [same, ← held]
      exact offered
    · rw [if_neg same] at held
      exact grounded.offered other chosen held notRoot
  · intro other inside
    rcases mem_keys_insert inside with rfl | before
    · exact reached.extend extend
    · exact (grounded.reached other before).extend extend

/-- The candidates of an answer are those listed and eligible. -/
theorem mem_of_answer {key : PackageKey} {set : CandidateSet Version Req}
    (answer : answerFor outside answers request key = .ok set)
    {candidate : PackageCandidate Version Req} :
    candidate ∈ set.candidates ↔
      (∃ raw, answers (actualKey request key) = .ok raw ∧ candidate ∈ raw.candidates) ∧
        eligible outside request candidate = true := by
  rw [answerFor] at answer
  cases given : answers (actualKey request key) with
  | error refusal =>
    simp only [given] at answer
    cases answer
  | ok raw =>
    simp only [given] at answer
    by_cases valid : consistentSources (actualKey request key) raw.candidates SortedMap.empty
    · rw [if_pos valid] at answer
      cases answer
      rw [mem_arrange]
      simp
    · rw [if_neg valid] at answer
      cases answer

/-- A listed candidate that is acceptable is offered. -/
theorem offered_of_acceptable {key : PackageKey} (other : key ≠ request.root)
    {set : CandidateSet Version Req} (answer : answerFor outside answers request key = .ok set)
    {candidate : PackageCandidate Version Req} (listed : candidate ∈ set.candidates)
    {demands : List (PackageRequirement Req)}
    (accepted : acceptable outside request fixed key demands set.branches candidate = true) :
    Offered outside answers request key candidate := by
  obtain ⟨given, supported⟩ := (mem_of_answer answer).mp listed
  refine ⟨given, supported, ?_⟩
  intro replacement overridden
  rw [acceptable, Bool.not_eq_true', Bool.or_eq_false_iff, overridden] at accepted
  rw [bindings_of_answer other answer]
  simpa using accepted.2

/-- The candidate of a valid graph that extends a selection is listed and acceptable. -/
theorem Valid.acceptable (valid : Valid outside answers request whole)
    (respects : Respects fixed whole) (extend : Extends selected whole) {key : PackageKey}
    (other : key ≠ request.root) {requirement : PackageRequirement Req}
    (demanded : Demanded request selected key requirement)
    {set : CandidateSet Version Req} (answer : answerFor outside answers request key = .ok set) :
    ∃ candidate ∈ set.candidates,
      Package.acceptable outside request fixed key
        (((requirements request selected).get key).getD []) set.branches candidate = true ∧
      Extends (selected.insert key candidate) whole := by
  obtain ⟨candidate, held⟩ := SortedMap.mem_keys.mp (valid.closed key _ (demanded.extend extend))
  have offered := valid.offered key candidate held other
  have bound := bindings_of_answer other answer
  refine ⟨candidate, (mem_of_answer answer).mpr ⟨offered.listed, offered.eligible⟩, ?_, ?_⟩
  · have met := valid.any_unsatisfied extend held
    rw [bound] at met
    have replaced : ((request.overrides.get key).any fun replacement =>
        !matchesSelector outside candidate replacement.selector set.branches) = false := by
      cases overridden : request.overrides.get key with
      | none => rfl
      | some replacement =>
        have matched := offered.replaced replacement overridden
        rw [bound] at matched
        simp [matched]
    rw [Package.acceptable, respects.excluded_eq_false held, met, replaced]
    rfl
  · intro asked chosen found
    rw [SortedMap.get_insert] at found
    by_cases same : asked = key
    · rw [if_pos same, Option.some_inj] at found
      rw [same, ← found]
      exact held
    · rw [if_neg same] at found
      exact extend asked chosen found

end Pruning

section Searching

variable {outside : Outside Version Req}
  {answers : PackageKey → Except ProviderFailure (CandidateSet Version Req)}
  {request : ResolutionRequest Version Req} {provider provider' : Provider Version Req}
  {known : Set PackageKey} {memory first second : Memory Version Req}
  {fixed : SortedMap PackageKey (PackagePin Version)} {selected : Selection Version Req}

/-- The bindings of a complete selection are those answered for its packages. -/
theorem graph_of_remembers
    (closed : ∀ key requirement, Demanded request selected key requirement → key ∈ selected.keys)
    (remembers : Remembers outside answers request known memory)
    (holds : ∀ key ∈ selected.keys, key ≠ request.root → key ∈ known) :
    graph request selected memory.branches =
      graph request selected (recalled outside answers request) := by
  have same : ∀ entry ∈ (requirements request selected).entries,
      memory.branches entry.1 = recalled outside answers request entry.1 := by
    intro entry inside
    rw [Memory.branches, recalled]
    by_cases root : entry.1 = request.root
    · rw [if_pos root]
      cases held : memory.cache.get entry.1 with
      | none => rfl
      | some kept => exact absurd root (remembers.answered _ kept held).1
    · obtain ⟨requirement, demanded⟩ := mem_requirements_keys.mp
        (SortedMap.mem_keys.mpr ⟨entry.2, SortedMap.get_eq_some.mpr inside⟩)
      obtain ⟨kept, held⟩ := remembers.holds _ (holds _ (closed _ _ demanded) root)
      rw [if_neg root, held, (remembers.answered _ kept held).2]
      rfl
  rw [graph, graph, branchesOf, branchesOf, List.filterMap_congr]
  intro entry inside
  rw [same entry inside]

/-- A complete selection becomes a graph, unless a target is missing. -/
theorem complete_agree (valid : Valid outside answers request selected)
    (respects : Respects fixed selected)
    (holds : ∀ key ∈ selected.keys, key ≠ request.root → key ∈ known)
    (paired : Paired outside answers request known first second) :
    Agree Stops (Searched outside answers request fixed known
        (Barren outside answers request fixed selected))
      (complete request selected first) (complete request selected second) := by
  by_cases missing : (requiredTargets request).any fun key => !selected.contains key
  · simp only [complete, if_pos missing]
    refine agree_pure ⟨paired, by simp, fun _ whole wholeValid _ targets extend => ?_⟩
    obtain ⟨key, target, absent⟩ := List.any_eq_true.mp missing
    have root := SortedMap.mem_keys.mpr ⟨_, valid.root⟩
    have present := wholeValid.keys_of_closed extend root valid.closed (targets key target)
    rw [SortedMap.contains_iff.mpr present] at absent
    cases absent
  · simp only [complete, if_neg missing]
    refine agree_get ?_
    have targets : HasTargets request selected := by
      intro key target
      rw [← SortedMap.contains_iff]
      by_contra absent
      exact missing (List.any_eq_true.mpr ⟨key, target, by simp [absent]⟩)
    rw [graph_of_remembers valid.closed paired.left holds,
      graph_of_remembers valid.closed paired.right holds]
    refine agree_pure ⟨paired, ?_, by simp⟩
    intro found same
    cases same
    refine ⟨⟨valid, respects, targets, rfl⟩, paired.mono ?_⟩
    rintro key (before | ⟨inside, other⟩)
    · exact before
    · exact holds key inside other

/-- Two resolvers that try the same candidates find the same graph or none. -/
theorem tryCandidates_agree {choose choose' : PackageCandidate Version Req →
      Resolving Version Req (Option (ResolvedGraph Version Req))}
    {accept : PackageCandidate Version Req → Bool}
    {excluded : PackageCandidate Version Req → Prop} :
    ∀ (list : List (PackageCandidate Version Req)) (attempted : Bool)
      {first second : Memory Version Req},
    (∀ candidate ∈ list, accept candidate = true → ∀ first second,
      Paired outside answers request known first second →
      Agree Stops (Searched outside answers request fixed known (excluded candidate))
        (choose candidate first) (choose' candidate second)) →
    Paired outside answers request known first second →
    Agree Stops
      (fun result first second => (result.1 = false → result.2 = none) ∧
        Searched outside answers request fixed known
          (∀ candidate ∈ list, accept candidate = true → excluded candidate) result.2 first second)
      (tryCandidates choose accept list attempted first)
      (tryCandidates choose' accept list attempted second)
  | [], attempted, first, second, _, paired => by
    exact agree_pure ⟨fun _ => rfl, paired, by simp, fun _ => by simp⟩
  | candidate :: rest, attempted, first, second, chosen, paired => by
    have later : ∀ attempted first second, Paired outside answers request known first second →
        (accept candidate = true → excluded candidate) →
        Agree Stops
          (fun result first second => (result.1 = false → result.2 = none) ∧
            Searched outside answers request fixed known
              (∀ other ∈ candidate :: rest, accept other = true → excluded other)
              result.2 first second)
          (tryCandidates choose accept rest attempted first)
          (tryCandidates choose' accept rest attempted second) := by
      intro attempted first second paired here
      refine (tryCandidates_agree rest attempted (fun other inside =>
        chosen other (List.mem_cons_of_mem _ inside)) paired).imp (fun _ => id) ?_
      rintro result first second ⟨tried, searched⟩
      refine ⟨tried, searched.paired, searched.graph, fun absent other inside accepted => ?_⟩
      rcases List.mem_cons.mp inside with rfl | inRest
      · exact here accepted
      · exact searched.none absent other inRest accepted
    by_cases accepted : accept candidate = true
    · simp only [tryCandidates, if_pos accepted]
      refine agree_bind (chosen candidate List.mem_cons_self accepted first second paired) ?_
      intro found first second searched
      cases found with
      | none =>
        simp only [Option.isSome_none, Bool.false_eq_true, if_false]
        exact later true first second searched.paired fun _ => searched.none rfl
      | some found =>
        simp only [Option.isSome_some, if_true]
        exact agree_pure ⟨by simp, searched.paired, searched.graph, by simp⟩
    · simp only [tryCandidates, if_neg accepted]
      exact later attempted first second paired fun yes => absurd yes accepted

/-- Two resolvers decide a required package alike, when they search on alike. -/
theorem decideKey_agree (serves : Serves outside answers request provider)
    (serves' : Serves outside answers request provider')
    (grounded : Grounded outside answers request selected)
    {choose choose' : Selection Version Req →
      Resolving Version Req (Option (ResolvedGraph Version Req))}
    (searches : ∀ chosen known first second, Grounded outside answers request chosen →
      Paired outside answers request known first second →
      Agree Stops (Searched outside answers request fixed known
        (Barren outside answers request fixed chosen)) (choose chosen first)
        (choose' chosen second))
    {key : PackageKey} (fresh : key ∉ selected.keys) {requirement : PackageRequirement Req}
    (demanded : Demanded request selected key requirement)
    (paired : Paired outside answers request known first second) :
    Agree Stops (Searched outside answers request fixed known
        (Barren outside answers request fixed selected))
      (decideKey outside provider request fixed choose (requirements request selected) selected key
        first)
      (decideKey outside provider' request fixed choose' (requirements request selected) selected
        key second) := by
  have other : key ≠ request.root := by
    intro root
    exact fresh (SortedMap.mem_keys.mpr ⟨_, root ▸ grounded.root⟩)
  have forget : known ⊆ insert key known := Set.subset_insert key known
  refine agree_bind (candidateSet_agree serves serves' other _ paired) ?_
  rintro set first second ⟨answer, paired⟩
  have chosen : ∀ candidate ∈ set.candidates,
      acceptable outside request fixed key (((requirements request selected).get key).getD [])
        set.branches candidate = true →
      ∀ first second, Paired outside answers request (insert key known) first second →
      Agree Stops (Searched outside answers request fixed (insert key known)
        (Barren outside answers request fixed (selected.insert key candidate)))
        (choose (selected.insert key candidate) first)
        (choose' (selected.insert key candidate) second) := by
    intro candidate listed accepted first second paired
    have offered := offered_of_acceptable other answer listed accepted
    exact searches _ _ first second (grounded.insert fresh demanded offered) paired
  refine agree_bind (tryCandidates_agree set.candidates false chosen paired) ?_
  rintro ⟨attempted, found⟩ first second ⟨tried, searched⟩
  have barren : found = none → Barren outside answers request fixed selected := by
    intro absent whole valid respects targets extend
    obtain ⟨candidate, listed, accepted, extended⟩ :=
      valid.acceptable respects extend other demanded answer
    exact searched.none absent candidate listed accepted whole valid respects targets extended
  have graphs : ∀ graph, found = some graph → Found outside answers request fixed graph ∧
      Paired outside answers request
        (known ∪ {key | key ∈ graph.packages.keys ∧ key ≠ request.root}) first second := by
    intro graph same
    obtain ⟨made, held⟩ := searched.graph graph same
    exact ⟨made, held.mono (Set.union_subset_union_left _ forget)⟩
  cases attempted with
  | true => exact agree_pure ⟨searched.paired.mono forget, graphs, barren⟩
  | false =>
    have absent := tried rfl
    refine agree_modify (agree_pure ⟨?_, by simp, fun _ => barren absent⟩)
    exact (searched.paired.mono forget).blame _

/-- Two resolvers search alike: they stop with the same error, find the same graph, which is valid,
or find none, and then there is none. -/
theorem search_agree (serves : Serves outside answers request provider)
    (serves' : Serves outside answers request provider')
    (fixed : SortedMap PackageKey (PackagePin Version)) :
    ∀ (decisions : Nat) (selected : Selection Version Req) (known : Set PackageKey)
      (first second : Memory Version Req), Grounded outside answers request selected →
    Paired outside answers request known first second →
    Agree Stops (Searched outside answers request fixed known
        (Barren outside answers request fixed selected))
      (search outside provider request fixed decisions selected first)
      (search outside provider' request fixed decisions selected second)
  | 0, selected, known, first, second, _, _ => agree_throw (.inl rfl)
  | decisions + 1, selected, known, first, second, grounded, paired => by
    refine agree_bind (checkSelected_agree serves serves' (requirements request selected) fixed
      selected.entries paired) ?_
    rintro passed first second ⟨all, one⟩
    cases passed with
    | false =>
      obtain ⟨⟨entry, inside, failing⟩, paired⟩ := one rfl
      simp only [if_true]
      refine agree_pure ⟨paired, by simp, fun _ whole valid respects _ extend => ?_⟩
      rw [valid.fails_eq_false respects extend (SortedMap.get_eq_some.mpr inside)] at failing
      cases failing
    | true =>
      obtain ⟨passes, paired⟩ := all rfl
      have forget : known ⊆ known ∪
          {key | key ∈ selected.entries.map Prod.fst ∧ key ≠ request.root} :=
        Set.subset_union_left
      simp only [Bool.true_eq_false, if_false]
      by_cases cycle : hasCycle request selected = true
      · simp only [if_pos cycle]
        refine agree_modify (agree_pure ⟨(paired.mono forget).blame _, by simp, ?_⟩)
        intro _ whole valid _ _ extend
        rw [hasCycle_eq_false.mpr (extend.acyclic valid.acyclic)] at cycle
        cases cycle
      simp only [if_neg cycle]
      cases next : nextKey request (requirements request selected) selected with
      | none =>
        have closed : ∀ key requirement, Demanded request selected key requirement →
            key ∈ selected.keys := fun key requirement demanded =>
          nextKey_eq_none next (mem_requirements_keys.mpr ⟨requirement, demanded⟩)
        obtain ⟨valid, respects⟩ :=
          grounded.valid passes closed (Bool.not_eq_true _ ▸ cycle)
        refine (complete_agree valid respects ?_ paired).imp (fun _ => id) ?_
        · exact fun key inside other => .inr ⟨inside, other⟩
        · intro found first second searched
          refine ⟨searched.paired.mono forget, ?_, searched.none⟩
          intro graph same
          obtain ⟨made, held⟩ := searched.graph graph same
          exact ⟨made, held.mono (Set.union_subset_union_left _ forget)⟩
      | some key =>
        obtain ⟨member, fresh⟩ := nextKey_eq_some next
        obtain ⟨requirement, demanded⟩ := mem_requirements_keys.mp member
        exact decideKey_agree serves serves' grounded
          (search_agree serves serves' fixed decisions) fresh demanded (paired.mono forget)

end Searching

end Fai.Package
