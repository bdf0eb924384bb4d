import FaiVerif.Package.Resolver

/-!
# Valid graphs

What a resolution is to find: a selection that holds the root and exactly the packages reached from
it, in which every package is one the provider offers and meets every requirement placed on it, and
whose normal dependencies have no cycle.
-/

namespace Fai.Package

variable {Version Req : Type} [LinearOrder Version] [DecidableEq Req]

/-- A selection of candidates. -/
abbrev Selection (Version Req : Type) := SortedMap PackageKey (PackageCandidate Version Req)

section Graphs

variable (outside : Outside Version Req)
  (answers : PackageKey → Except ProviderFailure (CandidateSet Version Req))
  (request : ResolutionRequest Version Req)

/-- The provider gives the same candidates and bindings for a package whatever the query. -/
def Answers (provider : Provider Version Req) : Prop :=
  ∀ asked query, provider asked query = answers query.package

/-- The answer for a key, as the resolver arranges it. -/
def answerFor (key : PackageKey) : Except ProviderFailure (CandidateSet Version Req) :=
  match answers (actualKey request key) with
  | .error failure => .error failure
  | .ok set =>
    if consistentSources (actualKey request key) set.candidates SortedMap.empty then
      .ok (arrange outside request set)
    else .error inconsistentAnswer

/-- The branch bindings that requirements on a package are read with; the root has none. -/
def bindings (key : PackageKey) : SortedMap String String :=
  if key = request.root then SortedMap.empty
  else
    match answers (actualKey request key) with
    | .ok set => set.branches
    | .error _ => SortedMap.empty

/-- A requirement that a selection, or the root's development, places on a package. -/
def Demanded (selection : Selection Version Req) (key : PackageKey)
    (requirement : PackageRequirement Req) : Prop :=
  unify request requirement.package = key ∧
    ((∃ origin candidate, selection.get origin = some candidate ∧
        requirement ∈ candidate.dependencies.values) ∨
      requirement ∈ request.candidate.development.values)

/-- A package reached from the root over normal dependencies and the root's development ones. -/
inductive Reached (selection : Selection Version Req) : PackageKey → Prop
  | root : Reached selection request.root
  | development {requirement : PackageRequirement Req} :
    requirement ∈ request.candidate.development.values →
      Reached selection (unify request requirement.package)
  | dependency {key : PackageKey} {candidate : PackageCandidate Version Req}
    {requirement : PackageRequirement Req} :
    Reached selection key → selection.get key = some candidate →
      requirement ∈ candidate.dependencies.values →
      Reached selection (unify request requirement.package)

/-- A candidate that the provider offers for a package, eligible, and of the replacement where the
package is overridden. -/
structure Offered (key : PackageKey) (candidate : PackageCandidate Version Req) : Prop where
  /-- The provider lists it. -/
  listed : ∃ set, answers (actualKey request key) = .ok set ∧ candidate ∈ set.candidates
  /-- It supports the compiler and the target. -/
  eligible : eligible outside request candidate = true
  /-- It meets the override of the package. -/
  replaced : ∀ replacement, request.overrides.get key = some replacement →
    matchesSelector outside candidate replacement.selector (bindings answers request key) = true

/-- A valid graph of a request. -/
structure Valid (selection : Selection Version Req) : Prop where
  /-- The root is selected as it is. -/
  root : selection.get request.root = some request.candidate
  /-- The root is eligible. -/
  rootEligible : eligible outside request request.candidate = true
  /-- The root meets the override that stands for it. -/
  rootReplaced : rootReplaced outside request request.candidate SortedMap.empty = false
  /-- Every other package is one the provider offers. -/
  offered : ∀ key candidate, selection.get key = some candidate → key ≠ request.root →
    Offered outside answers request key candidate
  /-- Every selected package meets every requirement placed on it. -/
  satisfied : ∀ key candidate requirement, selection.get key = some candidate →
    Demanded request selection key requirement →
    satisfies outside request candidate requirement (bindings answers request key) = true
  /-- Every required package is selected. -/
  closed : ∀ key requirement, Demanded request selection key requirement → key ∈ selection.keys
  /-- Every selected package is reached from the root. -/
  reached : ∀ key ∈ selection.keys, Reached request selection key
  /-- The normal dependencies have no cycle. -/
  acyclic : Topological.Acyclic selection.keys (dependenciesOf request selection)

/-- The selection has every target of an update. -/
def HasTargets (selection : Selection Version Req) : Prop :=
  ∀ key ∈ requiredTargets request, key ∈ selection.keys

/-- Wherever the selection has a pinned package, it has the pinned source and version. -/
def Respects (fixed : SortedMap PackageKey (PackagePin Version))
    (selection : Selection Version Req) : Prop :=
  ∀ key pin candidate, fixed.get key = some pin → selection.get key = some candidate →
    pin.matches candidate = true

/-- One selection has all that another has. -/
def Extends (selection whole : Selection Version Req) : Prop :=
  ∀ key candidate, selection.get key = some candidate → whole.get key = some candidate

end Graphs

section Demands

variable {request : ResolutionRequest Version Req}

omit [LinearOrder Version] [DecidableEq Req] in
/-- The requirements on a package after adding some. -/
theorem mem_requires {key : PackageKey} {requirement : PackageRequirement Req} :
    ∀ (list : List (PackageRequirement Req))
      (required : SortedMap PackageKey (List (PackageRequirement Req))),
    requirement ∈ ((list.foldl (require request) required).get key).getD [] ↔
      requirement ∈ (required.get key).getD [] ∨
        unify request requirement.package = key ∧ requirement ∈ list
  | [], required => by simp
  | first :: rest, required => by
    rw [List.foldl_cons, mem_requires rest, require, SortedMap.get_insert, List.mem_cons]
    by_cases same : key = unify request first.package
    · rw [if_pos same, same]
      simp only [Option.getD_some, List.mem_append, List.mem_singleton]
      constructor
      · rintro ((held | rfl) | ⟨target, later⟩)
        · exact .inl held
        · exact .inr ⟨rfl, .inl rfl⟩
        · exact .inr ⟨target, .inr later⟩
      · rintro (held | ⟨target, rfl | later⟩)
        · exact .inl (.inl held)
        · exact .inl (.inr rfl)
        · exact .inr ⟨target, later⟩
    · rw [if_neg same]
      constructor
      · rintro (held | ⟨target, later⟩)
        · exact .inl held
        · exact .inr ⟨target, .inr later⟩
      · rintro (held | ⟨target, rfl | later⟩)
        · exact .inl held
        · exact absurd target.symm same
        · exact .inr ⟨target, later⟩

omit [LinearOrder Version] [DecidableEq Req] in
/-- The requirements of the dependencies of several candidates. -/
theorem mem_requiresAll {key : PackageKey} {requirement : PackageRequirement Req} :
    ∀ (list : List (PackageCandidate Version Req))
      (required : SortedMap PackageKey (List (PackageRequirement Req))),
    requirement ∈ ((list.foldl (fun required candidate =>
        candidate.dependencies.values.foldl (require request) required) required).get key).getD [] ↔
      requirement ∈ (required.get key).getD [] ∨
        unify request requirement.package = key ∧
          ∃ candidate ∈ list, requirement ∈ candidate.dependencies.values
  | [], required => by simp
  | first :: rest, required => by
    rw [List.foldl_cons, mem_requiresAll rest, mem_requires]
    constructor
    · rintro ((held | ⟨target, here⟩) | ⟨target, candidate, later, inside⟩)
      · exact .inl held
      · exact .inr ⟨target, first, List.mem_cons_self, here⟩
      · exact .inr ⟨target, candidate, List.mem_cons_of_mem _ later, inside⟩
    · rintro (held | ⟨target, candidate, member, inside⟩)
      · exact .inl (.inl held)
      · rcases List.mem_cons.mp member with rfl | later
        · exact .inl (.inr ⟨target, inside⟩)
        · exact .inr ⟨target, candidate, later, inside⟩

omit [LinearOrder Version] [DecidableEq Req] in
/-- The collected requirements are those that are placed. -/
theorem mem_requirements {selection : Selection Version Req} {key : PackageKey}
    {requirement : PackageRequirement Req} :
    requirement ∈ ((requirements request selection).get key).getD [] ↔
      Demanded request selection key requirement := by
  rw [requirements, mem_requires, mem_requiresAll]
  unfold Demanded
  simp only [SortedMap.get_empty, Option.getD_none, List.not_mem_nil, false_or,
    SortedMap.mem_values]
  constructor
  · rintro (⟨target, candidate, ⟨origin, held⟩, inside⟩ | ⟨target, inside⟩)
    · exact ⟨target, .inl ⟨origin, candidate, held, inside⟩⟩
    · exact ⟨target, .inr inside⟩
  · rintro ⟨target, ⟨origin, candidate, held, inside⟩ | inside⟩
    · exact .inl ⟨target, candidate, ⟨origin, held⟩, inside⟩
    · exact .inr ⟨target, inside⟩

omit [LinearOrder Version] [DecidableEq Req] in
/-- A package has an entry of requirements only with requirements in it. -/
theorem requires_nonempty {key : PackageKey} : ∀ (list : List (PackageRequirement Req))
    (required : SortedMap PackageKey (List (PackageRequirement Req))),
    (∀ demands, required.get key = some demands → demands ≠ []) →
    ∀ demands, (list.foldl (require request) required).get key = some demands → demands ≠ []
  | [], _, start => start
  | first :: rest, required, start => by
    refine requires_nonempty rest _ ?_
    intro demands held
    rw [require, SortedMap.get_insert] at held
    by_cases same : key = unify request first.package
    · rw [if_pos same, Option.some_inj] at held
      rw [← held]
      simp
    · rw [if_neg same] at held
      exact start demands held

omit [LinearOrder Version] [DecidableEq Req] in
/-- A package is among the required ones exactly when a requirement is placed on it. -/
theorem mem_requirements_keys {selection : Selection Version Req} {key : PackageKey} :
    key ∈ (requirements request selection).keys ↔
      ∃ requirement, Demanded request selection key requirement := by
  have nonempty : ∀ demands, (requirements request selection).get key = some demands →
      demands ≠ [] := by
    apply requires_nonempty
    suffices all : ∀ (list : List (PackageCandidate Version Req))
        (required : SortedMap PackageKey (List (PackageRequirement Req))),
        (∀ demands, required.get key = some demands → demands ≠ []) → ∀ demands,
        (list.foldl (fun required candidate =>
          candidate.dependencies.values.foldl (require request) required) required).get key =
            some demands → demands ≠ [] by
      exact all _ _ (by simp)
    intro list
    induction list with
    | nil => exact fun _ start => start
    | cons first rest induct =>
      intro required start
      exact induct _ (requires_nonempty _ required start)
  rw [SortedMap.mem_keys]
  constructor
  · rintro ⟨demands, held⟩
    obtain ⟨requirement, member⟩ := List.exists_mem_of_ne_nil _ (nonempty demands held)
    refine ⟨requirement, mem_requirements.mp ?_⟩
    rw [held]
    exact member
  · rintro ⟨requirement, demanded⟩
    have member := mem_requirements.mpr demanded
    cases held : (requirements request selection).get key with
    | none =>
      rw [held] at member
      exact absurd member List.not_mem_nil
    | some demands => exact ⟨demands, rfl⟩

end Demands

end Fai.Package
