import FaiVerif.Lib.Topological
import FaiVerif.Package.Model
import Mathlib.Data.List.Sort

/-!
# Package resolution

The backtracking search of `fai-package/src/resolver.rs`. The resolver keeps the candidates it last
asked for each package, and the last conflict it met; both are passed along here. An error ends the
whole resolution.
-/

namespace Fai.Package

variable {Version Req : Type} [LinearOrder Version] [DecidableEq Req]

/-- What the resolver uses from outside: requirement matching, and the texts of diagnostics. -/
structure Outside (Version Req : Type) where
  /-- Whether a requirement admits a version. -/
  admits : Req → Version → Bool
  /-- The debug text of a selector. -/
  showSelector : PackageSelector Req → String
  /-- The debug text of a key. -/
  showKey : PackageKey → String
  /-- The debug text of a source. -/
  showSource : PackageSource → String
  /-- The display of a version. -/
  showVersion : Version → String

/-- What a provider is asked for. -/
structure Query (Version Req : Type) where
  /-- The package. -/
  package : PackageKey
  /-- The selectors of the requirements on it. -/
  selectors : List (PackageSelector Req)
  /-- Its pin. -/
  pin : Option (PackagePin Version)
  /-- Whether mutable references are refreshed. -/
  refresh : Bool

/-- A source provider: its answer to a query, after the queries asked before. -/
abbrev Provider (Version Req : Type) :=
  List (Query Version Req) → Query Version Req →
    Except ProviderFailure (CandidateSet Version Req)

/-- Remove repeated neighbours. -/
def dedup {α : Type} [DecidableEq α] : List α → List α
  | [] => []
  | [a] => [a]
  | a :: b :: rest => if a = b then dedup (b :: rest) else a :: dedup (b :: rest)

/-- Checks one source selector against candidate and branch metadata. -/
def matchesSelector (outside : Outside Version Req) (candidate : PackageCandidate Version Req)
    (selector : PackageSelector Req) (branches : SortedMap String String) : Bool :=
  match selector with
  | .version requirement => candidate.released && outside.admits requirement candidate.version
  | .path requirement =>
    match candidate.source with
    | .path _ => requirement.all fun requirement => outside.admits requirement candidate.version
    | .git _ _ => false
  | .revision revision =>
    match candidate.source with
    | .git _ selected => decide (revision = selected)
    | .path _ => false
  | .branch branch =>
    match candidate.source with
    | .git _ revision => decide (branches.get branch = some revision)
    | .path _ => false

/-- A candidate comes from the package that was asked for. -/
def sameSource (actual : PackageKey) (candidate : PackageCandidate Version Req) : Bool :=
  match actual, candidate.source with
  | .git expected, .git package _ => decide (expected = package)
  | .path expected, .path path => decide (expected = path)
  | _, _ => false

/-- Every candidate comes from the package, and no two candidates of one source differ. -/
def consistentSources (actual : PackageKey) : List (PackageCandidate Version Req) →
    SortedMap PackageSource (PackageCandidate Version Req) → Bool
  | [], _ => true
  | candidate :: rest, sources =>
    if !sameSource actual candidate ||
        (sources.get candidate.source).any fun previous => !decide (previous = candidate) then false
    else consistentSources actual rest (sources.insert candidate.source candidate)

/-- The newest version first, then by source. -/
def NewestFirst (left right : PackageCandidate Version Req) : Prop :=
  right.version < left.version ∨ left.version = right.version ∧ left.source ≤ right.source

instance : DecidableRel (@NewestFirst Version Req _) := fun left right =>
  inferInstanceAs (Decidable (right.version < left.version ∨
    left.version = right.version ∧ left.source ≤ right.source))

/-- What the resolver remembers. -/
structure Memory (Version Req : Type) where
  /-- For each package the last selectors asked for, with the answer. -/
  cache : SortedMap PackageKey (List (PackageSelector Req) × CandidateSet Version Req)
  /-- The last conflict met. -/
  conflict : ResolutionConflict Req
  /-- The queries that the provider has answered. -/
  asked : List (Query Version Req)

/-- A computation of the resolver. -/
abbrev Resolving (Version Req : Type) :=
  StateT (Memory Version Req) (Except (ResolutionError Req))

/-- Record a conflict. -/
def blame (conflict : ResolutionConflict Req) : Resolving Version Req Unit :=
  modify fun memory => { memory with conflict }

/-- The conflict of a search that is too deep. -/
def depthLimit : ResolutionConflict Req :=
  ⟨[], "dependency search exceeds 256 package decisions"⟩

/-- The deepest search. -/
def maximumDepth : Nat := 256

section Resolver

variable (outside : Outside Version Req) (provider : Provider Version Req)
  (request : ResolutionRequest Version Req)

/-- The overridden packages whose replacement is the root's own directory. -/
def rootAliases : List PackageKey :=
  (request.overrides.entries.filter fun entry =>
    match entry.2.package, request.candidate.source with
    | .path path, .path root => decide (path = root)
    | _, _ => false).map Prod.fst

/-- The overridden package that stands for the root. -/
def rootAlias : Option PackageKey := (rootAliases request).head?

/-- The packages an update must keep in the graph. -/
def requiredTargets : List PackageKey :=
  match request.policy with
  | .update targets => targets.keys
  | _ => []

/-- The key that a requirement's package goes by. -/
def unify (key : PackageKey) : PackageKey :=
  if rootAlias request = some key then request.root else key

/-- Whether a candidate supports the compiler and the target. -/
def eligible (candidate : PackageCandidate Version Req) : Bool :=
  outside.admits candidate.compiler request.compiler &&
    (candidate.platforms.isEmpty ||
      candidate.platforms.any fun predicate => predicate.matches request.target)

/-- Add a requirement to those of its package. -/
def require (required : SortedMap PackageKey (List (PackageRequirement Req)))
    (requirement : PackageRequirement Req) :
    SortedMap PackageKey (List (PackageRequirement Req)) :=
  required.insert (unify request requirement.package)
    ((required.get (unify request requirement.package)).getD [] ++ [requirement])

/-- The requirements on each package. -/
def requirements (selected : SortedMap PackageKey (PackageCandidate Version Req)) :
    SortedMap PackageKey (List (PackageRequirement Req)) :=
  request.candidate.development.values.foldl (require request)
    (selected.values.foldl
      (fun required candidate => candidate.dependencies.values.foldl (require request) required)
      SortedMap.empty)

/-- The package that is asked for in place of a key. -/
def actualKey (key : PackageKey) : PackageKey :=
  match request.overrides.get key with
  | some replacement => replacement.package
  | none => key

/-- The selectors of the requirements on a package, or that of its override. -/
def requestedSelectors (key : PackageKey) (required : List (PackageRequirement Req)) :
    List (PackageSelector Req) :=
  match request.overrides.get key with
  | some replacement => [replacement.selector]
  | none => required.map fun requirement => requirement.selector

/-- The selectors asked for, each once in the order of their texts. -/
def selectorsFor (key : PackageKey) (required : List (PackageRequirement Req)) :
    List (PackageSelector Req) :=
  dedup ((requestedSelectors request key required).insertionSort fun a b =>
    outside.showSelector a ≤ outside.showSelector b)

/-- Whether mutable references of a package are refreshed. -/
def refreshFor (key : PackageKey) : Bool :=
  match request.policy with
  | .conservative => false
  | .updateAll => true
  | .update targets => targets.contains key

/-- The pin of a key, when it pins the package that is asked for. -/
def pinFor (key : PackageKey) : Option (PackagePin Version) :=
  (request.pins.get key).filter fun pin =>
    match pin.source, actualKey request key with
    | .git package _, .git expected => decide (package = expected)
    | .path path, .path expected => decide (path = expected)
    | _, _ => false

/-- An answer with only the eligible candidates, the newest first, each once. -/
def arrange (set : CandidateSet Version Req) : CandidateSet Version Req :=
  ⟨dedup ((set.candidates.filter (eligible outside request)).insertionSort NewestFirst),
    set.branches⟩

/-- The failure of a provider whose answer is inconsistent. -/
def inconsistentAnswer : ProviderFailure :=
  ⟨"FAI0811", "source provider returned inconsistent package identity or metadata"⟩

/-- The query for a package. -/
def queryFor (key : PackageKey) (selectors : List (PackageSelector Req)) : Query Version Req :=
  ⟨actualKey request key, selectors, pinFor request key, refreshFor request key⟩

/-- Keep the answer to a query. -/
def Memory.keep (memory : Memory Version Req) (key : PackageKey)
    (selectors : List (PackageSelector Req)) (set : CandidateSet Version Req) :
    Memory Version Req :=
  { memory with
    cache := memory.cache.insert key (selectors, set)
    asked := memory.asked ++ [queryFor request key selectors] }

/-- Check and arrange an answer, and remember it. -/
def accept (key : PackageKey) (selectors : List (PackageSelector Req)) :
    Except ProviderFailure (CandidateSet Version Req) →
      Resolving Version Req (CandidateSet Version Req)
  | .error failure => throw (.provider failure)
  | .ok set =>
    if consistentSources (actualKey request key) set.candidates SortedMap.empty then do
      modify fun memory => memory.keep request key selectors (arrange outside request set)
      pure (arrange outside request set)
    else throw (.provider inconsistentAnswer)

/-- Ask the provider. -/
def ask (key : PackageKey) (selectors : List (PackageSelector Req)) :
    Resolving Version Req (CandidateSet Version Req) := do
  let memory ← get
  accept outside request key selectors (provider memory.asked (queryFor request key selectors))

/-- The remembered candidates when the same selectors were asked for last, else those asked for
anew. -/
def recallOrAsk (key : PackageKey) (selectors : List (PackageSelector Req)) :
    Option (List (PackageSelector Req) × CandidateSet Version Req) →
      Resolving Version Req (CandidateSet Version Req)
  | some (previous, set) =>
    if previous = selectors then pure set else ask outside provider request key selectors
  | none => ask outside provider request key selectors

/-- The candidates of a package. -/
def candidateSet (key : PackageKey) (required : List (PackageRequirement Req)) :
    Resolving Version Req (CandidateSet Version Req) := do
  let memory ← get
  recallOrAsk outside provider request key (selectorsFor outside request key required)
    (memory.cache.get key)

/-- Whether a candidate meets a requirement; of an overridden package only the version counts. -/
def satisfies (candidate : PackageCandidate Version Req) (requirement : PackageRequirement Req)
    (branches : SortedMap String String) : Bool :=
  if request.overrides.contains requirement.package then
    match requirement.selector with
    | .version version => outside.admits version candidate.version
    | .path (some version) => outside.admits version candidate.version
    | _ => true
  else matchesSelector outside candidate requirement.selector branches

/-- Whether a pin excludes a candidate. -/
def excluded (fixed : SortedMap PackageKey (PackagePin Version)) (key : PackageKey)
    (candidate : PackageCandidate Version Req) : Bool :=
  (fixed.get key).any fun pin => !pin.matches candidate

/-- Whether the root fails the selector of the override that stands for it. -/
def rootReplaced (candidate : PackageCandidate Version Req) (branches : SortedMap String String) :
    Bool :=
  ((rootAlias request).bind request.overrides.get).any fun replacement =>
    !matchesSelector outside candidate replacement.selector branches

/-- The conflict of a selected candidate that requirements exclude. -/
def cannotUse (key : PackageKey) (required : List (PackageRequirement Req))
    (candidate : PackageCandidate Version Req) : ResolutionConflict Req :=
  ⟨required, "requirements for " ++ outside.showKey key ++ " cannot use version " ++
    outside.showVersion candidate.version ++ " from " ++ outside.showSource candidate.source⟩

/-- The branch bindings of a selected package; the root has none. -/
def bindingsOf (key : PackageKey) (demands : List (PackageRequirement Req)) :
    Resolving Version Req (SortedMap String String) :=
  if key = request.root then pure SortedMap.empty
  else do
    let set ← candidateSet outside provider request key demands
    pure set.branches

/-- Whether a selected candidate fails a pin, a requirement or, for the root, its override. -/
def fails (fixed : SortedMap PackageKey (PackagePin Version)) (key : PackageKey)
    (demands : List (PackageRequirement Req)) (branches : SortedMap String String)
    (candidate : PackageCandidate Version Req) : Bool :=
  excluded fixed key candidate ||
    (demands.any fun requirement => !satisfies outside request candidate requirement branches) ||
    (decide (key = request.root) && rootReplaced outside request candidate branches)

/-- Check the selected candidates in key order; the first that fails is the conflict. -/
def checkSelected (required : SortedMap PackageKey (List (PackageRequirement Req)))
    (fixed : SortedMap PackageKey (PackagePin Version)) :
    List (PackageKey × PackageCandidate Version Req) → Resolving Version Req Bool
  | [] => pure true
  | (key, candidate) :: rest => do
    let branches ← bindingsOf outside provider request key ((required.get key).getD [])
    if fails outside request fixed key ((required.get key).getD []) branches candidate then do
      blame (cannotUse outside key ((required.get key).getD []) candidate)
      pure false
    else checkSelected required fixed rest

/-- The packages that a selected package's normal dependencies lead to. -/
def dependenciesOf (packages : SortedMap PackageKey (PackageCandidate Version Req))
    (key : PackageKey) : List PackageKey :=
  match packages.get key with
  | none => []
  | some candidate =>
    candidate.dependencies.values.map fun requirement => unify request requirement.package

/-- Whether the normal dependencies of the packages form a cycle: whether packages are left when
those without incoming dependencies are removed again and again. -/
def hasCycle (packages : SortedMap PackageKey (PackageCandidate Version Req)) : Bool :=
  let edges := dependenciesOf request packages
  let incoming := Topological.incomingOf packages.keys edges
  Topological.drain edges packages.size incoming (Topological.readyOf incoming) 0 !=
    some packages.size

/-- Direct dependencies of the root come first, then its development ones, then the others. -/
def rank (key : PackageKey) : Nat :=
  if request.candidate.dependencies.values.any fun requirement =>
      decide (unify request requirement.package = key) then 0
  else if request.candidate.development.values.any fun requirement =>
      decide (unify request requirement.package = key) then 1
  else 2

/-- The one of two packages to decide first: the lesser rank and then the lesser key. -/
def nearer (best : Option PackageKey) (key : PackageKey) : Option PackageKey :=
  match best with
  | none => some key
  | some least =>
    if rank request key < rank request least ∨
        rank request key = rank request least ∧ key < least then some key
    else some least

/-- The package to decide next. -/
def nextKey (required : SortedMap PackageKey (List (PackageRequirement Req)))
    (selected : SortedMap PackageKey (PackageCandidate Version Req)) : Option PackageKey :=
  (required.keys.filter fun key => !selected.contains key).foldl (nearer request) none

/-- The edges of a selection. -/
def edgesOf (packages : SortedMap PackageKey (PackageCandidate Version Req)) : List ResolvedEdge :=
  (packages.entries.flatMap fun entry =>
    entry.2.dependencies.entries.map fun dependency =>
      ⟨some entry.1, dependency.1, unify request dependency.2.package⟩) ++
  request.candidate.development.entries.map fun dependency =>
    ⟨none, dependency.1, unify request dependency.2.package⟩

/-- The bindings of the branches that are asked for. -/
def usedBranches (key : PackageKey) (required : List (PackageRequirement Req))
    (branches : SortedMap String String) : SortedMap String String :=
  SortedMap.ofList ((requestedSelectors request key required).filterMap fun selector =>
    match selector with
    | .branch branch => (branches.get branch).map fun revision => (branch, revision)
    | _ => none)

/-- The branch bindings of a selection, as they are remembered. -/
def branchesOf (packages : SortedMap PackageKey (PackageCandidate Version Req))
    (remembered : PackageKey → Option (SortedMap String String)) :
    SortedMap PackageKey (SortedMap String String) :=
  SortedMap.ofList ((requirements request packages).entries.filterMap fun entry =>
    match remembered entry.1 with
    | none => none
    | some branches =>
      let used := usedBranches request entry.1 entry.2 branches
      if used.entries.isEmpty then none else some (entry.1, used))

/-- The resolved graph of a selection. -/
def graph (packages : SortedMap PackageKey (PackageCandidate Version Req))
    (remembered : PackageKey → Option (SortedMap String String)) : ResolvedGraph Version Req :=
  ⟨request.root, packages, edgesOf request packages, branchesOf request packages remembered⟩

/-- The branch bindings in the cache. -/
def Memory.branches (memory : Memory Version Req) (key : PackageKey) :
    Option (SortedMap String String) :=
  (memory.cache.get key).map fun entry => entry.2.branches

/-- The conflict of a cycle. -/
def cyclic (required : SortedMap PackageKey (List (PackageRequirement Req))) :
    ResolutionConflict Req :=
  ⟨required.values.flatten, "normal package dependencies form a cycle"⟩

/-- The conflict of a package without a usable source. -/
def noSource (required : SortedMap PackageKey (List (PackageRequirement Req)))
    (key : PackageKey) : ResolutionConflict Req :=
  ⟨required.values.flatten, "no source for " ++ outside.showKey key ++
    " satisfies all required selectors on " ++ request.target.triple ++ " with compiler " ++
    outside.showVersion request.compiler⟩

/-- Whether a candidate may be chosen for a package. -/
def acceptable (fixed : SortedMap PackageKey (PackagePin Version)) (key : PackageKey)
    (demands : List (PackageRequirement Req)) (branches : SortedMap String String)
    (candidate : PackageCandidate Version Req) : Bool :=
  !(excluded fixed key candidate ||
    (demands.any fun requirement => !satisfies outside request candidate requirement branches) ||
    (request.overrides.get key).any fun replacement =>
      !matchesSelector outside candidate replacement.selector branches)

/-- Try the candidates in order; whether any was attempted, and the first graph found. -/
def tryCandidates (choose : PackageCandidate Version Req →
      Resolving Version Req (Option (ResolvedGraph Version Req)))
    (accept : PackageCandidate Version Req → Bool) :
    List (PackageCandidate Version Req) → Bool →
      Resolving Version Req (Bool × Option (ResolvedGraph Version Req))
  | [], attempted => pure (attempted, none)
  | candidate :: rest, attempted =>
    if accept candidate then do
      let found ← choose candidate
      if found.isSome then pure (true, found) else tryCandidates choose accept rest true
    else tryCandidates choose accept rest attempted

/-- Decide a package by the first of its candidates that leads to a graph. -/
def decideKey (fixed : SortedMap PackageKey (PackagePin Version))
    (choose : SortedMap PackageKey (PackageCandidate Version Req) →
      Resolving Version Req (Option (ResolvedGraph Version Req)))
    (required : SortedMap PackageKey (List (PackageRequirement Req)))
    (selected : SortedMap PackageKey (PackageCandidate Version Req)) (key : PackageKey) :
    Resolving Version Req (Option (ResolvedGraph Version Req)) := do
  let set ← candidateSet outside provider request key ((required.get key).getD [])
  let (attempted, found) ← tryCandidates (fun candidate => choose (selected.insert key candidate))
    (acceptable outside request fixed key ((required.get key).getD []) set.branches)
    set.candidates false
  if attempted then pure found
  else do
    blame (noSource outside request required key)
    pure none

/-- The graph of a complete selection, when it has every target of an update. -/
def complete (selected : SortedMap PackageKey (PackageCandidate Version Req)) :
    Resolving Version Req (Option (ResolvedGraph Version Req)) :=
  if (requiredTargets request).any fun key => !selected.contains key then pure none
  else do
    let memory ← get
    pure (some (graph request selected memory.branches))

/-- Extend a selection to a complete graph, within a number of decisions. -/
def search (fixed : SortedMap PackageKey (PackagePin Version)) :
    Nat → SortedMap PackageKey (PackageCandidate Version Req) →
      Resolving Version Req (Option (ResolvedGraph Version Req))
  | 0, _ => throw (.conflict depthLimit)
  | decisions + 1, selected => do
    let passed ← checkSelected outside provider request (requirements request selected) fixed
      selected.entries
    if passed = false then pure none
    else if hasCycle request selected then do
      blame (cyclic (requirements request selected))
      pure none
    else
      match nextKey request (requirements request selected) selected with
      | none => complete request selected
      | some key =>
        decideKey outside provider request fixed (search fixed decisions)
          (requirements request selected) selected key

/-- The selection of the root alone. -/
def rootOnly : SortedMap PackageKey (PackageCandidate Version Req) :=
  SortedMap.empty.insert request.root request.candidate

/-- A search from the root. -/
def searchRoot (fixed : SortedMap PackageKey (PackagePin Version)) :
    Resolving Version Req (Option (ResolvedGraph Version Req)) :=
  search outside provider request fixed (maximumDepth + 1) (rootOnly request)

/-- Retain pins one after another while a graph remains. -/
def retainPins (fixed : SortedMap PackageKey (PackagePin Version)) :
    List (PackageKey × PackagePin Version) → SortedMap PackageKey (PackagePin Version) →
      ResolvedGraph Version Req → Resolving Version Req (ResolvedGraph Version Req)
  | [], _, best => pure best
  | (key, pin) :: rest, retained, best =>
    if key = request.root ∨ fixed.contains key = true then retainPins fixed rest retained best
    else do
      match ← searchRoot outside provider request (retained.insert key pin) with
      | some found => retainPins fixed rest (retained.insert key pin) found
      | none => retainPins fixed rest retained best

/-- Find a graph with the fixed selections that retains existing pins where possible. -/
def preferPins (fixed : SortedMap PackageKey (PackagePin Version)) :
    Resolving Version Req (Option (ResolvedGraph Version Req)) :=
  if request.policy = .updateAll then searchRoot outside provider request fixed
  else do
    match ← searchRoot outside provider request
      ((request.pins.remove request.root).insertAll fixed.entries) with
    | some found => pure (some found)
    | none =>
      match ← searchRoot outside provider request fixed with
      | none => pure none
      | some best =>
        let best ← retainPins outside provider request fixed request.pins.entries fixed best
        pure (some best)

/-- Fix the first candidate of a target for which a graph exists. -/
def fixTarget (key : PackageKey) (fixed : SortedMap PackageKey (PackagePin Version)) :
    List (PackageCandidate Version Req) →
      Resolving Version Req (Option (SortedMap PackageKey (PackagePin Version)))
  | [] => pure none
  | candidate :: rest => do
    let found ← preferPins outside provider request
      (fixed.insert key (PackagePin.candidate candidate))
    if found.any fun graph => graph.packages.contains key then
      pure (some (fixed.insert key (PackagePin.candidate candidate)))
    else fixTarget key fixed rest

/-- The conflict of a target that is not in the graph. -/
def notInGraph (key : PackageKey) : ResolutionConflict Req :=
  ⟨[], "requested update package " ++ outside.showKey key ++ " is not in the selected graph"⟩

/-- Fail with the last conflict met. -/
def giveUp {α : Type} : Resolving Version Req α := do
  let memory ← get
  throw (.conflict memory.conflict)

/-- Fix the targets of an update in key order. -/
def fixTargets (first : ResolvedGraph Version Req) : List PackageKey →
    SortedMap PackageKey (PackagePin Version) →
      Resolving Version Req (SortedMap PackageKey (PackagePin Version))
  | [], fixed => pure fixed
  | key :: rest, fixed =>
    if first.packages.contains key = false then throw (.conflict (notInGraph outside key))
    else if key = request.root then fixTargets first rest fixed
    else do
      let memory ← get
      match ← fixTarget outside provider request key fixed
        (((memory.cache.get key).map fun entry => entry.2.candidates).getD []) with
      | some fixed => fixTargets first rest fixed
      | none => giveUp

/-- The aliases that are both normal and development dependencies of the root. -/
def duplicateAlias : Option (ResolutionConflict Req) :=
  match request.candidate.dependencies.entries.find? fun entry =>
      request.candidate.development.contains entry.1 with
  | none => none
  | some entry =>
    some ⟨entry.2 :: ((request.candidate.development.get entry.1).toList),
      "duplicate active dependency alias `" ++ entry.1 ++ "`"⟩

/-- The conflict with which a request is rejected before any search. -/
def rejection : Option (ResolutionConflict Req) :=
  match duplicateAlias request with
  | some conflict => some conflict
  | none =>
    if (rootAliases request).length > 1 then
      some ⟨[], "multiple logical identities replace the selected root package"⟩
    else if eligible outside request request.candidate = false then
      some ⟨[], "the root does not support the selected compiler/platform"⟩
    else none

/-- The graph, or the last conflict when there is none. -/
def orGiveUp (found : Option (ResolvedGraph Version Req)) :
    Resolving Version Req (ResolvedGraph Version Req) :=
  match found with
  | some graph => pure graph
  | none => giveUp

/-- The selections that an update fixes. -/
def fixedSelections : Resolving Version Req (SortedMap PackageKey (PackagePin Version)) :=
  match request.policy with
  | .update targets => do
    let found ← searchRoot outside provider request SortedMap.empty
    let first ← orGiveUp found
    fixTargets outside provider request first targets.keys SortedMap.empty
  | _ => pure SortedMap.empty

/-- The resolution of a request that is not rejected. -/
def resolve : Resolving Version Req (ResolvedGraph Version Req) := do
  let fixed ← fixedSelections outside provider request
  let found ← preferPins outside provider request fixed
  orGiveUp found

/-- The memory of a new resolver. -/
def Memory.fresh : Memory Version Req :=
  ⟨SortedMap.empty, ⟨[], "no compatible dependency graph"⟩, []⟩

/-- Resolve one graph. -/
def resolveGraph : Except (ResolutionError Req) (ResolvedGraph Version Req) :=
  match rejection outside request with
  | some conflict => .error (.conflict conflict)
  | none => (resolve outside provider request).run' Memory.fresh

end Resolver

end Fai.Package
