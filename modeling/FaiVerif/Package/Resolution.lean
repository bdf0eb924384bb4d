import FaiVerif.Package.Preferences

/-!
# Resolution

The graph that a resolution returns is valid, and a conflict means that there is none. Pins and
newer versions are preferred as far as valid graphs allow, and neither the order in which a provider
lists its candidates nor what the resolver already remembers changes the outcome.
-/

namespace Fai.Package

open Agreeing

variable {Version Req : Type} [LinearOrder Version] [DecidableEq Req]

section Outcomes

variable {outside : Outside Version Req}
  {answers answers' : PackageKey → Except ProviderFailure (CandidateSet Version Req)}
  {request : ResolutionRequest Version Req} {provider provider' : Provider Version Req}
  {known : Set PackageKey} {first second : Memory Version Req}

variable (outside answers request) in
/-- The errors of a resolution: a search was stopped, or there is a conflict and no valid graph. -/
def Refuses (error : ResolutionError Req) : Prop :=
  Stops error ∨ ((∃ conflict, error = .conflict conflict) ∧
    ∀ whole, ¬Fits outside answers request SortedMap.empty whole)

variable (outside answers request) in
/-- The graph of a resolution. -/
structure Resolved (found : ResolvedGraph Version Req) : Prop where
  /-- The graph is valid and has every target. -/
  made : Found outside answers request SortedMap.empty found
  /-- No pin is given up without need. -/
  conservative : request.policy = .conservative →
    ∃ retained, Retains outside answers request SortedMap.empty request.pins.entries retained ∧
      Found outside answers request retained found
  /-- The targets are as new as possible. -/
  update : ∀ targets, request.policy = .update targets →
    ∃ fixed, Fixes outside answers request targets.keys fixed ∧
      Found outside answers request fixed found

/-- Two resolvers give up alike when no graph fits. -/
theorem orGiveUp_agree {good : ResolvedGraph Version Req → Memory Version Req →
      Memory Version Req → Prop} {found : Option (ResolvedGraph Version Req)}
    (paired : Paired outside answers request known first second)
    (some_case : ∀ graph, found = some graph → good graph first second)
    (none_case : found = none → ∀ whole, ¬Fits outside answers request SortedMap.empty whole) :
    Agree (Refuses outside answers request) good (orGiveUp found first)
      (orGiveUp found second) := by
  cases found with
  | some graph => exact agree_pure (some_case graph rfl)
  | none =>
    show Agree (Refuses outside answers request) good (.error (.conflict first.conflict))
      (.error (.conflict second.conflict))
    rw [paired.conflict]
    exact .failed _ (.inr ⟨⟨_, rfl⟩, none_case rfl⟩)

/-- Two resolvers fix the same selections before their last search. -/
theorem fixedSelections_agree (serves : Serves outside answers request provider)
    (serves' : Serves outside answers request provider')
    (supported : eligible outside request request.candidate = true)
    (paired : Paired outside answers request known first second) :
    Agree (Refuses outside answers request)
      (fun fixed first second => Paired outside answers request known first second ∧
        (request.policy = .conservative → fixed = SortedMap.empty) ∧
        (∀ targets, request.policy = .update targets →
          Fixes outside answers request targets.keys fixed) ∧
        ((∃ whole, Fits outside answers request SortedMap.empty whole) →
          ∃ whole, Fits outside answers request fixed whole))
      (fixedSelections outside provider request first)
      (fixedSelections outside provider' request second) := by
  cases policy : request.policy with
  | conservative =>
    simp only [fixedSelections, policy]
    exact agree_pure ⟨paired, fun _ => rfl, by simp, id⟩
  | updateAll =>
    simp only [fixedSelections, policy]
    exact agree_pure ⟨paired, by simp, by simp, id⟩
  | update targets =>
    simp only [fixedSelections, policy]
    have stops : ∀ error : ResolutionError Req, Stops error →
        Refuses outside answers request error := fun _ => .inl
    refine agree_bind ((searchRoot_agree serves serves' supported SortedMap.empty paired).imp stops
      fun _ _ _ => id) ?_
    intro found first second searched
    have begun : Agree (Refuses outside answers request)
        (fun graph first second => Found outside answers request SortedMap.empty graph ∧
          Paired outside answers request
            (known ∪ {key | key ∈ graph.packages.keys ∧ key ≠ request.root}) first second)
        (orGiveUp found first) (orGiveUp found second) :=
      orGiveUp_agree searched.paired searched.graph searched.none
    refine agree_bind begun ?_
    rintro found first second ⟨made, held⟩
    have required : requiredTargets request = targets.keys := by rw [requiredTargets, policy]
    have start : Fixes outside answers request [] SortedMap.empty :=
      ⟨by simp, ⟨_, made.fits⟩, by simp⟩
    have ascending : targets.keys.Pairwise (· < ·) := by
      rw [SortedMap.keys, List.pairwise_map]
      exact targets.ascending
    refine ((fixTargets_agree serves serves' supported made.targets (fun key inside other =>
      .inr ⟨inside, other⟩) targets.keys [] SortedMap.empty first second ascending
      (fun key inside => required ▸ inside) start held).imp stops ?_)
    rintro fixed first second ⟨paired, fixes⟩
    refine ⟨paired.mono Set.subset_union_left, by simp, ?_, fun _ => fixes.possible⟩
    intro other same
    cases same
    exact fixes

/-- Two resolvers resolve a request alike. -/
theorem resolve_agree (serves : Serves outside answers request provider)
    (serves' : Serves outside answers request provider')
    (supported : eligible outside request request.candidate = true)
    (paired : Paired outside answers request known first second) :
    Agree (Refuses outside answers request)
      (fun found _ _ => Resolved outside answers request found)
      (resolve outside provider request first) (resolve outside provider' request second) := by
  refine agree_bind (fixedSelections_agree serves serves' supported paired) ?_
  rintro fixed first second ⟨paired, conservative, update, possible⟩
  refine agree_bind ((preferPins_agree serves serves' supported fixed paired).imp
    (fun _ => .inl) fun _ _ _ => id) ?_
  intro found first second preferred
  refine orGiveUp_agree preferred.paired ?_ ?_
  · intro graph same
    have made := preferred.made graph same
    refine ⟨made.mono (by simp), fun policy => ?_, fun targets policy => ?_⟩
    · rw [conservative policy] at preferred
      exact preferred.retained (by simp [policy]) graph same
    · exact ⟨fixed, update targets policy, made⟩
  · intro absent whole fits
    obtain ⟨remaining, fits⟩ := possible ⟨whole, fits⟩
    exact preferred.none absent remaining fits

end Outcomes

section Listings

variable {outside : Outside Version Req}
  {answers answers' : PackageKey → Except ProviderFailure (CandidateSet Version Req)}
  {request : ResolutionRequest Version Req}

/-- Two answers that differ at most in the order of the candidates. -/
inductive Relisted : Except ProviderFailure (CandidateSet Version Req) →
    Except ProviderFailure (CandidateSet Version Req) → Prop
  | failed (failure : ProviderFailure) : Relisted (.error failure) (.error failure)
  | listed {candidates candidates' : List (PackageCandidate Version Req)}
    (branches : SortedMap String String) : candidates.Perm candidates' →
      Relisted (.ok ⟨candidates, branches⟩) (.ok ⟨candidates', branches⟩)

/-- Two candidates of one source are the same. -/
def OfOneSource (a b : PackageCandidate Version Req) : Prop := a.source = b.source → a = b

instance : Std.Symm (OfOneSource : PackageCandidate Version Req → _ → Prop) where
  symm _ _ one equal := (one equal.symm).symm

/-- What the check of an answer requires. -/
theorem consistentSources_iff {actual : PackageKey} :
    ∀ {list : List (PackageCandidate Version Req)}
      {sources : SortedMap PackageSource (PackageCandidate Version Req)},
    consistentSources actual list sources = true ↔
      (∀ candidate ∈ list, sameSource actual candidate = true) ∧
      (∀ candidate ∈ list, ∀ previous, sources.get candidate.source = some previous →
        previous = candidate) ∧ list.Pairwise OfOneSource
  | [], sources => by simp [consistentSources]
  | candidate :: rest, sources => by
    rw [consistentSources, List.pairwise_cons]
    simp only [List.forall_mem_cons]
    by_cases fresh : ∀ previous, sources.get candidate.source = some previous →
        previous = candidate
    · have quiet : ((sources.get candidate.source).any fun previous =>
          !decide (previous = candidate)) = false := by
        cases held : sources.get candidate.source with
        | none => rfl
        | some previous => simp [fresh previous held]
      rw [quiet, Bool.or_false]
      by_cases same : sameSource actual candidate = true
      · rw [same, Bool.not_true, if_neg Bool.false_ne_true, consistentSources_iff]
        constructor
        · rintro ⟨sameRest, known, distinct⟩
          refine ⟨⟨rfl, sameRest⟩, ⟨fresh, fun other inside previous held => ?_⟩, ?_, distinct⟩
          · by_cases equal : other.source = candidate.source
            · have here := known other inside candidate (by rw [equal, SortedMap.get_insert_same])
              rw [equal] at held
              rw [← here]
              exact fresh previous held
            · exact known other inside previous (by rw [SortedMap.get_insert_other _ equal, held])
          · intro other inside equal
            exact known other inside candidate (by rw [← equal, SortedMap.get_insert_same])
        · rintro ⟨⟨_, sameRest⟩, ⟨_, known⟩, here, distinct⟩
          refine ⟨sameRest, fun other inside previous held => ?_, distinct⟩
          by_cases equal : other.source = candidate.source
          · rw [equal, SortedMap.get_insert_same, Option.some_inj] at held
            rw [← held]
            exact here other inside equal.symm
          · rw [SortedMap.get_insert_other _ equal] at held
            exact known other inside previous held
      · rw [Bool.not_eq_true] at same
        simp [same]
    · have loud : ((sources.get candidate.source).any fun previous =>
          !decide (previous = candidate)) = true := by
        simp only [not_forall] at fresh
        obtain ⟨previous, held, other⟩ := fresh
        simp [held, other]
      rw [loud, Bool.or_true, if_pos rfl]
      simp [fresh]

/-- The check does not depend on the order of the candidates. -/
theorem consistentSources_perm {actual : PackageKey}
    {list list' : List (PackageCandidate Version Req)} (permuted : list.Perm list') :
    consistentSources actual list SortedMap.empty =
      consistentSources actual list' SortedMap.empty := by
  rw [Bool.eq_iff_iff, consistentSources_iff, consistentSources_iff]
  simp only [permuted.mem_iff, permuted.pairwise_iff symm]

/-- The arrangement of a consistent answer does not depend on the order of its candidates. -/
theorem arrange_perm {actual : PackageKey} {list list' : List (PackageCandidate Version Req)}
    (branches : SortedMap String String) (permuted : list.Perm list')
    (consistent : consistentSources actual list SortedMap.empty = true) :
    arrange outside request ⟨list, branches⟩ = arrange outside request ⟨list', branches⟩ := by
  have distinct := (consistentSources_iff.mp consistent).2.2
  have one : ∀ a ∈ list, ∀ b ∈ list, OfOneSource a b := fun a aIn b bIn =>
    distinct.forall_of_forall (fun _ _ _ => rfl) aIn bIn
  have sorted : (list.filter (eligible outside request)).insertionSort NewestFirst =
      (list'.filter (eligible outside request)).insertionSort NewestFirst := by
    refine List.Perm.eq_of_pairwise ?_ (List.pairwise_insertionSort _ _)
      (List.pairwise_insertionSort _ _) ?_
    · intro a b aIn bIn before after
      rw [List.mem_insertionSort, List.mem_filter] at aIn bIn
      refine one a aIn.1 b (permuted.mem_iff.mpr bIn.1) ?_
      rcases before with newer | ⟨_, source⟩
      · rcases after with newer' | ⟨equal, _⟩
        · exact absurd newer (lt_asymm newer')
        · exact absurd equal (ne_of_lt newer)
      · rcases after with newer' | ⟨_, source'⟩
        · exact absurd newer' (not_lt_of_ge (le_of_eq ‹a.version = b.version›.symm))
        · exact le_antisymm source source'
    · exact ((List.perm_insertionSort _ _).trans (permuted.filter _)).trans
        (List.perm_insertionSort _ _).symm
  simp only [arrange, sorted]

/-- Answers listed in another order are arranged alike. -/
theorem answerFor_relisted (relisted : ∀ key, Relisted (answers key) (answers' key))
    (key : PackageKey) :
    answerFor outside answers request key = answerFor outside answers' request key := by
  have here := relisted (actualKey request key)
  rw [answerFor, answerFor]
  generalize answers (actualKey request key) = given at here
  generalize answers' (actualKey request key) = given' at here
  cases here with
  | failed => rfl
  | @listed list list' branches permuted =>
    simp only [consistentSources_perm permuted]
    by_cases consistent : consistentSources (actualKey request key) list' SortedMap.empty = true
    · have consistent' := (consistentSources_perm permuted).trans consistent
      rw [if_pos consistent, if_pos consistent, arrange_perm branches permuted consistent']
    · rw [if_neg consistent, if_neg consistent]

end Listings

section Main

variable {outside : Outside Version Req}
  {answers answers' : PackageKey → Except ProviderFailure (CandidateSet Version Req)}
  {request : ResolutionRequest Version Req} {provider provider' : Provider Version Req}

omit [LinearOrder Version] [DecidableEq Req] in
/-- A valid graph has exactly the packages reached from the root. -/
theorem Valid.mem_keys_iff {selection : Selection Version Req}
    (valid : Valid outside answers request selection) (key : PackageKey) :
    key ∈ selection.keys ↔ Reached request selection key := by
  constructor
  · exact valid.reached key
  · intro reached
    induction reached with
    | root => exact SortedMap.mem_keys.mpr ⟨_, valid.root⟩
    | development inside => exact valid.closed _ _ ⟨rfl, .inr inside⟩
    | dependency _ held inside _ => exact valid.closed _ _ ⟨rfl, .inl ⟨_, _, held, inside⟩⟩

/-- A new resolver remembers nothing. -/
theorem remembers_fresh : Remembers outside answers request ∅ Memory.fresh :=
  ⟨by simp [Memory.fresh], by simp⟩

/-- Two new resolvers. -/
theorem paired_fresh : Paired outside answers request ∅ Memory.fresh Memory.fresh :=
  ⟨remembers_fresh, remembers_fresh, rfl⟩

omit [LinearOrder Version] [DecidableEq Req] in
/-- The root of a request that is not rejected is eligible. -/
theorem eligible_of_rejection (accepted : rejection outside request = none) :
    eligible outside request request.candidate = true := by
  by_contra unsupported
  rw [rejection] at accepted
  cases duplicate : duplicateAlias request with
  | some conflict => simp [duplicate] at accepted
  | none =>
    rw [Bool.not_eq_true] at unsupported
    simp only [duplicate, unsupported, if_true] at accepted
    by_cases several : (rootAliases request).length > 1
    · simp [several] at accepted
    · simp [several] at accepted

/-- Resolving from a memory of answers gives a valid graph as it should be, or an error. -/
theorem run_resolve (serves : Serves outside answers request provider)
    (serves' : Serves outside answers request provider')
    (accepted : rejection outside request = none) {memory memory' : Memory Version Req}
    (paired : Paired outside answers request ∅ memory memory') :
    (resolve outside provider request).run' memory =
        (resolve outside provider' request).run' memory' ∧
      (∀ found, (resolve outside provider request).run' memory = .ok found →
        Resolved outside answers request found) ∧
      ∀ error, (resolve outside provider request).run' memory = .error error →
        Refuses outside answers request error := by
  have agree := resolve_agree serves serves' (eligible_of_rejection accepted) paired
  show Prod.fst <$> resolve outside provider request memory =
      Prod.fst <$> resolve outside provider' request memory' ∧
    (∀ found, Prod.fst <$> resolve outside provider request memory = .ok found → _) ∧
    ∀ error, Prod.fst <$> resolve outside provider request memory = .error error → _
  generalize resolve outside provider request memory = left at agree ⊢
  generalize resolve outside provider' request memory' = right at agree ⊢
  cases agree with
  | failed error refuses =>
    refine ⟨rfl, by simp, fun other same => ?_⟩
    cases same
    exact refuses
  | ended found after after' resolved =>
    refine ⟨rfl, fun other same => ?_, by simp⟩
    cases same
    exact resolved

/-- The graph of a successful resolution. -/
theorem resolved_of_ok (consistent : Answers answers provider) {found : ResolvedGraph Version Req}
    (done : resolveGraph outside provider request = .ok found) :
    Resolved outside answers request found := by
  have serves : Serves outside answers request provider := consistent.serves
  cases accepted : rejection outside request with
  | some conflict => simp [resolveGraph, accepted] at done
  | none =>
    simp only [resolveGraph, accepted] at done
    exact (run_resolve serves serves accepted paired_fresh).2.1 found done

/-- For a provider that answers consistently, a resolved graph has the root and exactly the packages
reached from it, each as it is offered and required and without cycles; and a conflict, other than
that of a rejected request or of a search too deep, means that no valid graph has every target. -/
theorem resolveGraph_sound_complete (consistent : Answers answers provider) :
    (∀ found, resolveGraph outside provider request = .ok found →
      found.root = request.root ∧ Valid outside answers request found.packages ∧
        HasTargets request found.packages ∧
        ∀ key, key ∈ found.packages.keys ↔ Reached request found.packages key) ∧
    ∀ conflict, resolveGraph outside provider request = .error (.conflict conflict) →
      rejection outside request = none → conflict ≠ depthLimit →
      ∀ whole, Valid outside answers request whole → ¬HasTargets request whole := by
  have serves : Serves outside answers request provider := consistent.serves
  constructor
  · intro found done
    have made := (resolved_of_ok consistent done).made
    refine ⟨?_, made.valid, made.targets, made.valid.mem_keys_iff⟩
    rw [made.shape]
    rfl
  · intro conflict failed accepted notDepth whole valid targets
    simp only [resolveGraph, accepted] at failed
    rcases (run_resolve serves serves accepted paired_fresh).2.2 _ failed
      with stops | ⟨_, impossible⟩
    · rcases stops with deep | ⟨failure, same⟩
      · cases deep
        exact notDepth rfl
      · cases same
    · exact impossible whole ⟨valid, respects_empty, targets⟩

/-- The pins that a conservative resolution retains: the others cannot be kept with them. -/
theorem Resolved.pins {found : ResolvedGraph Version Req}
    (resolved : Resolved outside answers request found) (policy : request.policy = .conservative) :
    ∃ retained : SortedMap PackageKey (PackagePin Version),
      (∀ key pin, retained.get key = some pin →
        request.pins.get key = some pin ∧ Keeps key pin found.packages) ∧
      ∀ key pin, request.pins.get key = some pin → ¬Keeps key pin found.packages →
        ∀ whole, Valid outside answers request whole → RespectsBefore key retained whole →
          ¬Keeps key pin whole := by
  obtain ⟨retained, retains, made⟩ := resolved.conservative policy
  have kept : ∀ key pin, retained.get key = some pin → Keeps key pin found.packages :=
    fun key pin held candidate selected => made.respects key pin candidate held selected
  refine ⟨retained, fun key pin held => ⟨?_, kept key pin held⟩, ?_⟩
  · exact SortedMap.get_eq_some.mpr (retains.pinned key pin held rfl)
  · intro key pin held given whole valid respects keeps
    by_cases root : key = request.root
    · refine given fun candidate selected => keeps candidate ?_
      rw [root] at selected ⊢
      rw [← selected, made.valid.root, valid.root]
    · have fits : Fits outside answers request SortedMap.empty whole := by
        refine ⟨valid, respects_empty, fun key target => ?_⟩
        rw [requiredTargets, policy] at target
        exact absurd target List.not_mem_nil
      rcases retains.needed key pin (SortedMap.get_eq_some.mp held) root rfl with retained | needed
      · exact given (kept key pin retained)
      · exact needed whole fits respects keeps

omit [DecidableEq Req] in
/-- A pin that matches two candidates gives them one source and version. -/
theorem matches_iff {pin : PackagePin Version} {candidate : PackageCandidate Version Req} :
    pin.matches candidate = true ↔
      pin.source = candidate.source ∧ pin.version = candidate.version := by
  rw [PackagePin.matches, Bool.and_eq_true, beq_iff_eq, beq_iff_eq]

/-- Each target of an update is as new as in any valid graph with every target that has the same
sources and versions of the targets before it. -/
theorem Resolved.targets {found : ResolvedGraph Version Req}
    (resolved : Resolved outside answers request found) {targets : SortedMap PackageKey Unit}
    (policy : request.policy = .update targets) {key : PackageKey} (target : key ∈ targets.keys) :
    ∃ chosen, found.packages.get key = some chosen ∧
      ∀ whole candidate, Valid outside answers request whole → HasTargets request whole →
        (∀ earlier mine other, earlier ∈ targets.keys → earlier < key →
          found.packages.get earlier = some mine → whole.get earlier = some other →
          other.source = mine.source ∧ other.version = mine.version) →
        whole.get key = some candidate → candidate.version ≤ chosen.version := by
  obtain ⟨fixed, fixes, made⟩ := resolved.update targets policy
  have required : requiredTargets request = targets.keys := by rw [requiredTargets, policy]
  have present : ∀ key ∈ targets.keys, ∃ candidate, found.packages.get key = some candidate :=
    fun key inside => SortedMap.mem_keys.mp (made.targets key (required ▸ inside))
  obtain ⟨chosen, selected⟩ := present key target
  refine ⟨chosen, selected, fun whole candidate valid hasTargets same held => ?_⟩
  by_cases root : key = request.root
  · rw [root, valid.root, Option.some_inj] at held
    rw [root, made.valid.root, Option.some_inj] at selected
    rw [← held, ← selected]
  · obtain ⟨pin, fix, newest⟩ := fixes.newest key target root
    have version := (matches_iff.mp (made.respects key pin chosen fix selected)).2
    rw [← version]
    refine newest whole candidate ⟨valid, respects_empty, hasTargets⟩ ?_ held
    intro earlier earlierPin less earlierFix other otherHeld
    have inside := fixes.only earlier earlierPin earlierFix
    obtain ⟨mine, mineHeld⟩ := present earlier inside
    obtain ⟨source, version⟩ :=
      matches_iff.mp (made.respects earlier earlierPin mine earlierFix mineHeld)
    obtain ⟨sameSource, sameVersion⟩ := same earlier mine other inside less mineHeld otherHeld
    exact matches_iff.mpr ⟨source.trans sameSource.symm, version.trans sameVersion.symm⟩

/-- For a provider that answers consistently: a conservative resolution gives a pin up only when no
valid graph keeps it with the pins retained before it, so all are kept when they can be; an update
takes of each target, in key order, the newest version that a valid graph with every target has next
to the targets before it; and the outcome depends neither on the order in which candidates are
listed nor on the answers already remembered. -/
theorem resolveGraph_preferences (consistent : Answers answers provider)
    (consistent' : Answers answers' provider')
    (relisted : ∀ key, Relisted (answers key) (answers' key)) :
    (∀ found, resolveGraph outside provider request = .ok found →
      request.policy = .conservative →
      (∃ retained : SortedMap PackageKey (PackagePin Version),
        (∀ key pin, retained.get key = some pin →
          request.pins.get key = some pin ∧ Keeps key pin found.packages) ∧
        ∀ key pin, request.pins.get key = some pin → ¬Keeps key pin found.packages →
          ∀ whole, Valid outside answers request whole → RespectsBefore key retained whole →
            ¬Keeps key pin whole) ∧
      ((∃ whole, Valid outside answers request whole ∧ Respects request.pins whole) →
        Respects request.pins found.packages)) ∧
    (∀ found targets, resolveGraph outside provider request = .ok found →
      request.policy = .update targets → ∀ key ∈ targets.keys,
      ∃ chosen, found.packages.get key = some chosen ∧
        ∀ whole candidate, Valid outside answers request whole → HasTargets request whole →
          (∀ earlier mine other, earlier ∈ targets.keys → earlier < key →
            found.packages.get earlier = some mine → whole.get earlier = some other →
            other.source = mine.source ∧ other.version = mine.version) →
          whole.get key = some candidate → candidate.version ≤ chosen.version) ∧
    resolveGraph outside provider' request = resolveGraph outside provider request ∧
    ∀ memory, Remembers outside answers request ∅ memory →
      memory.conflict = (Memory.fresh : Memory Version Req).conflict →
      rejection outside request = none →
      (resolve outside provider request).run' memory = resolveGraph outside provider request := by
  have serves : Serves outside answers request provider := consistent.serves
  have serves' : Serves outside answers request provider' := by
    have own : Serves outside answers' request provider' := consistent'.serves
    constructor
    · intro key selectors memory failure answer
      rw [answerFor_relisted relisted] at answer
      exact own.failure key selectors memory failure answer
    · intro key selectors memory set answer
      rw [answerFor_relisted relisted] at answer
      exact own.answer key selectors memory set answer
  refine ⟨fun found done policy => ?_, fun found targets done policy key target => ?_, ?_, ?_⟩
  · obtain ⟨retained, kept, needed⟩ := (resolved_of_ok consistent done).pins policy
    refine ⟨⟨retained, kept, needed⟩, ?_⟩
    rintro ⟨whole, valid, respects⟩ key pin candidate held selected
    by_contra mismatch
    refine needed key pin held (fun keeps => mismatch (keeps candidate selected)) whole valid ?_ ?_
    · intro earlier other _ inRetained chosen chosenHeld
      exact respects earlier other chosen (kept earlier other inRetained).1 chosenHeld
    · exact fun chosen chosenHeld => respects key pin chosen held chosenHeld
  · exact (resolved_of_ok consistent done).targets policy target
  · cases accepted : rejection outside request with
    | some conflict => simp only [resolveGraph, accepted]
    | none =>
      simp only [resolveGraph, accepted]
      exact (run_resolve serves serves' accepted paired_fresh).1.symm
  · intro memory remembers conflict accepted
    simp only [resolveGraph, accepted]
    exact (run_resolve serves serves accepted ⟨remembers, remembers_fresh, conflict⟩).1

omit [LinearOrder Version] [DecidableEq Req] in
/-- Whether a graph is valid does not depend on the policy. -/
theorem Valid.of_policy (policy : ResolutionPolicy) {selection : Selection Version Req}
    (valid : Valid outside answers { request with policy } selection) :
    Valid outside answers request selection := by
  refine ⟨valid.root, valid.rootEligible, valid.rootReplaced, ?_, valid.satisfied, valid.closed,
    ?_, valid.acyclic⟩
  · intro key candidate held other
    have offered := valid.offered key candidate held other
    exact ⟨offered.listed, offered.eligible, offered.replaced⟩
  · intro key inside
    have reached := valid.reached key inside
    clear inside
    induction reached with
    | root => exact .root
    | development inside => exact .development inside
    | dependency _ held inside induct => exact .dependency induct held inside

end Main

section Samples

/-- Every version is admitted. -/
def admitsAll : Outside Nat Unit :=
  ⟨fun _ _ => true, fun _ => "", fun _ => "", fun _ => "", fun _ => ""⟩

/-- A package of the sample repository. -/
def sampleKey (name : String) : PackageKey := .git ⟨name, ""⟩

/-- Requirements of any release of some packages. -/
def sampleRequirements (names : List String) : SortedMap String (PackageRequirement Unit) :=
  SortedMap.ofList (names.map fun name => (name, ⟨sampleKey name, .version (), ⟨"", name⟩⟩))

/-- A release of a sample package. -/
def sampleCandidate (name revision : String) (version : Nat) (dependencies : List String) :
    PackageCandidate Nat Unit :=
  ⟨.git ⟨name, ""⟩ revision, version, true, (), [], sampleRequirements dependencies,
    SortedMap.empty, "", none⟩

/-- Package `a` depends on `b` in its first version only. -/
def sampleReleases : List (PackageCandidate Nat Unit) :=
  [sampleCandidate "a" "first" 1 ["b"], sampleCandidate "a" "second" 2 []]

/-- The answers of the sample repository, with the releases of `a` listed in some order. -/
def sampleAnswers (releases : List (PackageCandidate Nat Unit)) (key : PackageKey) :
    Except ProviderFailure (CandidateSet Nat Unit) :=
  if key = sampleKey "a" then .ok ⟨releases, SortedMap.empty⟩
  else if key = sampleKey "b" then .ok ⟨[sampleCandidate "b" "only" 1 []], SortedMap.empty⟩
  else .error ⟨"FAI0811", "no such package"⟩

/-- The provider of the sample repository. -/
def sampleProvider (releases : List (PackageCandidate Nat Unit)) : Provider Nat Unit :=
  fun _ query => sampleAnswers releases query.package

/-- A root with some dependencies. -/
def sampleRequest (dependencies : List String) (policy : ResolutionPolicy) :
    ResolutionRequest Nat Unit :=
  ⟨.path "root", ⟨.path "root", 1, false, (), [], sampleRequirements dependencies,
    SortedMap.empty, "", none⟩, 0, ⟨"", "", "", ""⟩, SortedMap.empty, SortedMap.empty, policy⟩

/-- The policy that updates some sample packages. -/
def updateOf (names : List String) : ResolutionPolicy :=
  .update (SortedMap.ofList (names.map fun name => (sampleKey name, ())))

/-- The sample repository answers consistently. -/
theorem answers_sample (releases : List (PackageCandidate Nat Unit)) :
    Answers (sampleAnswers releases) (sampleProvider releases) :=
  fun _ _ => rfl

/-- Listing the releases in another order. -/
theorem relisted_sample (key : PackageKey) :
    Relisted (sampleAnswers sampleReleases key) (sampleAnswers sampleReleases.reverse key) := by
  rw [sampleAnswers, sampleAnswers]
  by_cases first : key = sampleKey "a"
  · rw [if_pos first, if_pos first]
    exact .listed SortedMap.empty (List.reverse_perm _).symm
  · rw [if_neg first, if_neg first]
    by_cases second : key = sampleKey "b"
    · rw [if_pos second]
      exact .listed SortedMap.empty (List.Perm.refl _)
    · rw [if_neg second]
      exact .failed _

/-- The version of `a` that a sample request is resolved with. -/
def sampleVersion (request : ResolutionRequest Nat Unit) : Option Nat :=
  ((resolveGraph admitsAll (sampleProvider sampleReleases) request).toOption.bind fun found =>
    found.packages.get (sampleKey "a")).map fun candidate => candidate.version

/-- A sample request that is resolved with a version of `a`. -/
theorem resolved_sample {request : ResolutionRequest Nat Unit} {version : Nat}
    (computed : sampleVersion request = some version) :
    ∃ found candidate,
      resolveGraph admitsAll (sampleProvider sampleReleases) request = .ok found ∧
      Valid admitsAll (sampleAnswers sampleReleases) request found.packages ∧
      found.packages.get (sampleKey "a") = some candidate ∧ candidate.version = version := by
  rw [sampleVersion] at computed
  cases done : resolveGraph admitsAll (sampleProvider sampleReleases) request with
  | error => simp [done, Except.toOption] at computed
  | ok found =>
    obtain ⟨candidate, held, same⟩ := Option.map_eq_some_iff.mp computed
    rw [done] at held
    exact ⟨found, candidate, rfl, (resolved_of_ok (answers_sample _) done).made.valid, held, same⟩

/-- A sample request that is resolved. -/
theorem valid_sample (request : ResolutionRequest Nat Unit)
    (computed : (resolveGraph admitsAll (sampleProvider sampleReleases) request).isOk = true) :
    ∃ found, resolveGraph admitsAll (sampleProvider sampleReleases) request = .ok found ∧
      Valid admitsAll (sampleAnswers sampleReleases) request found.packages := by
  cases done : resolveGraph admitsAll (sampleProvider sampleReleases) request with
  | error =>
    rw [done] at computed
    cases computed
  | ok found => exact ⟨found, rfl, (resolved_of_ok (answers_sample _) done).made.valid⟩

/-- A sample request is resolved to a valid graph. -/
theorem resolveGraph_sound_complete_sample :
    ∃ found, resolveGraph admitsAll (sampleProvider sampleReleases)
        (sampleRequest ["a"] .conservative) = .ok found ∧
      Valid admitsAll (sampleAnswers sampleReleases) (sampleRequest ["a"] .conservative)
        found.packages := by
  obtain ⟨found, done, _⟩ := valid_sample (sampleRequest ["a"] .conservative) (by decide +kernel)
  exact ⟨found, done, ((resolveGraph_sound_complete (answers_sample _)).1 found done).2.1⟩

/-- An update of a package that the graph does not have fails, although the root alone is a valid
graph. -/
theorem update_absent_target :
    ∃ conflict whole, resolveGraph admitsAll (sampleProvider sampleReleases)
        (sampleRequest [] (updateOf ["b"])) = .error (.conflict conflict) ∧
      rejection admitsAll (sampleRequest [] (updateOf ["b"])) = none ∧ conflict ≠ depthLimit ∧
      Valid admitsAll (sampleAnswers sampleReleases) (sampleRequest [] (updateOf ["b"])) whole := by
  obtain ⟨found, _, valid⟩ := valid_sample (sampleRequest [] .conservative) (by decide +kernel)
  refine ⟨⟨[], "no compatible dependency graph"⟩, found.packages, rfl, rfl, ?_, ?_⟩
  · intro same
    exact absurd (congrArg ResolutionConflict.message same) (by decide)
  · exact Valid.of_policy .conservative valid

/-- Of two targets the first is kept at the version that the second needs, although a valid graph
has a newer one. -/
theorem update_older_target :
    ∃ found whole chosen candidate,
      resolveGraph admitsAll (sampleProvider sampleReleases)
        (sampleRequest ["a"] (updateOf ["a", "b"])) = .ok found ∧
      found.packages.get (sampleKey "a") = some chosen ∧
      Valid admitsAll (sampleAnswers sampleReleases) (sampleRequest ["a"] (updateOf ["a", "b"]))
        whole ∧
      (∀ earlier ∈ [sampleKey "a", sampleKey "b"], ¬earlier < sampleKey "a") ∧
      whole.get (sampleKey "a") = some candidate ∧ chosen.version < candidate.version := by
  have older : sampleVersion (sampleRequest ["a"] (updateOf ["a", "b"])) = some 1 := by
    decide +kernel
  have newer : sampleVersion (sampleRequest ["a"] .updateAll) = some 2 := by decide +kernel
  obtain ⟨found, chosen, done, _, held, version⟩ := resolved_sample older
  obtain ⟨whole, candidate, _, valid, held', version'⟩ := resolved_sample newer
  refine ⟨found, whole.packages, chosen, candidate, done, held, ?_, by decide, held', ?_⟩
  · exact Valid.of_policy .updateAll valid
  · omega

/-- The sample repository with its releases listed in either order. -/
theorem resolveGraph_preferences_sample :
    (resolveGraph admitsAll (sampleProvider sampleReleases)
      (sampleRequest ["a"] (updateOf ["a", "b"]))).isOk = true ∧
    resolveGraph admitsAll (sampleProvider sampleReleases.reverse)
        (sampleRequest ["a"] (updateOf ["a", "b"])) =
      resolveGraph admitsAll (sampleProvider sampleReleases)
        (sampleRequest ["a"] (updateOf ["a", "b"])) :=
  ⟨by decide +kernel, (resolveGraph_preferences (answers_sample _) (answers_sample _)
    relisted_sample).2.2.1⟩

end Samples

end Fai.Package
