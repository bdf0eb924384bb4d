import FaiVerif.Package.ResolverRuns

/-!
# Preferences

Each search is complete, so a greedy pass that keeps a pin whenever a search succeeds gives one up
only when no valid graph keeps it, and a pass over the candidates of a target, newest first, stops
at the newest one that a valid graph has.
-/

namespace Fai.Package

open Agreeing

variable {Version Req : Type} [LinearOrder Version] [DecidableEq Req]

section Wishes

variable (outside : Outside Version Req)
  (answers : PackageKey → Except ProviderFailure (CandidateSet Version Req))
  (request : ResolutionRequest Version Req)

/-- A valid graph with every target that respects what is fixed. -/
structure Fits (fixed : SortedMap PackageKey (PackagePin Version))
    (whole : Selection Version Req) : Prop where
  /-- The graph is valid. -/
  valid : Valid outside answers request whole
  /-- What is fixed is respected. -/
  respects : Respects fixed whole
  /-- Every target is there. -/
  targets : HasTargets request whole

/-- Wherever the selection has a package, it has the pinned source and version. -/
def Keeps (key : PackageKey) (pin : PackagePin Version) (selection : Selection Version Req) :
    Prop :=
  ∀ candidate, selection.get key = some candidate → pin.matches candidate = true

/-- What is fixed of the packages before a key is respected. -/
def RespectsBefore (key : PackageKey) (fixed : SortedMap PackageKey (PackagePin Version))
    (selection : Selection Version Req) : Prop :=
  ∀ earlier pin, earlier < key → fixed.get earlier = some pin → Keeps earlier pin selection

/-- The pins that a greedy pass retains over what is fixed: one of them is given up only when no
valid graph keeps it together with those retained before. -/
structure Retains (fixed : SortedMap PackageKey (PackagePin Version))
    (pins : List (PackageKey × PackagePin Version))
    (retained : SortedMap PackageKey (PackagePin Version)) : Prop where
  /-- What is fixed is retained. -/
  base : ∀ key pin, fixed.get key = some pin → retained.get key = some pin
  /-- The others are pins. -/
  pinned : ∀ key pin, retained.get key = some pin → fixed.get key = none → (key, pin) ∈ pins
  /-- No pin is given up without need. -/
  needed : ∀ key pin, (key, pin) ∈ pins → key ≠ request.root → fixed.get key = none →
    retained.get key = some pin ∨ ∀ whole, Fits outside answers request fixed whole →
      RespectsBefore key retained whole → ¬Keeps key pin whole

end Wishes

section Greedy

variable {outside : Outside Version Req}
  {answers : PackageKey → Except ProviderFailure (CandidateSet Version Req)}
  {request : ResolutionRequest Version Req} {provider provider' : Provider Version Req}
  {known : Set PackageKey} {first second : Memory Version Req}
  {fixed retained : SortedMap PackageKey (PackagePin Version)}

omit [DecidableEq Req] in
/-- Respecting more pins is respecting fewer. -/
theorem Respects.mono {selection : Selection Version Req} (respects : Respects retained selection)
    (fewer : ∀ key pin, fixed.get key = some pin → retained.get key = some pin) :
    Respects fixed selection :=
  fun key pin candidate fix held => respects key pin candidate (fewer key pin fix) held

omit [DecidableEq Req] in
/-- Where nothing is fixed, everything is respected. -/
theorem respects_empty {selection : Selection Version Req} :
    Respects SortedMap.empty selection := by
  intro key pin candidate impossible
  cases impossible

/-- A graph with more fixed is one with less fixed. -/
theorem Found.mono {found : ResolvedGraph Version Req}
    (made : Found outside answers request retained found)
    (fewer : ∀ key pin, fixed.get key = some pin → retained.get key = some pin) :
    Found outside answers request fixed found :=
  ⟨made.valid, made.respects.mono fewer, made.targets, made.shape⟩

/-- The packages of a graph that was found fit. -/
theorem Found.fits {found : ResolvedGraph Version Req}
    (made : Found outside answers request fixed found) :
    Fits outside answers request fixed found.packages :=
  ⟨made.valid, made.respects, made.targets⟩

omit [LinearOrder Version] [DecidableEq Req] in
/-- The root alone is a selection to start from. -/
theorem grounded_rootOnly (supported : eligible outside request request.candidate = true) :
    Grounded outside answers request (rootOnly request) := by
  have only : ∀ key candidate, (rootOnly request).get key = some candidate →
      key = request.root := by
    intro key candidate held
    by_contra other
    rw [rootOnly, SortedMap.get_insert_other _ other] at held
    cases held
  refine ⟨SortedMap.get_insert_same _ _ _, supported, ?_, ?_⟩
  · exact fun key candidate held other => absurd (only key candidate held) other
  · intro key inside
    obtain ⟨candidate, held⟩ := SortedMap.mem_keys.mp inside
    rw [only key candidate held]
    exact .root

/-- Two resolvers search from the root alike; without a graph none fits. -/
theorem searchRoot_agree (serves : Serves outside answers request provider)
    (serves' : Serves outside answers request provider')
    (supported : eligible outside request request.candidate = true)
    (fixed : SortedMap PackageKey (PackagePin Version))
    (paired : Paired outside answers request known first second) :
    Agree Stops (Searched outside answers request fixed known
        (∀ whole, ¬Fits outside answers request fixed whole))
      (searchRoot outside provider request fixed first)
      (searchRoot outside provider' request fixed second) := by
  refine (search_agree serves serves' fixed (maximumDepth + 1) (rootOnly request) known first
    second (grounded_rootOnly supported) paired).imp (fun _ => id) ?_
  intro found first second searched
  refine ⟨searched.paired, searched.graph, fun absent whole fits => ?_⟩
  refine searched.none absent whole fits.valid fits.respects fits.targets ?_
  intro key candidate held
  rw [rootOnly, SortedMap.get_insert] at held
  by_cases same : key = request.root
  · rw [if_pos same, Option.some_inj] at held
    rw [same, ← held]
    exact fits.valid.root
  · rw [if_neg same] at held
    cases held

variable {pins : List (PackageKey × PackagePin Version)} {key : PackageKey}
  {pin : PackagePin Version}

omit [DecidableEq Req] in
/-- A further pin that is not retained, because it need not or cannot be. -/
theorem Retains.skip (retains : Retains outside answers request fixed pins retained)
    (needless : key ≠ request.root → fixed.get key = none →
      ∀ whole, Fits outside answers request fixed whole → RespectsBefore key retained whole →
        ¬Keeps key pin whole) :
    Retains outside answers request fixed (pins ++ [(key, pin)]) retained := by
  refine ⟨retains.base, ?_, ?_⟩
  · intro asked held kept unfixed
    exact List.mem_append_left _ (retains.pinned asked held kept unfixed)
  · intro asked held inside other unfixed
    rcases List.mem_append.mp inside with before | here
    · exact retains.needed asked held before other unfixed
    · cases List.mem_singleton.mp here
      exact .inr (needless other unfixed)

omit [DecidableEq Req] in
/-- A further pin that is retained. -/
theorem Retains.keep (retains : Retains outside answers request fixed pins retained)
    (later : ∀ entry ∈ pins, entry.1 < key) (free : fixed.get key = none) :
    Retains outside answers request fixed (pins ++ [(key, pin)]) (retained.insert key pin) := by
  refine ⟨?_, ?_, ?_⟩
  · intro asked held fix
    rw [SortedMap.get_insert_other]
    · exact retains.base asked held fix
    · intro same
      rw [same, free] at fix
      cases fix
  · intro asked held kept unfixed
    rw [SortedMap.get_insert] at kept
    by_cases same : asked = key
    · rw [if_pos same, Option.some_inj] at kept
      rw [same, ← kept]
      exact List.mem_append_right _ List.mem_cons_self
    · rw [if_neg same] at kept
      exact List.mem_append_left _ (retains.pinned asked held kept unfixed)
  · intro asked held inside other unfixed
    rcases List.mem_append.mp inside with before | here
    · have less := later _ before
      rw [SortedMap.get_insert_other _ (ne_of_lt less)]
      refine (retains.needed asked held before other unfixed).imp_right ?_
      intro needed whole fits respects
      refine needed whole fits fun earlier kept earlierLess inRetained => ?_
      refine respects earlier kept earlierLess ?_
      rw [SortedMap.get_insert_other _ (ne_of_lt (lt_trans earlierLess less))]
      exact inRetained
    · cases List.mem_singleton.mp here
      exact .inl (SortedMap.get_insert_same _ _ _)

omit [DecidableEq Req] in
/-- A graph that keeps a further pin with those retained before fits with all of them fixed. -/
theorem Retains.fits_insert (retains : Retains outside answers request fixed pins retained)
    (later : ∀ entry ∈ pins, entry.1 < key) {whole : Selection Version Req}
    (fits : Fits outside answers request fixed whole)
    (respects : RespectsBefore key retained whole) (keeps : Keeps key pin whole) :
    Fits outside answers request (retained.insert key pin) whole := by
  refine ⟨fits.valid, ?_, fits.targets⟩
  intro other kept candidate inTrial selected
  rw [SortedMap.get_insert] at inTrial
  by_cases same : other = key
  · rw [if_pos same, Option.some_inj] at inTrial
    rw [same] at selected
    rw [← inTrial]
    exact keeps candidate selected
  · rw [if_neg same] at inTrial
    cases fix : fixed.get other with
    | some fixedPin =>
      have both := (retains.base other fixedPin fix).symm.trans inTrial
      rw [Option.some_inj] at both
      exact fits.respects other kept candidate (both ▸ fix) selected
    | none =>
      have less := later _ (retains.pinned other kept inTrial fix)
      exact respects other kept less inTrial candidate selected

/-- Two resolvers retain pins alike, and give none up without need. -/
theorem retainPins_agree (serves : Serves outside answers request provider)
    (serves' : Serves outside answers request provider')
    (supported : eligible outside request request.candidate = true)
    (fixed : SortedMap PackageKey (PackagePin Version)) :
    ∀ (rest pins : List (PackageKey × PackagePin Version))
      (retained : SortedMap PackageKey (PackagePin Version)) (best : ResolvedGraph Version Req)
      (first second : Memory Version Req),
    (pins ++ rest).Pairwise (fun a b => a.1 < b.1) →
    Retains outside answers request fixed pins retained →
    Found outside answers request retained best →
    Paired outside answers request known first second →
    Agree Stops
      (fun best first second => Paired outside answers request known first second ∧
        ∃ retained, Retains outside answers request fixed (pins ++ rest) retained ∧
          Found outside answers request retained best)
      (retainPins outside provider request fixed rest retained best first)
      (retainPins outside provider' request fixed rest retained best second)
  | [], pins, retained, best, first, second, _, retains, made, paired => by
    refine agree_pure ⟨paired, retained, ?_, made⟩
    rw [List.append_nil]
    exact retains
  | (key, pin) :: rest, pins, retained, best, first, second, ascending, retains, made, paired => by
    have later : ∀ entry ∈ pins, entry.1 < key := fun entry inside =>
      (List.pairwise_append.mp ascending).2.2 entry inside (key, pin) List.mem_cons_self
    rw [List.append_cons] at ascending ⊢
    have onward := fun retained best first second =>
      retainPins_agree serves serves' supported fixed rest (pins ++ [(key, pin)]) retained best
        first second ascending
    by_cases settled : key = request.root ∨ fixed.contains key = true
    · simp only [retainPins, if_pos settled]
      refine onward retained best first second (retains.skip ?_) made paired
      intro other free
      rcases settled with root | held
      · exact absurd root other
      · rw [SortedMap.contains, free] at held
        cases held
    · simp only [retainPins, if_neg settled]
      have free : fixed.get key = none := by
        cases fix : fixed.get key with
        | none => rfl
        | some _ => exact absurd (.inr (by rw [SortedMap.contains, fix]; rfl)) settled
      refine agree_bind (searchRoot_agree serves serves' supported (retained.insert key pin)
        paired) ?_
      intro found first second searched
      cases found with
      | some found =>
        exact onward _ found first second (retains.keep later free) (searched.graph found rfl).1
          searched.paired
      | none =>
        refine onward retained best first second (retains.skip ?_) made searched.paired
        intro _ _ whole fits respects keeps
        exact searched.none rfl whole (retains.fits_insert later fits respects keeps)

omit [DecidableEq Req] in
variable (outside answers) in
/-- With every pin fixed, every pin is retained. -/
theorem retains_all (fixed : SortedMap PackageKey (PackagePin Version)) :
    Retains outside answers request fixed request.pins.entries
      ((request.pins.remove request.root).insertAll fixed.entries) := by
  have lookup : ∀ key, ((request.pins.remove request.root).insertAll fixed.entries).get key =
      (fixed.get key).or (if key = request.root then none else request.pins.get key) := by
    intro key
    rw [SortedMap.get_insertAll key _ _ fixed.ascending, SortedMap.get_remove]
    by_cases root : key = request.root
    · rw [if_pos root, if_pos root]
      rfl
    · rw [if_neg root, if_neg root]
      rfl
  refine ⟨?_, ?_, ?_⟩
  · intro key pin fix
    rw [lookup, fix, Option.some_or]
  · intro key pin held free
    rw [lookup, free, Option.none_or] at held
    by_cases root : key = request.root
    · rw [if_pos root] at held
      cases held
    · rw [if_neg root] at held
      exact SortedMap.get_eq_some.mp held
  · intro key pin inside other free
    rw [lookup, free, Option.none_or, if_neg other]
    exact .inl (SortedMap.get_eq_some.mpr inside)

variable (outside answers request) in
/-- What is known after a search with preferences. -/
structure Preferred (fixed : SortedMap PackageKey (PackagePin Version)) (known : Set PackageKey)
    (found : Option (ResolvedGraph Version Req)) (first second : Memory Version Req) : Prop where
  /-- The memories keep what they held. -/
  paired : Paired outside answers request known first second
  /-- A graph is as it should be. -/
  made : ∀ graph, found = some graph → Found outside answers request fixed graph
  /-- Unless everything is updated, no pin is given up without need. -/
  retained : request.policy ≠ .updateAll → ∀ graph, found = some graph →
    ∃ retained, Retains outside answers request fixed request.pins.entries retained ∧
      Found outside answers request retained graph
  /-- Without a graph none fits. -/
  none : found = none → ∀ whole, ¬Fits outside answers request fixed whole

/-- Two resolvers prefer pins alike. -/
theorem preferPins_agree (serves : Serves outside answers request provider)
    (serves' : Serves outside answers request provider')
    (supported : eligible outside request request.candidate = true)
    (fixed : SortedMap PackageKey (PackagePin Version))
    (paired : Paired outside answers request known first second) :
    Agree Stops (Preferred outside answers request fixed known)
      (preferPins outside provider request fixed first)
      (preferPins outside provider' request fixed second) := by
  by_cases everything : request.policy = .updateAll
  · simp only [preferPins, if_pos everything]
    refine (searchRoot_agree serves serves' supported fixed paired).imp (fun _ => id) ?_
    intro found first second searched
    refine ⟨searched.paired, fun graph same => (searched.graph graph same).1, ?_, searched.none⟩
    exact fun other => absurd everything other
  simp only [preferPins, if_neg everything]
  refine agree_bind (searchRoot_agree serves serves' supported _ paired) ?_
  intro found first second searched
  cases found with
  | some found =>
    have made := (searched.graph found rfl).1
    refine agree_pure ⟨searched.paired, ?_, ?_, by simp⟩
    · intro graph same
      cases same
      exact made.mono (retains_all outside answers fixed).base
    · intro _ graph same
      cases same
      exact ⟨_, retains_all outside answers fixed, made⟩
  | none =>
    refine agree_bind (searchRoot_agree serves serves' supported fixed searched.paired) ?_
    intro found first second searched
    cases found with
    | none => exact agree_pure ⟨searched.paired, by simp, fun _ => by simp, searched.none⟩
    | some best =>
      have start : Retains outside answers request fixed [] fixed :=
        ⟨fun _ _ => id, fun key pin held free => absurd (free.symm.trans held) (by simp), by simp⟩
      refine agree_bind (retainPins_agree serves serves' supported fixed request.pins.entries []
        fixed best first second request.pins.ascending start (searched.graph best rfl).1
        searched.paired) ?_
      rintro best first second ⟨paired, retained, retains, made⟩
      refine agree_pure ⟨paired, ?_, ?_, by simp⟩
      · intro graph same
        cases same
        exact made.mono retains.base
      · intro _ graph same
        cases same
        exact ⟨retained, retains, made⟩

end Greedy

section Newest

variable {outside : Outside Version Req}
  {answers : PackageKey → Except ProviderFailure (CandidateSet Version Req)}
  {request : ResolutionRequest Version Req}

instance : IsTrans (PackageCandidate Version Req) NewestFirst where
  trans a b c := by
    rintro (newer | ⟨equal, source⟩) (newer' | ⟨equal', source'⟩)
    · exact .inl (lt_trans newer' newer)
    · exact .inl (equal' ▸ newer)
    · exact .inl (equal ▸ newer')
    · exact .inr ⟨equal.trans equal', le_trans source source'⟩

instance : Std.Total (NewestFirst : PackageCandidate Version Req → _ → Prop) where
  total a b := by
    rcases lt_trichotomy a.version b.version with newer | equal | newer
    · exact .inr (.inl newer)
    · rcases le_total a.source b.source with source | source
      · exact .inl (.inr ⟨equal, source⟩)
      · exact .inr (.inr ⟨equal.symm, source⟩)
    · exact .inl (.inl newer)

omit [LinearOrder Version] in
/-- Removing repeated neighbours leaves a part of the list. -/
theorem dedup_sublist {α : Type} [DecidableEq α] : ∀ list : List α, (dedup list).Sublist list
  | [] => List.Sublist.slnil
  | [_] => List.Sublist.refl _
  | a :: b :: rest => by
    rw [dedup]
    by_cases same : a = b
    · rw [if_pos same]
      exact (dedup_sublist (b :: rest)).cons a
    · rw [if_neg same]
      exact (dedup_sublist (b :: rest)).cons_cons a

/-- The candidates of an answer are listed the newest first. -/
theorem pairwise_of_answer {key : PackageKey} {set : CandidateSet Version Req}
    (answer : answerFor outside answers request key = .ok set) :
    set.candidates.Pairwise fun a b => b.version ≤ a.version := by
  rw [answerFor] at answer
  cases given : answers (actualKey request key) with
  | error refusal =>
    simp only [given] at answer
    cases answer
  | ok raw =>
    simp only [given] at answer
    by_cases valid : consistentSources (actualKey request key) raw.candidates SortedMap.empty
    · rw [if_pos valid] at answer
      cases answer
      refine ((List.pairwise_insertionSort NewestFirst _).sublist (dedup_sublist _)).imp ?_
      rintro a b (newer | ⟨equal, _⟩)
      · exact le_of_lt newer
      · exact le_of_eq equal.symm
    · rw [if_neg valid] at answer
      cases answer

end Newest

section Targets

variable {outside : Outside Version Req}
  {answers : PackageKey → Except ProviderFailure (CandidateSet Version Req)}
  {request : ResolutionRequest Version Req} {provider provider' : Provider Version Req}
  {known : Set PackageKey} {first second : Memory Version Req}
  {fixed : SortedMap PackageKey (PackagePin Version)} {done : List PackageKey}

variable (outside answers request) in
/-- Some targets are fixed, each at the newest version that a valid graph with every target has
next to those fixed before. -/
structure Fixes (done : List PackageKey) (fixed : SortedMap PackageKey (PackagePin Version)) :
    Prop where
  /-- Only these targets are fixed. -/
  only : ∀ key pin, fixed.get key = some pin → key ∈ done
  /-- A valid graph remains. -/
  possible : ∃ whole, Fits outside answers request fixed whole
  /-- Each is the newest one possible. -/
  newest : ∀ key ∈ done, key ≠ request.root → ∃ pin, fixed.get key = some pin ∧
    ∀ whole candidate, Fits outside answers request SortedMap.empty whole →
      RespectsBefore key fixed whole → whole.get key = some candidate →
      candidate.version ≤ pin.version

/-- Two resolvers fix the same candidate of a target: the newest one possible. -/
theorem fixTarget_agree (serves : Serves outside answers request provider)
    (serves' : Serves outside answers request provider')
    (supported : eligible outside request request.candidate = true) {key : PackageKey}
    (target : key ∈ requiredTargets request)
    (fixed : SortedMap PackageKey (PackagePin Version)) :
    ∀ (list : List (PackageCandidate Version Req)) (first second : Memory Version Req),
    list.Pairwise (fun a b => b.version ≤ a.version) →
    Paired outside answers request known first second →
    Agree Stops
      (fun result first second => Paired outside answers request known first second ∧
        (∀ after, result = some after → ∃ candidate ∈ list,
          after = fixed.insert key (PackagePin.candidate candidate) ∧
          (∃ whole, Fits outside answers request after whole) ∧
          ∀ other ∈ list, ∀ whole,
            Fits outside answers request (fixed.insert key (PackagePin.candidate other)) whole →
            other.version ≤ candidate.version) ∧
        (result = none → ∀ other ∈ list, ∀ whole,
          ¬Fits outside answers request (fixed.insert key (PackagePin.candidate other)) whole))
      (fixTarget outside provider request key fixed list first)
      (fixTarget outside provider' request key fixed list second)
  | [], first, second, _, paired => agree_pure ⟨paired, by simp, fun _ => by simp⟩
  | candidate :: rest, first, second, newest, paired => by
    obtain ⟨older, restNewest⟩ := List.pairwise_cons.mp newest
    refine agree_bind (preferPins_agree serves serves' supported _ paired) ?_
    intro found first second preferred
    cases found with
    | some found =>
      have made := preferred.made found rfl
      have present : found.packages.contains key = true :=
        SortedMap.contains_iff.mpr (made.targets key target)
      simp only [Option.any_some, present, if_true]
      refine agree_pure ⟨preferred.paired, ?_, by simp⟩
      intro after same
      cases same
      refine ⟨candidate, List.mem_cons_self, rfl, ⟨_, made.fits⟩, fun other inside _ _ => ?_⟩
      rcases List.mem_cons.mp inside with rfl | later
      · exact le_refl _
      · exact older other later
    | none =>
      simp only [Option.any_none, Bool.false_eq_true, if_false]
      refine (fixTarget_agree serves serves' supported target fixed rest first second restNewest
        preferred.paired).imp (fun _ => id) ?_
      rintro result first second ⟨paired, fixes, exhausted⟩
      refine ⟨paired, fun after same => ?_, fun absent other inside => ?_⟩
      · obtain ⟨chosen, inside, equal, possible, best⟩ := fixes after same
        refine ⟨chosen, List.mem_cons_of_mem _ inside, equal, possible, fun other member => ?_⟩
        rcases List.mem_cons.mp member with rfl | later
        · exact fun whole fits => absurd fits (preferred.none rfl whole)
        · exact best other later
      · rcases List.mem_cons.mp inside with rfl | later
        · exact preferred.none rfl
        · exact exhausted absent other later

omit [DecidableEq Req] in
/-- The root need not be fixed. -/
theorem Fixes.root (fixes : Fixes outside answers request done fixed) :
    Fixes outside answers request (done ++ [request.root]) fixed := by
  refine ⟨fun key pin held => List.mem_append_left _ (fixes.only key pin held), fixes.possible, ?_⟩
  intro key inside other
  rcases List.mem_append.mp inside with before | here
  · exact fixes.newest key before other
  · exact absurd (List.mem_singleton.mp here) other

omit [DecidableEq Req] in
/-- A graph that respects what is fixed before a target fits with the target fixed as it has it. -/
theorem Fixes.fits_insert (fixes : Fixes outside answers request done fixed) {key : PackageKey}
    (later : ∀ earlier ∈ done, earlier < key) {whole : Selection Version Req}
    {candidate : PackageCandidate Version Req}
    (fits : Fits outside answers request SortedMap.empty whole)
    (respects : RespectsBefore key fixed whole) (held : whole.get key = some candidate) :
    Fits outside answers request (fixed.insert key (PackagePin.candidate candidate)) whole := by
  refine ⟨fits.valid, ?_, fits.targets⟩
  intro other pin chosen fix selected
  rw [SortedMap.get_insert] at fix
  by_cases same : other = key
  · rw [if_pos same, Option.some_inj] at fix
    rw [same, held, Option.some_inj] at selected
    rw [← fix, ← selected, PackagePin.matches, PackagePin.candidate]
    simp
  · rw [if_neg same] at fix
    exact respects other pin (later other (fixes.only other pin fix)) fix chosen selected

omit [DecidableEq Req] in
/-- A target fixed at the newest candidate possible. -/
theorem Fixes.insert (fixes : Fixes outside answers request done fixed) {key : PackageKey}
    (later : ∀ earlier ∈ done, earlier < key) {chosen : PackageCandidate Version Req}
    (possible : ∃ whole, Fits outside answers request
      (fixed.insert key (PackagePin.candidate chosen)) whole)
    (best : ∀ whole candidate, Fits outside answers request
      (fixed.insert key (PackagePin.candidate candidate)) whole →
      whole.get key = some candidate → candidate.version ≤ chosen.version) :
    Fixes outside answers request (done ++ [key])
      (fixed.insert key (PackagePin.candidate chosen)) := by
  have before : ∀ asked earlier, earlier < asked → asked = key ∨ asked ∈ done →
      (fixed.insert key (PackagePin.candidate chosen)).get earlier = fixed.get earlier := by
    intro asked earlier less position
    refine SortedMap.get_insert_other _ (ne_of_lt ?_) _
    rcases position with here | inside
    · exact here ▸ less
    · exact lt_trans less (later asked inside)
  refine ⟨?_, possible, ?_⟩
  · intro asked pin held
    rw [SortedMap.get_insert] at held
    by_cases same : asked = key
    · rw [same]
      exact List.mem_append_right _ List.mem_cons_self
    · rw [if_neg same] at held
      exact List.mem_append_left _ (fixes.only asked pin held)
  · intro asked inside other
    rcases List.mem_append.mp inside with earlier | here
    · obtain ⟨pin, held, newest⟩ := fixes.newest asked earlier other
      refine ⟨pin, ?_, fun whole candidate fits respects => newest whole candidate fits ?_⟩
      · rw [SortedMap.get_insert_other _ (ne_of_lt (later asked earlier))]
        exact held
      · intro other pin less fix
        refine respects other pin less ?_
        rw [before asked other less (.inr earlier)]
        exact fix
    · cases List.mem_singleton.mp here
      refine ⟨_, SortedMap.get_insert_same _ _ _, fun whole candidate fits respects held => ?_⟩
      refine best whole candidate (fixes.fits_insert later fits ?_ held) held
      intro other pin less fix
      refine respects other pin less ?_
      rw [before key other less (.inl rfl)]
      exact fix

/-- Two resolvers fix the targets alike. -/
theorem fixTargets_agree (serves : Serves outside answers request provider)
    (serves' : Serves outside answers request provider')
    (supported : eligible outside request request.candidate = true)
    {found : ResolvedGraph Version Req} (targets : HasTargets request found.packages)
    (holds : ∀ key ∈ found.packages.keys, key ≠ request.root → key ∈ known) :
    ∀ (rest done : List PackageKey) (fixed : SortedMap PackageKey (PackagePin Version))
      (first second : Memory Version Req), (done ++ rest).Pairwise (· < ·) →
    (∀ key ∈ rest, key ∈ requiredTargets request) →
    Fixes outside answers request done fixed →
    Paired outside answers request known first second →
    Agree Stops
      (fun fixed first second => Paired outside answers request known first second ∧
        Fixes outside answers request (done ++ rest) fixed)
      (fixTargets outside provider request found rest fixed first)
      (fixTargets outside provider' request found rest fixed second)
  | [], done, fixed, first, second, _, _, fixes, paired => by
    refine agree_pure ⟨paired, ?_⟩
    rw [List.append_nil]
    exact fixes
  | key :: rest, done, fixed, first, second, ascending, required, fixes, paired => by
    have later : ∀ earlier ∈ done, earlier < key := fun earlier inside =>
      (List.pairwise_append.mp ascending).2.2 earlier inside key List.mem_cons_self
    have target := required key List.mem_cons_self
    have inside := targets key target
    rw [List.append_cons] at ascending ⊢
    have onward := fun fixed first second => fixTargets_agree serves serves' supported targets holds
      rest (done ++ [key]) fixed first second ascending
      fun key inside => required key (List.mem_cons_of_mem _ inside)
    have present : ¬found.packages.contains key = false := by
      rw [SortedMap.contains_iff.mpr inside]
      exact Bool.noConfusion
    by_cases root : key = request.root
    · simp only [fixTargets, if_neg present, if_pos root]
      refine onward fixed first second ?_ paired
      rw [root]
      exact fixes.root
    simp only [fixTargets, if_neg present, if_neg root]
    refine agree_get ?_
    obtain ⟨entry, held⟩ := paired.left.holds key (holds key inside root)
    obtain ⟨entry', held'⟩ := paired.right.holds key (holds key inside root)
    have answer := (paired.left.answered key entry held).2
    have same : entry.2 = entry'.2 := by
      have answer' := (paired.right.answered key entry' held').2
      rw [answer] at answer'
      exact Except.ok.inj answer'
    rw [held, held', Option.map_some, Option.map_some, Option.getD_some, Option.getD_some, ← same]
    have listed : ∀ whole candidate, Fits outside answers request SortedMap.empty whole →
        whole.get key = some candidate → candidate ∈ entry.2.candidates := by
      intro whole candidate fits selected
      have offered := fits.valid.offered key candidate selected root
      exact (mem_of_answer answer).mpr ⟨offered.listed, offered.eligible⟩
    refine agree_bind (fixTarget_agree serves serves' supported target fixed entry.2.candidates
      first second (pairwise_of_answer answer) paired) ?_
    rintro result first second ⟨paired, accepted, exhausted⟩
    cases result with
    | some after =>
      obtain ⟨chosen, _, rfl, possible, best⟩ := accepted after rfl
      refine onward _ first second (fixes.insert later possible ?_) paired
      intro whole candidate fits selected
      have free : Fits outside answers request SortedMap.empty whole :=
        ⟨fits.valid, respects_empty, fits.targets⟩
      exact best candidate (listed whole candidate free selected) whole fits
    | none =>
      -- the graph that remains has a candidate of the target, so one was accepted
      exfalso
      obtain ⟨whole, fits⟩ := fixes.possible
      have free : Fits outside answers request SortedMap.empty whole :=
        ⟨fits.valid, respects_empty, fits.targets⟩
      obtain ⟨candidate, selected⟩ := SortedMap.mem_keys.mp (fits.targets key target)
      refine exhausted rfl candidate (listed whole candidate free selected) whole ?_
      refine fixes.fits_insert later free ?_ selected
      exact fun other pin _ fix chosen held => fits.respects other pin chosen fix held

end Targets

end Fai.Package
