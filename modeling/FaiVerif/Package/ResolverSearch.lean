import FaiVerif.Lib.Agreeing
import FaiVerif.Package.Graphs

/-!
# Soundness and completeness of the search

With a provider that answers consistently the cache only holds its answers, so two resolvers with
different caches run alike. A search that finds a graph finds a valid one; a search that finds none
has excluded every valid graph that extends its selection, because what excludes a selection
excludes all its extensions.
-/

namespace Fai.Package

open Agreeing

variable {Version Req : Type} [LinearOrder Version] [DecidableEq Req]

section Extensions

variable {outside : Outside Version Req}
  {answers : PackageKey → Except ProviderFailure (CandidateSet Version Req)}
  {request : ResolutionRequest Version Req} {selection whole : Selection Version Req}

omit [LinearOrder Version] [DecidableEq Req] in
/-- A larger selection places at least the same requirements. -/
theorem Demanded.extend (extend : Extends selection whole) {key : PackageKey}
    {requirement : PackageRequirement Req} (demanded : Demanded request selection key requirement) :
    Demanded request whole key requirement := by
  obtain ⟨target, ⟨origin, candidate, held, inside⟩ | inside⟩ := demanded
  · exact ⟨target, .inl ⟨origin, candidate, extend origin candidate held, inside⟩⟩
  · exact ⟨target, .inr inside⟩

omit [LinearOrder Version] [DecidableEq Req] in
/-- A larger selection has at least the same keys. -/
theorem Extends.keys (extend : Extends selection whole) {key : PackageKey}
    (inside : key ∈ selection.keys) : key ∈ whole.keys := by
  obtain ⟨candidate, held⟩ := SortedMap.mem_keys.mp inside
  exact SortedMap.mem_keys.mpr ⟨candidate, extend key candidate held⟩

omit [LinearOrder Version] [DecidableEq Req] in
/-- A larger selection has at least the same dependency edges. -/
theorem Extends.acyclic (extend : Extends selection whole)
    (acyclic : Topological.Acyclic whole.keys (dependenciesOf request whole)) :
    Topological.Acyclic selection.keys (dependenciesOf request selection) := by
  intro x cycle
  refine acyclic x (Relation.TransGen.mono ?_ x x cycle)
  rintro a b ⟨aIn, bIn, edge⟩
  refine ⟨extend.keys aIn, extend.keys bIn, ?_⟩
  obtain ⟨candidate, held⟩ := SortedMap.mem_keys.mp aIn
  rw [dependenciesOf, held] at edge
  rw [dependenciesOf, extend a candidate held]
  exact edge

omit [LinearOrder Version] [DecidableEq Req] in
/-- A package reached in a selection is reached in a larger one. -/
theorem Reached.extend (extend : Extends selection whole) {key : PackageKey}
    (reached : Reached request selection key) : Reached request whole key := by
  induction reached with
  | root => exact .root
  | development inside => exact .development inside
  | dependency _ held inside induct => exact .dependency induct (extend _ _ held) inside

omit [LinearOrder Version] [DecidableEq Req] in
/-- A selection extended by a new package. -/
theorem extends_insert {key : PackageKey} (fresh : key ∉ selection.keys)
    (candidate : PackageCandidate Version Req) :
    Extends selection (selection.insert key candidate) := by
  intro other held found
  rw [SortedMap.get_insert_other]
  · exact found
  · intro same
    rw [same] at found
    exact fresh (SortedMap.mem_keys.mpr ⟨held, found⟩)

omit [LinearOrder Version] [DecidableEq Req] in
/-- A package required by packages that are reached is reached. -/
theorem Demanded.reached {key : PackageKey} {requirement : PackageRequirement Req}
    (demanded : Demanded request selection key requirement)
    (all : ∀ key ∈ selection.keys, Reached request selection key) :
    Reached request selection key := by
  obtain ⟨target, ⟨origin, candidate, held, inside⟩ | inside⟩ := demanded
  · rw [← target]
    exact .dependency (all origin (SortedMap.mem_keys.mpr ⟨candidate, held⟩)) held inside
  · rw [← target]
    exact .development inside

omit [LinearOrder Version] [DecidableEq Req] in
/-- The keys of a selection extended by a package. -/
theorem mem_keys_insert {key asked : PackageKey} {candidate : PackageCandidate Version Req}
    (inside : asked ∈ (selection.insert key candidate).keys) :
    asked = key ∨ asked ∈ selection.keys := by
  obtain ⟨chosen, held⟩ := SortedMap.mem_keys.mp inside
  by_cases same : asked = key
  · exact .inl same
  · rw [SortedMap.get_insert, if_neg same] at held
    exact .inr (SortedMap.mem_keys.mpr ⟨chosen, held⟩)

omit [LinearOrder Version] [DecidableEq Req] in
/-- A complete selection has every package of a valid graph that extends it. -/
theorem Valid.keys_of_closed (valid : Valid outside answers request whole)
    (extend : Extends selection whole) (root : request.root ∈ selection.keys)
    (closed : ∀ key requirement, Demanded request selection key requirement →
      key ∈ selection.keys) {key : PackageKey} (inside : key ∈ whole.keys) :
    key ∈ selection.keys := by
  have reached := valid.reached key inside
  clear inside
  induction reached with
  | root => exact root
  | development inside => exact closed _ _ ⟨rfl, .inr inside⟩
  | @dependency origin candidate requirement _ held inside induct =>
    obtain ⟨candidate', held'⟩ := SortedMap.mem_keys.mp induct
    have same := (extend origin candidate' held').symm.trans held
    cases same
    exact closed _ _ ⟨rfl, .inl ⟨origin, candidate, held', inside⟩⟩

omit [LinearOrder Version] [DecidableEq Req] in
/-- Removing packages without incoming dependencies tells cycles apart. -/
theorem hasCycle_eq_false :
    hasCycle request selection = false ↔
      Topological.Acyclic selection.keys (dependenciesOf request selection) := by
  have length : selection.keys.length = selection.size := List.length_map _
  obtain ⟨count, drained, iff⟩ := Topological.drain_eq_length_iff
    (dependenciesOf request selection) selection.nodup_keys
  rw [length] at drained iff
  rw [← iff]
  simp only [hasCycle, drained]
  simp

end Extensions

section Lists

variable {α : Type} [DecidableEq α]

/-- Removing repeated neighbours keeps the elements. -/
theorem mem_dedup {a : α} : ∀ {list : List α}, a ∈ dedup list ↔ a ∈ list
  | [] => Iff.rfl
  | [_] => Iff.rfl
  | b :: c :: rest => by
    rw [dedup]
    by_cases same : b = c
    · rw [if_pos same, mem_dedup, same]
      simp
    · rw [if_neg same, List.mem_cons, mem_dedup, List.mem_cons (b := b)]

end Lists

/-- The arranged candidates are the eligible ones. -/
theorem mem_arrange {outside : Outside Version Req} {request : ResolutionRequest Version Req}
    {set : CandidateSet Version Req} {candidate : PackageCandidate Version Req} :
    candidate ∈ (arrange outside request set).candidates ↔
      candidate ∈ set.candidates ∧ eligible outside request candidate = true := by
  rw [arrange, mem_dedup, List.mem_insertionSort, List.mem_filter]

section Next

variable {request : ResolutionRequest Version Req}

omit [LinearOrder Version] [DecidableEq Req] in
/-- The first of two packages is one of them. -/
theorem nearer_eq (best : Option PackageKey) (key : PackageKey) :
    nearer request best key = some key ∨ nearer request best key = best ∧ best ≠ none := by
  cases best with
  | none => exact .inl rfl
  | some least =>
    rw [nearer]
    by_cases first : rank request key < rank request least ∨
        rank request key = rank request least ∧ key < least
    · exact .inl (if_pos first)
    · exact .inr ⟨if_neg first, Option.some_ne_none least⟩

omit [LinearOrder Version] [DecidableEq Req] in
/-- The first of several packages is one of them, and there is one unless there are none. -/
theorem foldl_nearer : ∀ (list : List PackageKey) (best : Option PackageKey),
    (∀ key, list.foldl (nearer request) best = some key → key ∈ list ∨ best = some key) ∧
      (list.foldl (nearer request) best = none → list = [] ∧ best = none)
  | [], best => ⟨fun key held => .inr held, fun held => ⟨rfl, held⟩⟩
  | first :: rest, best => by
    obtain ⟨some_spec, none_spec⟩ := foldl_nearer rest (nearer request best first)
    rw [List.foldl_cons]
    constructor
    · intro key held
      rcases some_spec key held with later | here
      · exact .inl (List.mem_cons_of_mem _ later)
      · rcases nearer_eq best first with new | ⟨old, _⟩
        · rw [new, Option.some_inj] at here
          exact .inl (here ▸ List.mem_cons_self)
        · exact .inr (old ▸ here)
    · intro held
      have gone := (none_spec held).2
      rcases nearer_eq best first with new | ⟨old, present⟩
      · rw [new] at gone
        cases gone
      · exact absurd (old ▸ gone) present

omit [LinearOrder Version] [DecidableEq Req] in
/-- The package to decide next is required and not yet selected. -/
theorem nextKey_eq_some {required : SortedMap PackageKey (List (PackageRequirement Req))}
    {selected : Selection Version Req} {key : PackageKey}
    (next : nextKey request required selected = some key) :
    key ∈ required.keys ∧ key ∉ selected.keys := by
  rcases (foldl_nearer _ none).1 key next with inside | absent
  · obtain ⟨member, fresh⟩ := List.mem_filter.mp inside
    refine ⟨member, fun held => ?_⟩
    rw [SortedMap.contains_iff.mpr held] at fresh
    cases fresh
  · cases absent

omit [LinearOrder Version] [DecidableEq Req] in
/-- Without a package to decide next every required package is selected. -/
theorem nextKey_eq_none {required : SortedMap PackageKey (List (PackageRequirement Req))}
    {selected : Selection Version Req} (next : nextKey request required selected = none)
    {key : PackageKey} (member : key ∈ required.keys) : key ∈ selected.keys := by
  have empty := ((foldl_nearer _ none).2 next).1
  by_contra fresh
  have inside : key ∈ required.keys.filter fun key => !selected.contains key := by
    refine List.mem_filter.mpr ⟨member, ?_⟩
    rw [Bool.not_eq_true', ← Bool.not_eq_true, SortedMap.contains_iff]
    exact fresh
  rw [empty] at inside
  exact List.not_mem_nil inside

end Next

end Fai.Package
