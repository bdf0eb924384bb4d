import FaiVerif.Resolve.Scc

/-!
# The components of a module are exact and canonical

Two definitions are inferred together when they depend on each other through definitions without a
signature. The components that come out do not depend on the order of the keys of the hash map.
-/

namespace Fai.Resolve

open Components Function Tarjan

section Sorting

/-- Sorting keeps the definitions. -/
theorem sortByName_perm (defs : List DefId) : (sortByName defs).Perm defs := List.mergeSort_perm _ _

/-- A definition in a sorted list. -/
theorem mem_sortByName {d : DefId} {defs : List DefId} : d ∈ sortByName defs ↔ d ∈ defs :=
  (sortByName_perm defs).mem_iff

/-- Sorted lists ascend by name. -/
theorem pairwise_sortByName (defs : List DefId) :
    (sortByName defs).Pairwise fun a b => a.name ≤ b.name := by
  refine (List.pairwise_mergeSort (fun a b c first second => ?_) (fun a b => ?_) defs).imp
    of_decide_eq_true
  · exact decide_eq_true (le_trans (of_decide_eq_true first) (of_decide_eq_true second))
  · rw [Bool.or_eq_true, decide_eq_true_eq, decide_eq_true_eq]
    exact le_total a.name b.name

/-- Sorting the parts of a list keeps its definitions. -/
theorem flatten_sortByName_perm (components : List (List DefId)) :
    (components.map sortByName).flatten.Perm components.flatten := by
  induction components with
  | nil => exact .refl _
  | cons members components hypothesis =>
    rw [List.map_cons, List.flatten_cons, List.flatten_cons]
    exact (sortByName_perm members).append hypothesis

/-- Two orders of definitions of one file are sorted alike. -/
theorem sortByName_eq_of_perm {file : Nat} {first second : List DefId}
    (within : ∀ d ∈ first, d.file = file) (perm : first.Perm second) :
    sortByName first = sortByName second := by
  refine List.Perm.eq_of_pairwise ?_ (pairwise_sortByName first) (pairwise_sortByName second)
    ((sortByName_perm first).trans (perm.trans (sortByName_perm second).symm))
  intro a b member member' less more
  have inside := within a (mem_sortByName.mp member)
  have inside' := within b (perm.mem_iff.mpr (mem_sortByName.mp member'))
  obtain ⟨fileA, nameA⟩ := a
  obtain ⟨fileB, nameB⟩ := b
  obtain rfl : nameA = nameB := le_antisymm less more
  rw [show fileA = fileB from inside.trans inside'.symm]

/-- Only repetitions are dropped. -/
theorem mem_dedup {α : Type} [DecidableEq α] {x : α} {xs : List α} : x ∈ dedup xs ↔ x ∈ xs := by
  fun_induction dedup xs with
  | case1 => rfl
  | case2 => rfl
  | case3 first xs hypothesis => simp [hypothesis]
  | case4 first next xs other hypothesis => simp [hypothesis]

end Sorting

section Indices

/-- The members of a component get its index. -/
theorem fill_members (members : List DefId) (i : Nat) (index : DefId → Option Nat) (d : DefId) :
    members.foldl (fun index member => update index member (some i)) index d =
      if d ∈ members then some i else index d := by
  induction members generalizing index with
  | nil => simp
  | cons first members hypothesis =>
    rw [List.foldl_cons, hypothesis]
    by_cases later : d ∈ members
    · rw [if_pos later, if_pos (List.mem_cons_of_mem first later)]
    · by_cases here : d = first
      · subst here
        rw [if_neg later, if_pos List.mem_cons_self, update_self]
      · rw [if_neg later, update_of_ne here, if_neg (by simp [here, later])]

/-- A definition in no component keeps its index. -/
theorem index_of_not_mem {sccs : List Scc} (start : Nat) (index : DefId → Option Nat) {d : DefId}
    (outside : ∀ scc ∈ sccs, d ∉ scc.members) :
    (sccs.zipIdx start).foldl (fun index entry =>
      entry.1.members.foldl (fun index member => update index member (some entry.2)) index) index
        d =
        index d := by
  induction sccs generalizing start index with
  | nil => rfl
  | cons scc sccs hypothesis =>
    rw [List.zipIdx_cons, List.foldl_cons,
      hypothesis (start + 1) _ fun other member => outside other (List.mem_cons_of_mem scc member),
      fill_members, if_neg (outside scc List.mem_cons_self)]

/-- A definition that is in one component only gets the index of that component. -/
theorem indexMembers_eq {sccs : List Scc} {i : Nat} {scc : Scc} {d : DefId}
    (entry : sccs[i]? = some scc) (member : d ∈ scc.members)
    (once : ∀ j other, sccs[j]? = some other → d ∈ other.members → j = i) :
    indexMembers sccs d = some i := by
  obtain ⟨inside, same⟩ := List.getElem?_eq_some_iff.mp entry
  have split : sccs = sccs.take i ++ scc :: sccs.drop (i + 1) := by
    rw [← same, ← List.drop_eq_getElem_cons inside, List.take_append_drop]
  have later : ∀ other ∈ sccs.drop (i + 1), d ∉ other.members := by
    intro other among member'
    obtain ⟨k, entry'⟩ := List.mem_iff_getElem?.mp among
    rw [List.getElem?_drop] at entry'
    have := once _ other entry' member'
    omega
  have size : (sccs.take i).length = i := by
    rw [List.length_take]
    omega
  rw [indexMembers, split, List.zipIdx_append, List.foldl_append, List.zipIdx_cons,
    List.foldl_cons, index_of_not_mem _ _ later, fill_members, if_pos member, size, Nat.zero_add]

end Indices

section Module

variable {file : Nat} {defs : List DefInfo} {depsOf : DefId → List DefId}

variable (file defs depsOf) in
/-- A definition without a signature refers to another one. -/
def Depends (a b : DefId) : Prop :=
  a ∈ sigless file defs ∧ b ∈ sigless file defs ∧ b ∈ depsOf a

variable (file defs depsOf) in
/-- Two definitions depend on each other, through definitions without a signature. -/
def Mutual (a b : DefId) : Prop :=
  Relation.ReflTransGen (Depends file defs depsOf) a b ∧
    Relation.ReflTransGen (Depends file defs depsOf) b a

variable (file defs depsOf) in
/-- The components of a module, as inference needs them. -/
structure Grouped (result : ModuleSccs) : Prop where
  /-- Every definition is found in the component of those that depend on it and it on them. -/
  found : ∀ d ∈ nodes file defs, ∃ scc, result.sccOf d = some scc ∧
    ∀ e, e ∈ scc.members ↔ Mutual file defs depsOf d e
  /-- Every component is the one of its members, which are definitions of the file. -/
  members : ∀ (i : Nat) scc, result.sccs[i]? = some scc → scc.members ≠ [] ∧
    ∀ d ∈ scc.members, d ∈ nodes file defs ∧ result.indexOf d = some i
  /-- Members ascend by name. -/
  ascending : ∀ scc ∈ result.sccs, scc.members.Pairwise fun a b => a.name ≤ b.name
  /-- Components ascend by the name of their first member. -/
  ordered : result.sccs.Pairwise fun a b => a.firstName ≤ b.firstName

/-- What a definition without a signature refers to. -/
theorem mem_successors_defDeps {a b : DefId} : b ∈ successors (defDeps file defs depsOf) a ↔
    a ≠ b ∧ Depends file defs depsOf a b := by
  rw [successors, defDeps, Depends]
  by_cases node : a ∈ sigless file defs
  · rw [if_pos node, Option.getD_some, mem_dedup, mem_sortByName, List.mem_filter,
      decide_eq_true_eq]
    exact ⟨fun both => ⟨both.2.1.symm, node, both.2.2, both.1⟩,
      fun all => ⟨all.2.2.2, all.1.symm, all.2.2.1⟩⟩
  · rw [if_neg node]
    exact ⟨fun member => absurd member List.not_mem_nil, fun all => absurd all.2.1 node⟩

/-- References of a definition to itself do not matter. -/
theorem reach_defDeps {a b : DefId} : Reach (successors (defDeps file defs depsOf)) a b ↔
    Relation.ReflTransGen (Depends file defs depsOf) a b := by
  constructor
  · exact Relation.ReflTransGen.mono (fun x y edge => (mem_successors_defDeps.mp edge).2) _ _
  · intro path
    induction path with
    | refl => exact .refl
    | @tail x y _ edge hypothesis =>
      by_cases same : x = y
      · exact same ▸ hypothesis
      · exact hypothesis.tail (mem_successors_defDeps.mpr ⟨same, edge⟩)

/-- Classes of the graph are groups of definitions. -/
theorem strong_defDeps {a b : DefId} : Strong (successors (defDeps file defs depsOf)) a b ↔
    Mutual file defs depsOf a b := and_congr reach_defDeps reach_defDeps

/-- A definition with a signature is a group of its own. -/
theorem mutual_iff_eq {a b : DefId} (outside : a ∉ sigless file defs) :
    Mutual file defs depsOf a b ↔ b = a := by
  refine ⟨fun both => ?_, fun same => same ▸ ⟨.refl, .refl⟩⟩
  rcases both.1.cases_head with same | ⟨c, edge, -⟩
  · exact same.symm
  · exact absurd edge.1 outside

/-- The components of the graph, whatever order its keys are in. -/
theorem componentsOf_defDeps (depsOf : DefId → List DefId) {order : List DefId}
    (perm : order.Perm (sigless file defs)) :
    ∃ components, componentsOf (defDeps file defs depsOf) order = some components ∧
      Exact (successors (defDeps file defs depsOf)) order components :=
  componentsOf_exact _ _ fun _ _ _ edge => perm.mem_iff.mpr (mem_successors_defDeps.mp edge).2.2.1

variable (file defs) in
/-- The definitions with a signature. -/
def signatured : List DefId := (defs.filter (·.signature.isSome)).map fun d => ⟨file, d.name⟩

/-- Definitions have a signature or not. -/
theorem mem_nodes {d : DefId} :
    d ∈ nodes file defs ↔ d ∈ sigless file defs ∨ d ∈ signatured file defs := by
  simp only [nodes, sigless, signatured, List.mem_map, List.mem_filter]
  constructor
  · rintro ⟨info, member, rfl⟩
    cases has : info.signature with
    | none => exact .inl ⟨info, ⟨member, by rw [has]; rfl⟩, rfl⟩
    | some item => exact .inr ⟨info, ⟨member, by rw [has]; rfl⟩, rfl⟩
  · rintro (⟨info, both, rfl⟩ | ⟨info, both, rfl⟩) <;> exact ⟨info, both.1, rfl⟩

/-- Definitions of the file. -/
theorem file_of_mem_nodes {d : DefId} (member : d ∈ nodes file defs) : d.file = file := by
  obtain ⟨info, -, rfl⟩ := List.mem_map.mp member
  rfl

/-- With distinct names, no definition both has a signature and has none. -/
theorem nodup_split (file : Nat) (distinct : (defs.map (·.name)).Nodup) :
    (signatured file defs).Nodup ∧ ∀ d ∈ sigless file defs, d ∉ signatured file defs := by
  have injective : ∀ a ∈ defs, ∀ b ∈ defs, a.name = b.name → a = b :=
    (List.nodup_map_iff_inj_on distinct.of_map).mp distinct
  constructor
  · refine List.Nodup.map_on ?_ (distinct.of_map.filter _)
    intro a member b member' same
    exact injective a (List.mem_filter.mp member).1 b (List.mem_filter.mp member').1
      (DefId.mk.inj same).2
  · intro d member member'
    obtain ⟨a, inside, rfl⟩ := List.mem_map.mp member
    obtain ⟨b, inside', same⟩ := List.mem_map.mp member'
    obtain ⟨within, without⟩ := List.mem_filter.mp inside
    obtain ⟨within', has⟩ := List.mem_filter.mp inside'
    obtain rfl := injective b within' a within (DefId.mk.inj same).2
    rw [Option.isNone_iff_eq_none] at without
    rw [without] at has
    cases has

/-- The components of the graph and the definitions with a signature are all components. -/
theorem exact_all (distinct : (defs.map (·.name)).Nodup) {order : List DefId}
    (perm : order.Perm (sigless file defs)) {components : List (List DefId)}
    (exact : Exact (successors (defDeps file defs depsOf)) order components) :
    Exact (successors (defDeps file defs depsOf)) (nodes file defs)
      (components.map sortByName ++ (signatured file defs).map ([·])) := by
  obtain ⟨once, apart⟩ := nodup_split file distinct
  have singles : ((signatured file defs).map ([·])).flatten = signatured file defs := by
    rw [← List.flatMap_def, List.flatMap_singleton']
  have sorted := flatten_sortByName_perm components
  have among {d : DefId} : d ∈ (components.map sortByName).flatten ↔ d ∈ sigless file defs := by
    rw [sorted.mem_iff, exact.covers, perm.mem_iff]
  refine ⟨fun d => ?_, ?_, fun c member => ?_, fun c member d inside e => ?_⟩
  · rw [List.flatten_append, List.mem_append, among, singles, mem_nodes]
  · rw [List.flatten_append, singles, List.nodup_append]
    refine ⟨sorted.nodup_iff.mpr exact.distinct, once, fun d member e member' same => ?_⟩
    exact apart d (among.mp member) (same ▸ member')
  · rcases List.mem_append.mp member with first | second
    · obtain ⟨members, inside, rfl⟩ := List.mem_map.mp first
      intro empty
      refine exact.nonempty members inside ?_
      rw [← List.perm_nil, ← empty]
      exact (sortByName_perm members).symm
    · obtain ⟨d, -, rfl⟩ := List.mem_map.mp second
      exact List.cons_ne_nil d []
  · rcases List.mem_append.mp member with first | second
    · obtain ⟨members, within, rfl⟩ := List.mem_map.mp first
      rw [mem_sortByName] at inside ⊢
      exact exact.strong members within d inside e
    · obtain ⟨single, within, rfl⟩ := List.mem_map.mp second
      obtain rfl := List.mem_singleton.mp inside
      rw [strong_defDeps, mutual_iff_eq fun without => apart d without within, List.mem_singleton]

variable (file defs) in
/-- The components of `module_sccs`, before and after they are sorted. -/
def collected (components : List (List DefId)) : List Scc :=
  components.map (fun members => ⟨sortByName members⟩) ++
    (defs.filter (·.signature.isSome)).map fun d => ⟨[⟨file, d.name⟩]⟩

/-- The members of the components. -/
theorem map_members_collected (components : List (List DefId)) :
    (collected file defs components).map (·.members) =
      components.map sortByName ++ (signatured file defs).map ([·]) := by
  rw [collected, List.map_append, List.map_map, List.map_map, signatured, List.map_map]
  rfl

/-- Components sorted by the name of their first member. -/
def sortSccs (sccs : List Scc) : List Scc :=
  sccs.mergeSort fun a b => decide (a.firstName ≤ b.firstName)

/-- They ascend by it. -/
theorem pairwise_sortSccs (sccs : List Scc) :
    (sortSccs sccs).Pairwise fun a b => a.firstName ≤ b.firstName := by
  refine (List.pairwise_mergeSort (fun a b c first second => ?_) (fun a b => ?_) sccs).imp
    of_decide_eq_true
  · exact decide_eq_true (le_trans (of_decide_eq_true first) (of_decide_eq_true second))
  · rw [Bool.or_eq_true, decide_eq_true_eq, decide_eq_true_eq]
    exact le_total a.firstName b.firstName

/-- The first name is the one of a member. -/
theorem exists_firstName {scc : Scc} (some : scc.members ≠ []) :
    ∃ d ∈ scc.members, scc.firstName = d.name := by
  obtain ⟨first, rest, split⟩ := List.exists_cons_of_ne_nil some
  refine ⟨first, split ▸ List.mem_cons_self, ?_⟩
  rw [Scc.firstName, split]
  rfl

/-- Components with the same first name are the same. -/
theorem eq_of_firstName {components : List (List DefId)}
    (exact : Exact (successors (defDeps file defs depsOf)) (nodes file defs) components)
    {a b : Scc} (member : a.members ∈ components) (member' : b.members ∈ components)
    (same : a.firstName = b.firstName) : a = b := by
  obtain ⟨d, inside, name⟩ := exists_firstName (exact.nonempty _ member)
  obtain ⟨e, inside', name'⟩ := exists_firstName (exact.nonempty _ member')
  have first := (exact.covers d).mp (List.mem_flatten.mpr ⟨_, member, inside⟩)
  have second := (exact.covers e).mp (List.mem_flatten.mpr ⟨_, member', inside'⟩)
  obtain ⟨info, -, rfl⟩ := List.mem_map.mp first
  obtain ⟨info', -, rfl⟩ := List.mem_map.mp second
  have names : info.name = info'.name := name.symm.trans (same.trans name')
  rw [← names] at inside'
  have members := exact.eq_of_mem member member' inside inside'
  cases a
  cases b
  exact congrArg Scc.mk members

/-- The result for components that are exact. -/
theorem grouped_of_exact {sccs : List Scc}
    (exact : Exact (successors (defDeps file defs depsOf)) (nodes file defs)
      (sccs.map (·.members)))
    (ascending : ∀ scc ∈ sccs, scc.members.Pairwise fun a b => a.name ≤ b.name)
    (ordered : sccs.Pairwise fun a b => a.firstName ≤ b.firstName) :
    Grouped file defs depsOf ⟨sccs, indexMembers sccs⟩ := by
  have lists {i : Nat} {scc : Scc} (entry : sccs[i]? = some scc) :
      (sccs.map (·.members))[i]? = some scc.members := by
    rw [List.getElem?_map, entry]
    rfl
  have index {i : Nat} {scc : Scc} {d : DefId} (entry : sccs[i]? = some scc)
      (member : d ∈ scc.members) : indexMembers sccs d = some i :=
    indexMembers_eq entry member fun j other entry' member' =>
      exact.index_unique (lists entry') (lists entry) member' member
  refine ⟨fun d node => ?_, fun i scc entry => ⟨?_, fun d member => ⟨?_, index entry member⟩⟩,
    ascending, ordered⟩
  · obtain ⟨members, among, member⟩ := exact.exists_component node
    obtain ⟨scc, inside, rfl⟩ := List.mem_map.mp among
    obtain ⟨i, entry⟩ := List.mem_iff_getElem?.mp inside
    refine ⟨scc, ?_, fun e => ?_⟩
    · show ((indexMembers sccs d).bind fun i => sccs[i]?) = some scc
      rw [index entry member]
      exact entry
    · rw [exact.strong scc.members among d member, strong_defDeps]
  · exact exact.nonempty _ (List.mem_of_getElem? (lists entry))
  · exact (exact.covers d).mp
      (List.mem_flatten.mpr ⟨_, List.mem_of_getElem? (lists entry), member⟩)

/-- With distinct names, the components of a module hold exactly the definitions that depend on one
another through definitions without a signature, and they are the same in whatever order the hash
map gives its keys. -/
theorem moduleSccs_exact (file : Nat) (defs : List DefInfo) (depsOf : DefId → List DefId)
    (distinct : (defs.map (·.name)).Nodup) :
    ∃ result, Grouped file defs depsOf result ∧ ∀ order, order.Perm (sigless file defs) →
      moduleSccs file defs depsOf order = some result := by
  have all {order : List DefId} (perm : order.Perm (sigless file defs))
      {components : List (List DefId)}
      (exact : Exact (successors (defDeps file defs depsOf)) order components) :
      Exact (successors (defDeps file defs depsOf)) (nodes file defs)
        ((collected file defs components).map (·.members)) := by
    rw [map_members_collected]
    exact exact_all distinct perm exact
  have inside {d : DefId} (member : d ∈ sigless file defs) : d.file = file :=
    file_of_mem_nodes (mem_nodes.mpr (.inl member))
  obtain ⟨components, found, exact⟩ :=
    componentsOf_defDeps depsOf (.refl (sigless file defs))
  have sorted := List.mergeSort_perm (collected file defs components)
    fun a b => decide (a.firstName ≤ b.firstName)
  refine ⟨⟨sortSccs (collected file defs components), indexMembers _⟩, grouped_of_exact
    ((all (.refl _) exact).perm (sorted.map _).symm) (fun scc member => ?_)
    (pairwise_sortSccs _), fun order perm => ?_⟩
  · rcases List.mem_append.mp (sorted.mem_iff.mp member) with first | second
    · obtain ⟨members, -, rfl⟩ := List.mem_map.mp first
      exact pairwise_sortByName members
    · obtain ⟨info, -, rfl⟩ := List.mem_map.mp second
      exact List.pairwise_singleton _ _
  · obtain ⟨components', found', exact'⟩ := componentsOf_defDeps depsOf perm
    have lists : (components'.map sortByName).Perm (components.map sortByName) :=
      exact'.perm_map exact (fun d => perm.mem_iff) sortByName_perm
        fun c d within => sortByName_eq_of_perm fun e member =>
          inside (perm.mem_iff.mp (within e member))
    have same : (collected file defs components').Perm (collected file defs components) := by
      refine List.Perm.append_right _ ?_
      have := lists.map Scc.mk
      rwa [List.map_map, List.map_map] at this
    have equal : sortSccs (collected file defs components') =
        sortSccs (collected file defs components) := by
      refine List.Perm.eq_of_pairwise ?_ (pairwise_sortSccs _) (pairwise_sortSccs _)
        ((List.mergeSort_perm _ _).trans (same.trans sorted.symm))
      intro a b member member' less more
      refine eq_of_firstName (all (.refl _) exact) ?_ ?_ (le_antisymm less more)
      · exact List.mem_map_of_mem (same.mem_iff.mp ((List.mergeSort_perm _ _).mem_iff.mp member))
      · exact List.mem_map_of_mem (sorted.mem_iff.mp member')
    rw [← equal, moduleSccs, found']
    rfl

/-- Two definitions that refer to each other, and one with a signature. -/
theorem moduleSccs_exact_three : ∃ result,
    Grouped 0 [⟨"even", none⟩, ⟨"odd", none⟩, ⟨"main", some 2⟩]
      (fun d => if d.name = "even" then [⟨0, "odd"⟩] else [⟨0, "even"⟩]) result ∧
    ∀ order, order.Perm (sigless 0 [⟨"even", none⟩, ⟨"odd", none⟩, ⟨"main", some 2⟩]) →
      moduleSccs 0 [⟨"even", none⟩, ⟨"odd", none⟩, ⟨"main", some 2⟩]
        (fun d => if d.name = "even" then [⟨0, "odd"⟩] else [⟨0, "even"⟩]) order = some result :=
  moduleSccs_exact 0 [⟨"even", none⟩, ⟨"odd", none⟩, ⟨"main", some 2⟩]
    (fun d => if d.name = "even" then [⟨0, "odd"⟩] else [⟨0, "even"⟩]) (by simp)

/-- What a definition of the file refers to within it. -/
theorem mem_successors_references {a b : DefId} : b ∈ successors (references file defs depsOf) a ↔
    a ∈ nodes file defs ∧ b ∈ nodes file defs ∧ b ∈ depsOf a := by
  rw [successors, references]
  by_cases node : a ∈ nodes file defs
  · rw [if_pos node, Option.getD_some, mem_dedup, mem_sortByName, List.mem_filter,
      decide_eq_true_eq]
    exact ⟨fun both => ⟨node, both.2, both.1⟩, fun all => ⟨all.2.2, all.2.1⟩⟩
  · rw [if_neg node]
    exact ⟨fun member => absurd member List.not_mem_nil, fun all => absurd all.1 node⟩

variable (file defs depsOf) in
/-- A definition of the file refers to another one. -/
def Refers (a b : DefId) : Prop := a ∈ nodes file defs ∧ b ∈ nodes file defs ∧ b ∈ depsOf a

/-- The recursive definitions of a file are exactly those that refer to themselves over any number
of definitions of the file, with and without signatures. -/
theorem recursiveDefs_exact (file : Nat) (defs : List DefInfo) (depsOf : DefId → List DefId)
    (keys : List DefId) (all : ∀ d, d ∈ keys ↔ d ∈ nodes file defs) :
    ∃ result, recursiveDefs file defs depsOf keys = some result ∧
      ∀ d, d ∈ result ↔ Relation.TransGen (Refers file defs depsOf) d d := by
  have edge_iff {a b : DefId} : b ∈ successors (references file defs depsOf) a ↔
      Refers file defs depsOf a b := mem_successors_references
  have edges : (fun a b => b ∈ successors (references file defs depsOf) a) =
      Refers file defs depsOf := by
    funext a b
    exact propext edge_iff
  have order {d : DefId} : d ∈ sortByName keys ↔ d ∈ nodes file defs :=
    mem_sortByName.trans (all d)
  obtain ⟨components, found, exact⟩ := componentsOf_exact (references file defs depsOf)
    (sortByName keys) fun a _ b edge => order.mpr (edge_iff.mp edge).2.1
  refine ⟨_, by rw [recursiveDefs, found]; rfl, fun d => ?_⟩
  rw [List.mem_append, List.mem_filter, decide_eq_true_eq, List.mem_flatten]
  constructor
  · rintro (⟨node, itself⟩ | ⟨component, member, inside⟩)
    · exact .single ⟨node, node, itself⟩
    · obtain ⟨among, large⟩ := List.mem_filter.mp member
      rw [decide_eq_true_eq] at large
      have distinct := (List.nodup_flatten.mp exact.distinct).1 component among
      obtain ⟨e, inside', differ⟩ : ∃ e ∈ component, e ≠ d := by
        by_contra none
        have alone := List.eq_replicate_iff.mpr ⟨rfl, fun e member =>
          by_contra fun differ => none ⟨e, member, differ⟩⟩
        rw [alone, List.nodup_replicate] at distinct
        omega
      have strong := (exact.strong component among d inside e).mp inside'
      have cycle := strong.cycle differ.symm
      rwa [edges] at cycle
  · intro cycle
    obtain ⟨e, edge, rest⟩ := Relation.TransGen.head'_iff.mp cycle
    by_cases itself : e = d
    · subst itself
      exact .inl ⟨edge.1, edge.2.2⟩
    · obtain ⟨component, among, inside⟩ := exact.exists_component (order.mpr edge.1)
      have strong : Strong (successors (references file defs depsOf)) d e :=
        ⟨.single (edge_iff.mpr edge),
          Relation.ReflTransGen.mono (fun x y edge => edge_iff.mpr edge) _ _ rest⟩
      have inside' := (exact.strong component among d inside e).mpr strong
      refine .inr ⟨component, List.mem_filter.mpr ⟨among, decide_eq_true ?_⟩, inside⟩
      by_contra small
      obtain ⟨only, rfl⟩ : ∃ only, component = [only] := List.length_eq_one_iff.mp (by
        have := List.length_pos_of_mem inside
        omega)
      rw [List.mem_singleton] at inside inside'
      exact itself (inside'.trans inside.symm)

end Module

/-- A definition that refers to itself, and one that does not. -/
theorem recursiveDefs_exact_two : ∃ result,
    recursiveDefs 0 [⟨"loop", none⟩, ⟨"main", some 1⟩] (fun _ => [⟨0, "loop"⟩])
      [⟨0, "main"⟩, ⟨0, "loop"⟩] = some result ∧ ∀ d, d ∈ result ↔ Relation.TransGen
        (Refers 0 [⟨"loop", none⟩, ⟨"main", some 1⟩] fun _ => [⟨0, "loop"⟩]) d d :=
  recursiveDefs_exact 0 [⟨"loop", none⟩, ⟨"main", some 1⟩] (fun _ => [⟨0, "loop"⟩])
    [⟨0, "main"⟩, ⟨0, "loop"⟩] fun d => by simp [nodes, or_comm]

end Fai.Resolve
