import FaiVerif.Collections.DictMap
import FaiVerif.Collections.OrderedSet
import Mathlib.Data.Set.Card

/-!
# Runs of the ordered collections

The ordered set is the ordered dictionary of unit values: forgetting nothing, each of its operations
is the dictionary's. Over every sequence of operations the trees stay balanced search trees with
exact sizes, and they answer as the finite map or the set that the same operations build.
-/

namespace Fai.Collections

variable {κ ν ω α β : Type}

/-- A list without repetition of the elements of a set is as long as the set is large. -/
theorem ncard_eq_length {m : Set α} {list : List α} (distinct : list.Nodup)
    (listed : ∀ x, x ∈ list ↔ x ∈ m) : m.ncard = list.length := by
  classical
  have same : m = (list.toFinset : Set α) := by
    ext x
    rw [List.coe_toFinset, Set.mem_ofPred_eq, listed]
  rw [same, Set.ncard_coe_finset, List.toFinset_card_of_nodup distinct]

namespace SetTree

/-- The tree of a set as that of a dictionary. -/
def toDict : SetTree α → Dict α Unit
  | empty => .empty
  | node n l x r => .node n (toDict l) x () (toDict r)

/-- The cached sizes are the same. -/
@[simp] theorem size_toDict (s : SetTree α) : (toDict s).size = size s := by
  cases s with
  | empty => rfl
  | node => rfl

/-- A node. -/
@[simp] theorem toDict_bin (l : SetTree α) (x : α) (r : SetTree α) :
    toDict (bin l x r) = Dict.bin (toDict l) x () (toDict r) := by
  rw [bin, toDict, Dict.bin, size_toDict, size_toDict]

/-- A rotation. -/
@[simp] theorem toDict_balance (l : SetTree α) (x : α) (r : SetTree α) :
    toDict (balance l x r) = Dict.balance (toDict l) x () (toDict r) := by
  unfold balance Dict.balance delta Dict.delta ratio Dict.ratio
  rw [size_toDict, size_toDict]
  by_cases few : size l + size r ≤ 1
  · rw [if_pos few, if_pos few, toDict_bin]
  rw [if_neg few, if_neg few]
  by_cases heavyRight : size r > 3 * size l
  · rw [if_pos heavyRight, if_pos heavyRight]
    cases r with
    | empty =>
      rw [toDict_bin]
      rfl
    | node s rl ry rr =>
      simp only [toDict, size_toDict]
      by_cases single : size rl < 2 * size rr
      · rw [if_pos single, if_pos single, toDict_bin, toDict_bin]
      · rw [if_neg single, if_neg single]
        cases rl with
        | empty => simp only [toDict_bin, toDict]
        | node => simp only [toDict_bin, toDict]
  rw [if_neg heavyRight, if_neg heavyRight]
  by_cases heavyLeft : size l > 3 * size r
  · rw [if_pos heavyLeft, if_pos heavyLeft]
    cases l with
    | empty =>
      rw [toDict_bin]
      rfl
    | node s ll ly lr =>
      simp only [toDict, size_toDict]
      by_cases single : size lr < 2 * size ll
      · rw [if_pos single, if_pos single, toDict_bin, toDict_bin]
      · rw [if_neg single, if_neg single]
        cases lr with
        | empty => simp only [toDict_bin, toDict]
        | node => simp only [toDict_bin, toDict]
  · rw [if_neg heavyLeft, if_neg heavyLeft, toDict_bin]

/-- A rebuilt node, rotated or not. -/
theorem toDict_rebuild (heavy : Prop) [Decidable heavy] (l : SetTree α) (x : α) (r : SetTree α) :
    toDict (if heavy then balance l x r else bin l x r) =
      if heavy then Dict.balance (toDict l) x () (toDict r)
      else Dict.bin (toDict l) x () (toDict r) := by
  by_cases rotated : heavy
  · rw [if_pos rotated, if_pos rotated, toDict_balance]
  · rw [if_neg rotated, if_neg rotated, toDict_bin]

/-- The least element and the rest. -/
theorem toDict_takeMin : ∀ (l : SetTree α) (x : α) (r : SetTree α),
    Dict.takeMin (toDict l) x () (toDict r) =
      (toDict (takeMin l x r).1, (takeMin l x r).2, ())
  | empty, _, _ => rfl
  | node n ll ly lr, x, r => by
    simp only [toDict, Dict.takeMin, takeMin, toDict_takeMin ll ly lr, size_toDict]
    rw [toDict_rebuild]
    rfl

/-- Linking. -/
@[simp] theorem toDict_join (l : SetTree α) (x : α) (r : SetTree α) :
    toDict (join l x r) = Dict.join (toDict l) x () (toDict r) := by
  fun_induction join l x r with
  | case1 l heavy => simp [size] at heavy
  | case2 l n rl ry rr heavy induct =>
    have unfolded := Dict.join.eq_def (toDict l) x () (toDict (node n rl ry rr))
    rw [if_pos (by rw [size_toDict, size_toDict]; exact heavy)] at unfolded
    rw [toDict_balance, induct, unfolded]
    rfl
  | case3 r _ heavy => simp [size] at heavy
  | case4 r n ll ly lr light heavy induct =>
    have unfolded := Dict.join.eq_def (toDict (node n ll ly lr)) x () (toDict r)
    rw [if_neg (by rw [size_toDict, size_toDict]; exact light),
      if_pos (by rw [size_toDict, size_toDict]; exact heavy)] at unfolded
    rw [toDict_balance, induct, unfolded]
    rfl
  | case5 l r lightRight lightLeft =>
    have unfolded := Dict.join.eq_def (toDict l) x () (toDict r)
    rw [if_neg (by rw [size_toDict, size_toDict]; exact lightRight),
      if_neg (by rw [size_toDict, size_toDict]; exact lightLeft)] at unfolded
    rw [toDict_bin, unfolded]

/-- Merging. -/
@[simp] theorem toDict_join2 (l r : SetTree α) :
    toDict (join2 l r) = Dict.join2 (toDict l) (toDict r) := by
  cases l with
  | empty => rfl
  | node =>
    cases r with
    | empty => rfl
    | node n rl ry rr =>
      simp only [join2, toDict, Dict.join2, toDict_takeMin, toDict_join]

section Keyed

variable (order : KeyOrder α)

/-- Adding an element: one that is found is kept, and it is the one added. -/
theorem toDict_insert (x : α) : ∀ s : SetTree α,
    toDict (insert order x s) = Dict.insert order x () (toDict s)
  | empty => rfl
  | node n l y r => by
    simp only [insert, toDict, Dict.insert]
    by_cases less : order.compare x y < 0
    · rw [if_pos less, if_pos less, toDict_rebuild, toDict_insert x l]
      rw [← toDict_insert x l, size_toDict, size_toDict]
      rfl
    rw [if_neg less, if_neg less]
    by_cases greater : order.compare x y > 0
    · rw [if_pos greater, if_pos greater, toDict_rebuild, toDict_insert x r]
      rw [← toDict_insert x r, size_toDict, size_toDict]
      rfl
    · rw [if_neg greater, if_neg greater, toDict]
      have same := (order.compare_eq_zero x y).mp (by omega)
      rw [same]

/-- The presence of an element. -/
theorem member_toDict (x : α) : ∀ s : SetTree α,
    Dict.member order x (toDict s) = member order x s
  | empty => rfl
  | node n l y r => by
    rw [toDict, Dict.member, member, member_toDict x l, member_toDict x r]

/-- Removing an element. -/
theorem toDict_remove (x : α) : ∀ s : SetTree α,
    toDict (remove order x s) = Dict.remove order x (toDict s)
  | empty => rfl
  | node n l y r => by
    simp only [remove, toDict, Dict.remove]
    by_cases less : order.compare x y < 0
    · rw [if_pos less, if_pos less, toDict_rebuild, toDict_remove x l]
      rw [← toDict_remove x l, size_toDict, size_toDict]
      rfl
    rw [if_neg less, if_neg less]
    by_cases greater : order.compare x y > 0
    · rw [if_pos greater, if_pos greater, toDict_rebuild, toDict_remove x r]
      rw [← toDict_remove x r, size_toDict, size_toDict]
      rfl
    · rw [if_neg greater, if_neg greater, toDict_join2]

/-- Splitting at an element. -/
theorem toDict_splitMember (x : α) : ∀ s : SetTree α,
    Dict.splitMember order x (toDict s) =
      (toDict (splitMember order x s).1, (splitMember order x s).2.1,
        toDict (splitMember order x s).2.2)
  | empty => rfl
  | node n l y r => by
    simp only [toDict, Dict.splitMember, splitMember, toDict_splitMember x l,
      toDict_splitMember x r]
    by_cases less : order.compare x y < 0
    · simp only [if_pos less, toDict_join]
    by_cases greater : order.compare x y > 0
    · simp only [if_neg less, if_pos greater, toDict_join]
    · simp only [if_neg less, if_neg greater]

/-- Uniting. -/
theorem toDict_union : ∀ a b : SetTree α,
    toDict (union order a b) = Dict.union order (toDict a) (toDict b)
  | empty, _ => rfl
  | node n la xa ra, empty => rfl
  | node n la xa ra, node m lb' xb rb' => by
    have split := toDict_splitMember order xa (node m lb' xb rb')
    simp only [toDict] at split
    simp only [union, toDict, Dict.union, split, toDict_join, toDict_union la, toDict_union ra]

/-- Intersecting. -/
theorem toDict_intersection : ∀ a b : SetTree α,
    toDict (intersection order a b) = Dict.intersection order (toDict a) (toDict b)
  | empty, _ => rfl
  | node n la xa ra, b => by
    simp only [intersection, toDict, Dict.intersection, toDict_splitMember order xa b,
      ← toDict_intersection la, ← toDict_intersection ra]
    by_cases present : (splitMember order xa b).2.1 = true
    · rw [if_pos present, if_pos present, toDict_join]
    · rw [if_neg present, if_neg present, toDict_join2]

/-- Subtracting. -/
theorem toDict_difference : ∀ b a : SetTree α,
    toDict (difference order a b) = Dict.difference order (toDict a) (toDict b)
  | empty, _ => rfl
  | node n lb xb rb, a => by
    simp only [difference, toDict, Dict.difference, toDict_splitMember order xb a, toDict_join2,
      toDict_difference lb, toDict_difference rb]

/-- Adding the elements of a list. -/
theorem toDict_inserts (xs : List α) : ∀ s : SetTree α,
    toDict (xs.foldl (fun s x => insert order x s) s) =
      (xs.map fun x => (x, ())).foldl (Dict.insertPair order) (toDict s) := by
  induction xs with
  | nil => exact fun _ => rfl
  | cons x rest induct =>
    intro s
    rw [List.foldl_cons, List.map_cons, List.foldl_cons, induct, toDict_insert]
    rfl

end Keyed

/-- Filtering. -/
theorem toDict_filter (keep : α → Bool) : ∀ s : SetTree α,
    toDict (filter keep s) = Dict.filter (fun x _ => keep x) (toDict s)
  | empty => rfl
  | node n l x r => by
    simp only [filter, toDict, Dict.filter, ← toDict_filter keep l, ← toDict_filter keep r]
    by_cases kept : keep x = true
    · rw [if_pos kept, if_pos kept, toDict_join]
    · rw [if_neg kept, if_neg kept, toDict_join2]

/-- The elements of a tree, from left to right. -/
def elements : SetTree α → List α
  | empty => []
  | node _ l x r => elements l ++ x :: elements r

/-- Every node caches the number of its elements. -/
def SizesExact : SetTree α → Prop
  | empty => True
  | node n l x r => n = (elements (node n l x r)).length ∧ SizesExact l ∧ SizesExact r

/-- At every node the children hold at most one element together, or each side at most `delta`
times the other. -/
def Balanced : SetTree α → Prop
  | empty => True
  | node _ l _ r =>
    ((elements l).length + (elements r).length ≤ 1 ∨
      (elements l).length ≤ delta * (elements r).length ∧
        (elements r).length ≤ delta * (elements l).length) ∧ Balanced l ∧ Balanced r

/-- The search-tree property. -/
def Search (order : KeyOrder α) : SetTree α → Prop
  | empty => True
  | node _ l x r =>
    (∀ y ∈ elements l, order.Less y x) ∧ (∀ y ∈ elements r, order.Less x y) ∧
      Search order l ∧ Search order r

/-- The entries of the dictionary are the elements of the set. -/
theorem entries_toDict : ∀ s : SetTree α, (toDict s).entries = (elements s).map fun x => (x, ())
  | empty => rfl
  | node n l x r => by
    rw [toDict, Dict.entries, entries_toDict l, entries_toDict r, elements, List.map_append,
      List.map_cons]

/-- Sizes are exact in both trees or in neither. -/
theorem sizesExact_toDict : ∀ {s : SetTree α}, (toDict s).SizesExact → SizesExact s
  | empty, _ => trivial
  | node n l x r, ⟨whole, left, right⟩ => by
    have length := congrArg List.length (entries_toDict (node n l x r))
    rw [List.length_map] at length
    exact ⟨whole.trans length, sizesExact_toDict left, sizesExact_toDict right⟩

/-- A balanced dictionary comes from a balanced set. -/
theorem balanced_toDict : ∀ {s : SetTree α}, (toDict s).Balanced → Balanced s
  | empty, _ => trivial
  | node n l x r, ⟨even, left, right⟩ => by
    unfold Dict.Even at even
    rw [entries_toDict, entries_toDict, List.length_map, List.length_map] at even
    exact ⟨even, balanced_toDict left, balanced_toDict right⟩

/-- A search tree of entries comes from a search tree of elements. -/
theorem search_toDict {order : KeyOrder α} : ∀ {s : SetTree α},
    (toDict s).Search order → Search order s
  | empty, _ => trivial
  | node n l x r, ⟨below, above, left, right⟩ => by
    refine ⟨?_, ?_, search_toDict left, search_toDict right⟩
    · intro y inside
      refine below (y, ()) ?_
      rw [entries_toDict]
      exact List.mem_map_of_mem inside
    · intro y inside
      refine above (y, ()) ?_
      rw [entries_toDict]
      exact List.mem_map_of_mem inside

/-- The accumulating traversal lists the elements before the accumulator. -/
theorem toListOnto_eq : ∀ (s : SetTree α) (acc : List α), toListOnto s acc = elements s ++ acc
  | empty, _ => rfl
  | node n l x r, acc => by
    rw [toListOnto, toListOnto_eq r acc, toListOnto_eq l, elements, List.append_assoc]
    rfl

/-- The elements in order. -/
theorem toList_eq (s : SetTree α) : toList s = elements s := by
  rw [toList, toListOnto_eq, List.append_nil]

end SetTree

/-- What a dictionary's tree is, and how it answers, when it stands for a finite map. -/
structure Dict.Represents (order : KeyOrder κ) (d : Dict κ ν) (m : κ → Option ν) : Prop where
  /-- Every cached size is exact. -/
  sizes : d.SizesExact
  /-- The balance bound holds at every node. -/
  balanced : d.Balanced
  /-- Keys are ordered at every node. -/
  search : d.Search order
  /-- Lookups read the map. -/
  get : ∀ key, d.get order key = m key
  /-- Presence is that of the map. -/
  member : ∀ key, d.member order key = (m key).isSome
  /-- The size is the number of the map's keys. -/
  size : d.size = {key | m key ≠ none}.ncard
  /-- The listing is as long as the size. -/
  length : d.toList.length = d.size
  /-- The listing has exactly the map's entries. -/
  listed : ∀ key value, (key, value) ∈ d.toList ↔ m key = some value
  /-- The listing ascends, without repetition. -/
  ascending : d.toList.Pairwise fun a b => order.compare a.1 b.1 < 0

/-- What a set's tree is, and how it answers, when it stands for a set. -/
structure SetTree.Represents (order : KeyOrder α) (s : SetTree α) (m : Set α) : Prop where
  /-- Every cached size is exact. -/
  sizes : s.SizesExact
  /-- The balance bound holds at every node. -/
  balanced : s.Balanced
  /-- Elements are ordered at every node. -/
  search : s.Search order
  /-- Presence is that of the set. -/
  member : ∀ x, s.member order x = true ↔ x ∈ m
  /-- The size is the number of the set's elements. -/
  size : s.size = m.ncard
  /-- The listing is as long as the size. -/
  length : s.toList.length = s.size
  /-- The listing has exactly the set's elements. -/
  listed : ∀ x, x ∈ s.toList ↔ x ∈ m
  /-- The listing ascends, without repetition. -/
  ascending : s.toList.Pairwise fun a b => order.compare a b < 0

/-- The dictionaries that the public operations build, with the finite maps they stand for. -/
inductive DictBuilt (order : KeyOrder κ) : {ν : Type} → Dict κ ν → (κ → Option ν) → Prop
  | empty {ν : Type} : DictBuilt order (Dict.empty : Dict κ ν) FiniteMap.none
  | singleton {ν : Type} (key : κ) (value : ν) :
    DictBuilt order (Dict.singleton key value) (FiniteMap.put Eq FiniteMap.none key (some value))
  | insert {ν : Type} {d : Dict κ ν} {m : κ → Option ν} (key : κ) (value : ν) :
    DictBuilt order d m →
      DictBuilt order (d.insert order key value) (FiniteMap.put Eq m key (some value))
  | remove {ν : Type} {d : Dict κ ν} {m : κ → Option ν} (key : κ) :
    DictBuilt order d m → DictBuilt order (d.remove order key) (FiniteMap.put Eq m key none)
  | update {ν : Type} {d : Dict κ ν} {m : κ → Option ν} (key : κ) (f : Option ν → Option ν) :
    DictBuilt order d m →
      DictBuilt order (d.update order key f) (FiniteMap.put Eq m key (f (m key)))
  | union {ν : Type} {a b : Dict κ ν} {m n : κ → Option ν} :
    DictBuilt order a m → DictBuilt order b n →
      DictBuilt order (Dict.union order a b) (FiniteMap.union m n)
  | intersection {ν : Type} {a b : Dict κ ν} {m n : κ → Option ν} :
    DictBuilt order a m → DictBuilt order b n →
      DictBuilt order (Dict.intersection order a b) (FiniteMap.intersection m n)
  | difference {ν : Type} {a b : Dict κ ν} {m n : κ → Option ν} :
    DictBuilt order a m → DictBuilt order b n →
      DictBuilt order (Dict.difference order a b) (FiniteMap.difference m n)
  | fromList {ν : Type} (pairs : List (κ × ν)) :
    DictBuilt order (Dict.fromList order pairs) (FiniteMap.ofList Eq pairs)
  | map {ν ω : Type} {d : Dict κ ν} {m : κ → Option ν} (f : κ → ν → ω) :
    DictBuilt order d m → DictBuilt order (d.map f) (FiniteMap.map f m)
  | filter {ν : Type} {d : Dict κ ν} {m : κ → Option ν} (keep : κ → ν → Bool) :
    DictBuilt order d m → DictBuilt order (d.filter keep) (FiniteMap.filter keep m)

/-- The sets that the public operations build, with the mathematical sets they stand for. -/
inductive SetBuilt : {α : Type} → KeyOrder α → SetTree α → Set α → Prop
  | empty {α : Type} (order : KeyOrder α) : SetBuilt order SetTree.empty ∅
  | singleton {α : Type} (order : KeyOrder α) (x : α) :
    SetBuilt order (SetTree.singleton x) {x}
  | insert {α : Type} {order : KeyOrder α} {s : SetTree α} {m : Set α} (x : α) :
    SetBuilt order s m → SetBuilt order (s.insert order x) (Insert.insert x m)
  | remove {α : Type} {order : KeyOrder α} {s : SetTree α} {m : Set α} (x : α) :
    SetBuilt order s m → SetBuilt order (s.remove order x) (m \ {x})
  | union {α : Type} {order : KeyOrder α} {a b : SetTree α} {m n : Set α} :
    SetBuilt order a m → SetBuilt order b n → SetBuilt order (SetTree.union order a b) (m ∪ n)
  | intersection {α : Type} {order : KeyOrder α} {a b : SetTree α} {m n : Set α} :
    SetBuilt order a m → SetBuilt order b n →
      SetBuilt order (SetTree.intersection order a b) (m ∩ n)
  | difference {α : Type} {order : KeyOrder α} {a b : SetTree α} {m n : Set α} :
    SetBuilt order a m → SetBuilt order b n →
      SetBuilt order (SetTree.difference order a b) (m \ n)
  | fromList {α : Type} (order : KeyOrder α) (xs : List α) :
    SetBuilt order (SetTree.fromList order xs) {x | x ∈ xs}
  | map {α β : Type} {order : KeyOrder α} {s : SetTree α} {m : Set α} (image : KeyOrder β)
    (f : α → β) : SetBuilt order s m → SetBuilt image (s.map image f) (f '' m)
  | filter {α : Type} {order : KeyOrder α} {s : SetTree α} {m : Set α} (keep : α → Bool) :
    SetBuilt order s m → SetBuilt order (s.filter keep) {x ∈ m | keep x = true}

/-- Every dictionary that is built is a weighed search tree of its map. -/
theorem DictBuilt.invariant {order : KeyOrder κ} {d : Dict κ ν} {m : κ → Option ν}
    (built : DictBuilt order d m) : d.Weighed ∧ d.Search order ∧ d.lookups order = m := by
  induction built with
  | empty => exact ⟨trivial, trivial, rfl⟩
  | singleton key value =>
    exact ⟨(Dict.weighed_insert order key value (d := .empty) trivial).1,
      Dict.singleton_spec order key value⟩
  | insert key value _ induct =>
    obtain ⟨weighed, search, rfl⟩ := induct
    exact ⟨(Dict.weighed_insert order key value weighed).1, Dict.insert_spec key value search⟩
  | remove key _ induct =>
    obtain ⟨weighed, search, rfl⟩ := induct
    exact ⟨(Dict.weighed_remove order key weighed).1, Dict.remove_spec key search⟩
  | @update ν d m key f _ induct =>
    obtain ⟨weighed, search, rfl⟩ := induct
    refine ⟨?_, Dict.update_spec key f search⟩
    unfold Dict.update
    generalize f (d.get order key) = answer
    cases answer with
    | none => exact (Dict.weighed_remove order key weighed).1
    | some value => exact (Dict.weighed_insert order key value weighed).1
  | union _ _ first second =>
    obtain ⟨weighedA, searchA, rfl⟩ := first
    obtain ⟨weighedB, searchB, rfl⟩ := second
    exact ⟨Dict.weighed_union order weighedA weighedB, Dict.union_spec searchA searchB⟩
  | intersection _ _ first second =>
    obtain ⟨weighedA, searchA, rfl⟩ := first
    obtain ⟨weighedB, searchB, rfl⟩ := second
    exact ⟨Dict.weighed_intersection order weighedA weighedB,
      Dict.intersection_spec searchA searchB⟩
  | difference _ _ first second =>
    obtain ⟨weighedA, searchA, rfl⟩ := first
    obtain ⟨weighedB, searchB, rfl⟩ := second
    exact ⟨Dict.weighed_difference order weighedA, Dict.difference_spec searchA searchB⟩
  | fromList pairs => exact Dict.insertPairs_spec order pairs trivial trivial
  | map f _ induct =>
    obtain ⟨weighed, search, rfl⟩ := induct
    exact ⟨Dict.weighed_map f weighed, Dict.map_spec f search⟩
  | filter keep _ induct =>
    obtain ⟨weighed, search, rfl⟩ := induct
    exact ⟨Dict.weighed_filter keep weighed, Dict.filter_spec keep search⟩

/-- A weighed search tree represents its lookups. -/
theorem Dict.represents_lookups {order : KeyOrder κ} {d : Dict κ ν} (weighed : d.Weighed)
    (search : d.Search order) : d.Represents order (d.lookups order) := by
  obtain ⟨sizes, balanced⟩ := Dict.weighed_iff.mp weighed
  have ascending := Dict.search_iff.mp search
  have length : d.toList.length = d.size := by
    rw [Dict.toList_eq, weighed.size_eq]
  have distinct : (d.entries.map Prod.fst).Nodup := by
    rw [List.Nodup, List.pairwise_map]
    exact ascending.imp fun less => less.ne
  have keys : ∀ key, key ∈ d.entries.map Prod.fst ↔ key ∈ {key | d.lookups order key ≠ none} := by
    intro key
    rw [List.mem_map, Set.mem_ofPred_eq]
    constructor
    · rintro ⟨entry, inside, rfl⟩
      exact Dict.get_of_mem search inside
    · intro found
      obtain ⟨value, held⟩ := Option.ne_none_iff_exists'.mp found
      exact ⟨(key, value), (Dict.mem_entries_iff search).mpr held, rfl⟩
  refine ⟨sizes, balanced, search, fun _ => rfl, fun key => Dict.member_eq key d, ?_, length, ?_,
    ?_⟩
  · rw [ncard_eq_length distinct keys, List.length_map, weighed.size_eq]
  · intro key value
    rw [Dict.toList_eq]
    exact Dict.mem_entries_iff search
  · rw [Dict.toList_eq]
    exact ascending

open Classical in
/-- A set as a finite map of unit values. -/
noncomputable def marks (m : Set α) : α → Option Unit := fun x => if x ∈ m then some () else none

/-- A set marks its elements. -/
theorem marks_ne_none {m : Set α} {x : α} : marks m x ≠ none ↔ x ∈ m := by
  unfold marks
  by_cases inside : x ∈ m
  · simp [inside]
  · simp [inside]

/-- The listing of a set has the elements its tree marks. -/
theorem SetTree.mem_toList_iff {order : KeyOrder α} {s : SetTree α} {m : Set α}
    (search : s.toDict.Search order) (reads : s.toDict.lookups order = marks m) (x : α) :
    x ∈ s.toList ↔ x ∈ m := by
  have entry : x ∈ s.elements ↔ (x, ()) ∈ s.toDict.entries := by
    rw [SetTree.entries_toDict]
    simp
  have found : s.toDict.get order x = some () ↔ s.toDict.get order x ≠ none := by
    cases s.toDict.get order x with
    | none => simp
    | some => simp
  rw [SetTree.toList_eq, entry, Dict.mem_entries_iff search, found, ← marks_ne_none, ← reads]
  rfl

/-- Maps of unit values are equal when they have the same keys. -/
theorem eq_marks {m : Set α} {f : α → Option Unit} (keys : ∀ x, f x ≠ none ↔ x ∈ m) :
    f = marks m := by
  funext x
  have same : f x = none ↔ marks m x = none :=
    not_iff_not.mp ((keys x).trans marks_ne_none.symm)
  cases first : f x with
  | none => exact (same.mp first).symm
  | some =>
    cases second : marks m x with
    | none => rw [same.mpr second] at first; cases first
    | some => rfl

/-- The keys of a written map. -/
theorem put_ne_none {f : α → Option Unit} {x y : α} {answer : Option Unit} :
    FiniteMap.put Eq f x answer y ≠ none ↔ (y = x ∧ answer ≠ none) ∨ (y ≠ x ∧ f y ≠ none) := by
  by_cases same : y = x
  · rw [same, Dict.put_same]
    simp
  · rw [Dict.put_other _ same]
    simp [same]

/-- The keys of a listed map. -/
theorem puts_ne_none (xs : List α) (y : α) : ∀ f : α → Option Unit,
    (xs.map fun x => (x, ())).foldl (fun m pair => FiniteMap.put Eq m pair.1 (some pair.2)) f y ≠
      none ↔ y ∈ xs ∨ f y ≠ none := by
  induction xs with
  | nil => simp
  | cons x rest induct =>
    intro f
    rw [List.map_cons, List.foldl_cons, induct, put_ne_none, List.mem_cons]
    by_cases same : y = x
    · simp [same]
    · simp [same]

/-- The dictionary of a listed set is built by the listing. -/
theorem built_of_list (order : KeyOrder α) (xs : List α) :
    DictBuilt order (SetTree.toDict (SetTree.fromList order xs)) (marks {x | x ∈ xs}) := by
  have tree := SetTree.toDict_inserts order xs .empty
  have map : FiniteMap.ofList Eq (xs.map fun x => (x, ())) = marks {x | x ∈ xs} := by
    apply eq_marks
    intro y
    refine (puts_ne_none xs y FiniteMap.none).trans ?_
    simp [FiniteMap.none]
  have built : DictBuilt order (Dict.fromList order (xs.map fun x => (x, ())))
      (FiniteMap.ofList Eq (xs.map fun x => (x, ()))) := .fromList _
  rw [map] at built
  unfold SetTree.fromList
  rw [tree]
  exact built

/-- Every set that is built is built as a dictionary. -/
theorem SetBuilt.built {order : KeyOrder α} {s : SetTree α} {m : Set α}
    (built : SetBuilt order s m) : DictBuilt order s.toDict (marks m) := by
  induction built with
  | @empty α order =>
    have map : FiniteMap.none = marks (∅ : Set α) := eq_marks fun x => by simp [FiniteMap.none]
    rw [← map]
    exact DictBuilt.empty
  | singleton order x =>
    have map : FiniteMap.put Eq FiniteMap.none x (some ()) = marks {x} := by
      apply eq_marks
      intro y
      rw [put_ne_none, Set.mem_singleton_iff]
      simp [FiniteMap.none]
    rw [← map]
    exact DictBuilt.singleton x ()
  | @insert α order s m x _ induct =>
    have map : FiniteMap.put Eq (marks m) x (some ()) = marks (Insert.insert x m) := by
      apply eq_marks
      intro y
      rw [put_ne_none, marks_ne_none, Set.mem_insert_iff]
      by_cases same : y = x
      · simp [same]
      · simp [same]
    rw [← map, SetTree.toDict_insert]
    exact induct.insert x ()
  | @remove α order s m x _ induct =>
    have map : FiniteMap.put Eq (marks m) x none = marks (m \ {x}) := by
      apply eq_marks
      intro y
      rw [put_ne_none, marks_ne_none, Set.mem_sdiff, Set.mem_singleton_iff]
      simp [and_comm]
    rw [← map, SetTree.toDict_remove]
    exact induct.remove x
  | @union α order a b m n _ _ first second =>
    have map : FiniteMap.union (marks m) (marks n) = marks (m ∪ n) := by
      apply eq_marks
      intro y
      rw [FiniteMap.union, Ne, Option.or_eq_none_iff, not_and_or, Set.mem_union]
      exact or_congr marks_ne_none marks_ne_none
    rw [← map, SetTree.toDict_union]
    exact first.union second
  | @intersection α order a b m n _ _ first second =>
    have map : FiniteMap.intersection (marks m) (marks n) = marks (m ∩ n) := by
      apply eq_marks
      intro y
      rw [FiniteMap.intersection, ite_ne_right_iff, marks_ne_none, Option.isSome_iff_ne_none,
        marks_ne_none, Set.mem_inter_iff]
      exact and_comm
    rw [← map, SetTree.toDict_intersection]
    exact first.intersection second
  | @difference α order a b m n _ _ first second =>
    have map : FiniteMap.difference (marks m) (marks n) = marks (m \ n) := by
      apply eq_marks
      intro y
      rw [FiniteMap.difference, ne_comm, ne_eq, eq_comm, ← ne_eq, ite_ne_left_iff,
        Option.isSome_iff_ne_none, marks_ne_none, ne_comm, marks_ne_none, Set.mem_sdiff]
      exact and_comm
    rw [← map, SetTree.toDict_difference]
    exact first.difference second
  | fromList order xs => exact built_of_list order xs
  | @map α β order s m image f _ induct =>
    obtain ⟨_, search, reads⟩ := induct.invariant
    have inside : ∀ x, x ∈ s.toList ↔ x ∈ m := fun x => SetTree.mem_toList_iff search reads x
    have mapped : {x | x ∈ s.toList.map f} = f '' m := by
      ext y
      rw [Set.mem_ofPred_eq, List.mem_map, Set.mem_image]
      simp only [inside]
    unfold SetTree.map
    rw [← mapped]
    exact built_of_list image _
  | @filter α order s m keep _ induct =>
    have map : FiniteMap.filter (fun x _ => keep x) (marks m) =
        marks {x | x ∈ m ∧ keep x = true} := by
      apply eq_marks
      intro y
      unfold FiniteMap.filter marks
      by_cases inside : y ∈ m
      · simp [inside, Option.filter_some]
      · simp [inside]
    rw [← map, SetTree.toDict_filter]
    exact induct.filter _

/-- Every set that is built represents its set. -/
theorem SetBuilt.represents {order : KeyOrder α} {s : SetTree α} {m : Set α}
    (built : SetBuilt order s m) : s.Represents order m := by
  obtain ⟨weighed, search, reads⟩ := built.built.invariant
  have represents := Dict.represents_lookups weighed search
  have inside : ∀ x, x ∈ s.toList ↔ x ∈ m := SetTree.mem_toList_iff search reads
  have ascending : s.toList.Pairwise fun a b => order.compare a b < 0 := by
    have entries := represents.ascending
    rw [Dict.toList_eq, SetTree.entries_toDict, List.pairwise_map] at entries
    rw [SetTree.toList_eq]
    exact entries
  have distinct : s.toList.Nodup := by
    refine ascending.imp ?_
    intro a b less
    exact KeyOrder.Less.ne less
  have length : s.toList.length = s.size := by
    rw [← SetTree.size_toDict, ← represents.length, Dict.toList_eq, SetTree.entries_toDict,
      SetTree.toList_eq, List.length_map]
  refine ⟨SetTree.sizesExact_toDict represents.sizes, SetTree.balanced_toDict represents.balanced,
    SetTree.search_toDict search, ?_, ?_, length, inside, ascending⟩
  · intro x
    rw [← SetTree.member_toDict, represents.member, Option.isSome_iff_ne_none, reads,
      marks_ne_none]
  · rw [ncard_eq_length distinct inside, length]

/-- Over every sequence of public operations the ordered dictionary and the ordered set are
balanced search trees with exact sizes that answer as the finite map and the set the operations
build. -/
theorem ordered_collections_represent :
    (∀ (κ ν : Type) (order : KeyOrder κ) (d : Dict κ ν) (m : κ → Option ν),
      DictBuilt order d m → d.Represents order m) ∧
    (∀ (α : Type) (order : KeyOrder α) (s : SetTree α) (m : Set α),
      SetBuilt order s m → s.Represents order m) := by
  constructor
  · intro κ ν order d m built
    obtain ⟨weighed, search, reads⟩ := built.invariant
    rw [← reads]
    exact Dict.represents_lookups weighed search
  · intro α order s m built
    exact built.represents

/-- The order of the integers. -/
def intOrder : KeyOrder Int where
  compare a b := a - b
  compare_eq_zero a b := by omega
  compare_swap a b := by omega
  compare_trans a b c := by omega

/-- A union of an insertion with a removal, and a set mapped onto fewer elements. -/
theorem ordered_collections_run :
    (Dict.union intOrder (Dict.insert intOrder 1 'a' (Dict.singleton 2 'b'))
      (Dict.remove intOrder 4 (Dict.fromList intOrder [(4, 'd'), (3, 'c'), (2, 'x')]))).Represents
        intOrder (FiniteMap.union
          (FiniteMap.put Eq (FiniteMap.put Eq FiniteMap.none 2 (some 'b')) 1 (some 'a'))
          (FiniteMap.put Eq (FiniteMap.ofList Eq [(4, 'd'), (3, 'c'), (2, 'x')]) 4 none)) ∧
      (SetTree.map intOrder (fun x => x * x) (SetTree.fromList intOrder [1, -1, 2])).Represents
        intOrder ((fun x => x * x) '' {x | x ∈ [1, -1, 2]}) :=
  ⟨ordered_collections_represent.1 Int Char intOrder _ _
      (DictBuilt.union (.insert 1 'a' (.singleton 2 'b')) (.remove 4 (.fromList _))),
    ordered_collections_represent.2 Int intOrder _ _ (.map intOrder _ (.fromList intOrder _))⟩

end Fai.Collections
