import FaiVerif.Collections.DictBalance

/-!
# Lookups in the ordered dictionary

A tree is a search tree exactly when its entries stand in ascending key order, so every operation
that keeps the entries in order keeps the lookups. A node, a linked tree and a merged tree answer a
lookup by one comparison with their pivot, and every operation over two trees is an induction on
that comparison.
-/

namespace Fai.Collections

namespace KeyOrder

variable {κ : Type} (order : KeyOrder κ)

/-- One key comes before another. -/
def Less (a b : κ) : Prop := order.compare a b < 0

instance (a b : κ) : Decidable (order.Less a b) :=
  inferInstanceAs (Decidable (order.compare a b < 0))

variable {order}

/-- The order is irreflexive. -/
theorem Less.ne {a b : κ} (less : order.Less a b) : a ≠ b := by
  intro same
  have zero := (order.compare_eq_zero a b).mpr same
  unfold Less at less
  omega

/-- The order is transitive. -/
theorem Less.trans {a b c : κ} (first : order.Less a b) (second : order.Less b c) :
    order.Less a c :=
  order.compare_trans a b c first second

/-- Of two keys, at most one comes before the other. -/
theorem Less.asymm {a b : κ} (less : order.Less a b) : ¬ order.Less b a :=
  fun back => (less.trans back).ne rfl

/-- A positive comparison is the order read backwards. -/
theorem compare_pos_iff {a b : κ} : order.compare a b > 0 ↔ order.Less b a :=
  (order.compare_swap b a).symm

/-- Keys that neither precede nor follow each other are equal. -/
theorem eq_of_not_less {a b : κ} (notLess : ¬ order.Less a b) (notGreater : ¬ order.Less b a) :
    a = b := by
  have notPositive : ¬ order.compare a b > 0 := fun positive =>
    notGreater (compare_pos_iff.mp positive)
  unfold Less at notLess
  exact (order.compare_eq_zero a b).mp (by omega)

end KeyOrder

namespace Dict

open KeyOrder

variable {κ ν ω : Type} {order : KeyOrder κ}

/-- The search-tree property: smaller keys on the left of each node, greater ones on its right. -/
def Search (order : KeyOrder κ) : Dict κ ν → Prop
  | empty => True
  | node _ l k _ r =>
    (∀ entry ∈ entries l, order.Less entry.1 k) ∧ (∀ entry ∈ entries r, order.Less k entry.1) ∧
      Search order l ∧ Search order r

/-- Ascending key order, without repetition. -/
def Ascending (order : KeyOrder κ) (list : List (κ × ν)) : Prop :=
  list.Pairwise fun a b => order.Less a.1 b.1

/-- A tree is a search tree exactly when its entries ascend. -/
theorem search_iff : ∀ {d : Dict κ ν}, Search order d ↔ Ascending order (entries d)
  | empty => ⟨fun _ => List.Pairwise.nil, fun _ => trivial⟩
  | node s l k v r => by
    have left : Search order l ↔ Ascending order (entries l) := search_iff
    have right : Search order r ↔ Ascending order (entries r) := search_iff
    unfold Ascending at left right ⊢
    rw [entries, List.pairwise_append, List.pairwise_cons, Search, left, right]
    constructor
    · rintro ⟨below, above, ascendLeft, ascendRight⟩
      refine ⟨ascendLeft, ⟨above, ascendRight⟩, ?_⟩
      intro a inLeft b inRest
      rcases List.mem_cons.mp inRest with same | inRight
      · rw [same]
        exact below a inLeft
      · exact (below a inLeft).trans (above b inRight)
    · rintro ⟨ascendLeft, ⟨above, ascendRight⟩, across⟩
      exact ⟨fun a inLeft => across a inLeft (k, v) List.mem_cons_self, above, ascendLeft,
        ascendRight⟩

/-- A lookup in a node compares with its key. -/
def pick (order : KeyOrder κ) (key pivot : κ) (below found above : Option ν) : Option ν :=
  if order.Less key pivot then below else if order.Less pivot key then above else found

/-- The lookup in a node. -/
theorem get_node (key : κ) (s : Nat) (l : Dict κ ν) (k : κ) (v : ν) (r : Dict κ ν) :
    get order key (node s l k v r) = pick order key k (get order key l) (some v)
      (get order key r) := by
  unfold pick
  rw [get]
  by_cases less : order.Less key k
  · rw [if_pos less]
    exact if_pos less
  · rw [if_neg less]
    refine (if_neg less).trans ?_
    by_cases greater : order.Less k key
    · rw [if_pos greater]
      exact if_pos (compare_pos_iff.mpr greater)
    · rw [if_neg greater]
      exact if_neg fun positive => greater (compare_pos_iff.mp positive)

/-- In a search tree a lookup finds exactly the entries. -/
theorem mem_entries_iff {key : κ} {value : ν} : ∀ {d : Dict κ ν}, Search order d →
    ((key, value) ∈ entries d ↔ get order key d = some value)
  | empty, _ => by simp [entries, get]
  | node s l k v r, search => by
    obtain ⟨below, above, left, right⟩ := search
    have inLeft : (key, value) ∈ entries l ↔ get order key l = some value := mem_entries_iff left
    have inRight : (key, value) ∈ entries r ↔ get order key r = some value :=
      mem_entries_iff right
    rw [entries, List.mem_append, List.mem_cons, get_node, pick]
    by_cases less : order.Less key k
    · rw [if_pos less, ← inLeft]
      constructor
      · rintro (found | here | found)
        · exact found
        · exact absurd (Prod.ext_iff.mp here).1 less.ne
        · exact absurd (above _ found) less.asymm
      · exact .inl
    rw [if_neg less]
    by_cases greater : order.Less k key
    · rw [if_pos greater, ← inRight]
      constructor
      · rintro (found | here | found)
        · exact absurd (below _ found) less
        · exact absurd (Prod.ext_iff.mp here).1 greater.ne.symm
        · exact found
      · exact fun found => .inr (.inr found)
    · rw [if_neg greater]
      have same := eq_of_not_less less greater
      constructor
      · rintro (found | here | found)
        · exact absurd (below _ found) less
        · exact congrArg some (Prod.ext_iff.mp here).2.symm
        · exact absurd (above _ found) greater
      · intro found
        rw [same, Option.some_inj.mp found]
        exact .inr (.inl rfl)

/-- Search trees of the same entries answer every lookup alike. -/
theorem get_congr {a b : Dict κ ν} (first : Search order a) (second : Search order b)
    (same : entries a = entries b) (key : κ) : get order key a = get order key b := by
  apply Option.ext
  intro value
  rw [← mem_entries_iff first, ← mem_entries_iff second, same]

/-- The presence of a key is that of its value. -/
theorem member_eq (key : κ) : ∀ d : Dict κ ν, member order key d = (get order key d).isSome
  | empty => rfl
  | node s l k v r => by
    rw [member, get, member_eq key l, member_eq key r]
    by_cases less : order.compare key k < 0
    · rw [if_pos less, if_pos less]
    rw [if_neg less, if_neg less]
    by_cases greater : order.compare key k > 0
    · rw [if_pos greater, if_pos greater]
    · rw [if_neg greater, if_neg greater]
      rfl

/-- Two search trees with a pivot between their keys. -/
structure Parted (order : KeyOrder κ) (l : Dict κ ν) (k : κ) (r : Dict κ ν) : Prop where
  /-- The left side is a search tree. -/
  left : Search order l
  /-- The right side is a search tree. -/
  right : Search order r
  /-- The left side lies below the pivot. -/
  below : ∀ key, get order key l ≠ none → order.Less key k
  /-- The right side lies above the pivot. -/
  above : ∀ key, get order key r ≠ none → order.Less k key

/-- Every entry of a search tree is found. -/
theorem get_of_mem {d : Dict κ ν} (search : Search order d) {entry : κ × ν}
    (inside : entry ∈ entries d) : get order entry.1 d ≠ none := by
  rw [(mem_entries_iff search).mp inside]
  exact Option.some_ne_none _

/-- The sides of a node are parted by its key. -/
theorem Search.parted {s : Nat} {l : Dict κ ν} {k : κ} {v : ν} {r : Dict κ ν}
    (search : Search order (node s l k v r)) : Parted order l k r := by
  obtain ⟨below, above, left, right⟩ := search
  refine ⟨left, right, ?_, ?_⟩
  · intro key found
    obtain ⟨value, held⟩ := Option.ne_none_iff_exists'.mp found
    exact below _ ((mem_entries_iff left).mpr held)
  · intro key found
    obtain ⟨value, held⟩ := Option.ne_none_iff_exists'.mp found
    exact above _ ((mem_entries_iff right).mpr held)

namespace Parted

variable {l r : Dict κ ν} {k : κ}

/-- Parted sides make a node. -/
theorem search_node (parted : Parted order l k r) (s : Nat) (v : ν) :
    Search order (node s l k v r) :=
  ⟨fun _ inside => parted.below _ (get_of_mem parted.left inside),
    fun _ inside => parted.above _ (get_of_mem parted.right inside), parted.left, parted.right⟩

/-- A tree with the entries of a node is a search tree and answers lookups as the node does. -/
theorem like_node (parted : Parted order l k r) {v : ν} {d : Dict κ ν}
    (same : entries d = entries l ++ (k, v) :: entries r) :
    Search order d ∧ ∀ key, get order key d =
      pick order key k (get order key l) (some v) (get order key r) := by
  have whole := parted.search_node 0 v
  have search : Search order d := by
    rw [search_iff, same]
    exact search_iff.mp whole
  refine ⟨search, fun key => ?_⟩
  rw [get_congr search whole same, get_node]

/-- A tree with the entries of both sides is a search tree without the pivot. -/
theorem like_merged (parted : Parted order l k r) {d : Dict κ ν}
    (same : entries d = entries l ++ entries r) :
    Search order d ∧ ∀ key, get order key d =
      pick order key k (get order key l) none (get order key r) := by
  have below : ∀ entry ∈ entries l, order.Less entry.1 k := fun _ inside =>
    parted.below _ (get_of_mem parted.left inside)
  have above : ∀ entry ∈ entries r, order.Less k entry.1 := fun _ inside =>
    parted.above _ (get_of_mem parted.right inside)
  have search : Search order d := by
    rw [search_iff, same]
    refine List.pairwise_append.mpr ⟨search_iff.mp parted.left, search_iff.mp parted.right, ?_⟩
    intro a inLeft b inRight
    exact (below a inLeft).trans (above b inRight)
  refine ⟨search, fun key => ?_⟩
  apply Option.ext
  intro value
  rw [← mem_entries_iff search, same, List.mem_append, mem_entries_iff parted.left,
    mem_entries_iff parted.right, pick]
  by_cases less : order.Less key k
  · rw [if_pos less]
    constructor
    · rintro (found | found)
      · exact found
      · exact absurd (parted.above key (by rw [found]; exact Option.some_ne_none _)) less.asymm
    · exact .inl
  rw [if_neg less]
  by_cases greater : order.Less k key
  · rw [if_pos greater]
    constructor
    · rintro (found | found)
      · exact absurd (parted.below key (by rw [found]; exact Option.some_ne_none _)) less
      · exact found
    · exact .inr
  · rw [if_neg greater]
    constructor
    · rintro (found | found)
      · exact absurd (parted.below key (by rw [found]; exact Option.some_ne_none _)) less
      · exact absurd (parted.above key (by rw [found]; exact Option.some_ne_none _)) greater
    · intro found
      cases found

end Parted

end Dict

end Fai.Collections
