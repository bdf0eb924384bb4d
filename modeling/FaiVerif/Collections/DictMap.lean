import FaiVerif.Collections.DictLookup
import FaiVerif.Lib.FiniteMap

/-!
# The ordered dictionary as a finite map

Each operation keeps the search tree and changes the lookups as the operation on finite maps of the
same name does.
-/

namespace Fai.Collections

namespace Dict

open KeyOrder

variable {κ ν ω : Type} {order : KeyOrder κ}

/-- The lookups of a dictionary. -/
def lookups (order : KeyOrder κ) (d : Dict κ ν) : κ → Option ν := fun key => get order key d

/-- Below the pivot. -/
theorem pick_below {key pivot : κ} (less : order.Less key pivot) (below found above : Option ν) :
    pick order key pivot below found above = below :=
  if_pos less

/-- At the pivot. -/
theorem pick_found (pivot : κ) (below found above : Option ν) :
    pick order pivot pivot below found above = found := by
  have irreflexive : ¬ order.Less pivot pivot := fun less => less.ne rfl
  unfold pick
  rw [if_neg irreflexive, if_neg irreflexive]

/-- Above the pivot. -/
theorem pick_above {key pivot : κ} (greater : order.Less pivot key)
    (below found above : Option ν) : pick order key pivot below found above = above := by
  unfold pick
  rw [if_neg greater.asymm, if_pos greater]

/-- A key is below, at or above a pivot. -/
theorem below_or_found_or_above (order : KeyOrder κ) (key pivot : κ) :
    order.Less key pivot ∨ key = pivot ∨ order.Less pivot key := by
  by_cases less : order.Less key pivot
  · exact .inl less
  · by_cases greater : order.Less pivot key
    · exact .inr (.inr greater)
    · exact .inr (.inl (eq_of_not_less less greater))

/-- The written key reads the new value. -/
@[simp] theorem put_same (m : κ → Option ν) (key : κ) (value : Option ν) :
    FiniteMap.put Eq m key value key = value :=
  if_pos rfl

/-- Another key reads the old one. -/
theorem put_other (m : κ → Option ν) {key k : κ} (other : k ≠ key) (value : Option ν) :
    FiniteMap.put Eq m key value k = m k :=
  if_neg other

/-- The comparisons of a descent, by the order. -/
theorem descend {α : Type} {key k : κ} (a b c : α) :
    (if order.compare key k < 0 then a else if order.compare key k > 0 then b else c) =
      if order.Less key k then a else if order.Less k key then b else c := by
  by_cases less : order.compare key k < 0
  · rw [if_pos less]
    exact (if_pos less).symm
  · rw [if_neg less]
    refine Eq.trans ?_ (if_neg less).symm
    by_cases greater : order.compare key k > 0
    · rw [if_pos greater, if_pos (compare_pos_iff.mp greater)]
    · rw [if_neg greater, if_neg fun back => greater (compare_pos_iff.mpr back)]

/-- Writing at the pivot of a node. -/
theorem put_at_pivot {d l r : Dict κ ν} {k : κ} {answer : Option ν} (s : Nat) (v : ν)
    (reads : ∀ a, get order a d = pick order a k (get order a l) answer (get order a r)) :
    lookups order d = FiniteMap.put Eq (lookups order (node s l k v r)) k answer := by
  funext a
  refine (reads a).trans ?_
  by_cases same : a = k
  · rw [same, put_same, pick_found]
  · rw [put_other _ same]
    unfold lookups
    rw [get_node]
    rcases below_or_found_or_above order a k with less | equal | greater
    · rw [pick_below less, pick_below less]
    · exact absurd equal same
    · rw [pick_above greater, pick_above greater]

namespace Parted

variable {l r : Dict κ ν} {key k : κ}

/-- Writing below the pivot of a node: a tree of the written left side, the entry and the right
side. -/
theorem put_left (parted : Parted order l k r) (less : order.Less key k) {l2 : Dict κ ν}
    {answer : Option ν} (inner : Search order l2)
    (written : lookups order l2 = FiniteMap.put Eq (lookups order l) key answer) {d : Dict κ ν}
    {v : ν} (same : entries d = entries l2 ++ (k, v) :: entries r) (s : Nat) :
    Search order d ∧
      lookups order d = FiniteMap.put Eq (lookups order (node s l k v r)) key answer := by
  have reads : ∀ a, get order a l2 = FiniteMap.put Eq (lookups order l) key answer a := fun a =>
    congrFun written a
  have again : Parted order l2 k r := by
    refine ⟨inner, parted.right, ?_, parted.above⟩
    intro a found
    by_cases at_ : a = key
    · rw [at_]
      exact less
    · rw [reads, put_other _ at_] at found
      exact parted.below a found
  obtain ⟨whole, linked⟩ := again.like_node same
  refine ⟨whole, ?_⟩
  funext a
  refine (linked a).trans ?_
  rw [reads]
  by_cases at_ : a = key
  · rw [at_, put_same, put_same, pick_below less]
  · rw [put_other _ at_, put_other _ at_]
    exact (get_node a s l k v r).symm

/-- Writing above the pivot of a node: a tree of the left side, the entry and the written right
side. -/
theorem put_right (parted : Parted order l k r) (greater : order.Less k key) {r2 : Dict κ ν}
    {answer : Option ν} (inner : Search order r2)
    (written : lookups order r2 = FiniteMap.put Eq (lookups order r) key answer) {d : Dict κ ν}
    {v : ν} (same : entries d = entries l ++ (k, v) :: entries r2) (s : Nat) :
    Search order d ∧
      lookups order d = FiniteMap.put Eq (lookups order (node s l k v r)) key answer := by
  have reads : ∀ a, get order a r2 = FiniteMap.put Eq (lookups order r) key answer a := fun a =>
    congrFun written a
  have again : Parted order l k r2 := by
    refine ⟨parted.left, inner, parted.below, ?_⟩
    intro a found
    by_cases at_ : a = key
    · rw [at_]
      exact greater
    · rw [reads, put_other _ at_] at found
      exact parted.above a found
  obtain ⟨whole, linked⟩ := again.like_node same
  refine ⟨whole, ?_⟩
  funext a
  refine (linked a).trans ?_
  rw [reads]
  by_cases at_ : a = key
  · rw [at_, put_same, put_same, pick_above greater]
  · rw [put_other _ at_, put_other _ at_]
    exact (get_node a s l k v r).symm

end Parted

/-- Empty sides are parted by any key. -/
theorem parted_empty (order : KeyOrder κ) (k : κ) : Parted order (empty : Dict κ ν) k empty :=
  ⟨trivial, trivial, fun _ found => absurd rfl found, fun _ found => absurd rfl found⟩

/-- One entry. -/
theorem singleton_spec (order : KeyOrder κ) (key : κ) (value : ν) :
    Search order (singleton key value) ∧
      lookups order (singleton key value) = FiniteMap.put Eq FiniteMap.none key (some value) := by
  refine ⟨(parted_empty order key).search_node 1 value, ?_⟩
  funext a
  refine (get_node a 1 empty key value empty).trans ?_
  rcases below_or_found_or_above order a key with less | same | greater
  · rw [pick_below less, put_other _ less.ne]
    rfl
  · rw [same, pick_found, put_same]
  · rw [pick_above greater, put_other _ greater.ne.symm]
    rfl

/-- Inserting writes the key. -/
theorem insert_spec (key : κ) (value : ν) : ∀ {d : Dict κ ν}, Search order d →
    Search order (insert order key value d) ∧
      lookups order (insert order key value d) =
        FiniteMap.put Eq (lookups order d) key (some value)
  | empty, _ => singleton_spec order key value
  | node s l k v r, search => by
    have parted := search.parted
    simp only [insert, descend]
    rcases below_or_found_or_above order key k with less | same | greater
    · obtain ⟨inner, written⟩ := insert_spec key value parted.left
      rw [if_pos less]
      exact parted.put_left less inner written (entries_rebuild _ _ k v r) s
    · subst same
      have irreflexive : ¬ order.Less key key := fun less => less.ne rfl
      rw [if_neg irreflexive, if_neg irreflexive]
      exact ⟨parted.search_node s value,
        put_at_pivot s v fun a => get_node a s l key value r⟩
    · obtain ⟨inner, written⟩ := insert_spec key value parted.right
      rw [if_neg greater.asymm, if_pos greater]
      exact parted.put_right greater inner written (entries_rebuild _ l k v _) s

/-- Removing clears the key. -/
theorem remove_spec (key : κ) : ∀ {d : Dict κ ν}, Search order d →
    Search order (remove order key d) ∧
      lookups order (remove order key d) = FiniteMap.put Eq (lookups order d) key none
  | empty, _ => by
    refine ⟨trivial, ?_⟩
    funext a
    by_cases same : a = key
    · rw [same, put_same]
      rfl
    · rw [put_other _ same]
      rfl
  | node s l k v r, search => by
    have parted := search.parted
    simp only [remove, descend]
    rcases below_or_found_or_above order key k with less | same | greater
    · obtain ⟨inner, written⟩ := remove_spec key parted.left
      rw [if_pos less]
      exact parted.put_left less inner written (entries_rebuild _ _ k v r) s
    · subst same
      have irreflexive : ¬ order.Less key key := fun less => less.ne rfl
      rw [if_neg irreflexive, if_neg irreflexive]
      obtain ⟨whole, reads⟩ := parted.like_merged (entries_join2 l r)
      exact ⟨whole, put_at_pivot s v reads⟩
    · obtain ⟨inner, written⟩ := remove_spec key parted.right
      rw [if_neg greater.asymm, if_pos greater]
      exact parted.put_right greater inner written (entries_rebuild _ l k v _) s

/-- Updating writes what the function makes of the present value. -/
theorem update_spec (key : κ) (f : Option ν → Option ν) {d : Dict κ ν}
    (search : Search order d) :
    Search order (update order key f d) ∧
      lookups order (update order key f d) =
        FiniteMap.put Eq (lookups order d) key (f (lookups order d key)) := by
  unfold update
  show _ ∧ _ = FiniteMap.put Eq (lookups order d) key (f (get order key d))
  generalize f (get order key d) = answer
  cases answer with
  | none => exact remove_spec key search
  | some value => exact insert_spec key value search

/-- What a split at a key leaves on each side. -/
structure Halves (order : KeyOrder κ) (key : κ) (d lower : Dict κ ν) (present : Bool)
    (upper : Dict κ ν) : Prop where
  /-- The sides are search trees on either side of the key. -/
  parted : Parted order lower key upper
  /-- Whether the key was there. -/
  present : present = (get order key d).isSome
  /-- The lower half answers for the keys below. -/
  lower : ∀ a, order.Less a key → get order a lower = get order a d
  /-- The upper half answers for the keys above. -/
  upper : ∀ a, order.Less key a → get order a upper = get order a d

/-- Splitting parts the entries at the key. -/
theorem splitMember_spec (key : κ) : ∀ {d : Dict κ ν}, Search order d →
    Halves order key d (splitMember order key d).1 (splitMember order key d).2.1
      (splitMember order key d).2.2
  | empty, _ => ⟨parted_empty order key, rfl, fun _ _ => rfl, fun _ _ => rfl⟩
  | node s l k v r, search => by
    have parted := search.parted
    rw [splitMember, descend]
    rcases below_or_found_or_above order key k with less | same | greater
    · have inner := splitMember_spec key parted.left
      rw [if_pos less]
      generalize splitMember order key l = split at inner
      have again : Parted order split.2.2 k r := by
        refine ⟨inner.parted.right, parted.right, ?_, parted.above⟩
        intro a found
        rw [inner.upper a (inner.parted.above a found)] at found
        exact parted.below a found
      obtain ⟨whole, reads⟩ := again.like_node (entries_join split.2.2 k v r)
      refine ⟨⟨inner.parted.left, whole, inner.parted.below, ?_⟩, ?_, ?_, ?_⟩
      · intro a found
        rw [reads] at found
        rcases below_or_found_or_above order a k with lessA | same | greaterA
        · rw [pick_below lessA] at found
          exact inner.parted.above a found
        · rw [same]
          exact less
        · exact less.trans greaterA
      · rw [get_node, pick_below less]
        exact inner.present
      · intro a lessA
        rw [get_node, pick_below (lessA.trans less)]
        exact inner.lower a lessA
      · intro a greaterA
        rw [reads, get_node, inner.upper a greaterA]
    · subst same
      have irreflexive : ¬ order.Less key key := fun less => less.ne rfl
      rw [if_neg irreflexive, if_neg irreflexive]
      refine ⟨parted, ?_, ?_, ?_⟩
      · rw [get_node, pick_found]
        rfl
      · intro a lessA
        rw [get_node, pick_below lessA]
      · intro a greaterA
        rw [get_node, pick_above greaterA]
    · have inner := splitMember_spec key parted.right
      rw [if_neg greater.asymm, if_pos greater]
      generalize splitMember order key r = split at inner
      have again : Parted order l k split.1 := by
        refine ⟨parted.left, inner.parted.left, parted.below, ?_⟩
        intro a found
        rw [inner.lower a (inner.parted.below a found)] at found
        exact parted.above a found
      obtain ⟨whole, reads⟩ := again.like_node (entries_join l k v split.1)
      refine ⟨⟨whole, inner.parted.right, ?_, inner.parted.above⟩, ?_, ?_, ?_⟩
      · intro a found
        rw [reads] at found
        rcases below_or_found_or_above order a k with lessA | same | greaterA
        · exact lessA.trans greater
        · rw [same]
          exact greater
        · rw [pick_above greaterA] at found
          exact inner.parted.below a found
      · rw [get_node, pick_above greater]
        exact inner.present
      · intro a lessA
        rw [reads, get_node, inner.lower a lessA]
      · intro a greaterA
        rw [get_node, pick_above (greater.trans greaterA)]
        exact inner.upper a greaterA

/-- A union reads its left side first. -/
theorem union_spec : ∀ {a b : Dict κ ν}, Search order a → Search order b →
    Search order (union order a b) ∧
      lookups order (union order a b) = FiniteMap.union (lookups order a) (lookups order b)
  | empty, _, _, right => ⟨right, rfl⟩
  | node s la ka va ra, empty, left, _ => by
    refine ⟨left, ?_⟩
    funext key
    exact (Option.or_none).symm
  | node s la ka va ra, node sb lb kb vb rb, left, right => by
    have parted := left.parted
    have halves := splitMember_spec ka right
    rw [union]
    generalize splitMember order ka (node sb lb kb vb rb) = split at halves
    obtain ⟨lower, lowerReads⟩ := union_spec parted.left halves.parted.left
    obtain ⟨upper, upperReads⟩ := union_spec parted.right halves.parted.right
    have lowerAt : ∀ key, get order key (union order la split.1) =
        (get order key la).or (get order key split.1) := fun key => congrFun lowerReads key
    have upperAt : ∀ key, get order key (union order ra split.2.2) =
        (get order key ra).or (get order key split.2.2) := fun key => congrFun upperReads key
    have again : Parted order (union order la split.1) ka (union order ra split.2.2) := by
      refine ⟨lower, upper, ?_, ?_⟩
      · intro key found
        rw [lowerAt, Ne, Option.or_eq_none_iff, not_and_or] at found
        exact found.elim (parted.below key) (halves.parted.below key)
      · intro key found
        rw [upperAt, Ne, Option.or_eq_none_iff, not_and_or] at found
        exact found.elim (parted.above key) (halves.parted.above key)
    obtain ⟨whole, reads⟩ := again.like_node (entries_join _ ka va _)
    refine ⟨whole, ?_⟩
    funext key
    refine (reads key).trans ?_
    unfold FiniteMap.union lookups
    rw [get_node, lowerAt, upperAt]
    rcases below_or_found_or_above order key ka with less | same | greater
    · rw [pick_below less, pick_below less, halves.lower key less]
    · rw [same, pick_found, pick_found, Option.some_or]
    · rw [pick_above greater, pick_above greater, halves.upper key greater]

/-- An intersection reads its left side, where the right side has the key. -/
theorem intersection_spec : ∀ {a b : Dict κ ν}, Search order a → Search order b →
    Search order (intersection order a b) ∧
      lookups order (intersection order a b) =
        FiniteMap.intersection (lookups order a) (lookups order b)
  | empty, b, _, _ => by
    refine ⟨trivial, ?_⟩
    funext key
    exact (ite_self (get order key (empty : Dict κ ν))).symm
  | node s la ka va ra, b, left, right => by
    have parted := left.parted
    have halves := splitMember_spec ka right
    rw [intersection]
    generalize splitMember order ka b = split at halves
    obtain ⟨lower, lowerReads⟩ := intersection_spec parted.left halves.parted.left
    obtain ⟨upper, upperReads⟩ := intersection_spec parted.right halves.parted.right
    have lowerAt : ∀ key, get order key (intersection order la split.1) =
        if (get order key split.1).isSome then get order key la else none := fun key =>
      congrFun lowerReads key
    have upperAt : ∀ key, get order key (intersection order ra split.2.2) =
        if (get order key split.2.2).isSome then get order key ra else none := fun key =>
      congrFun upperReads key
    have again : Parted order (intersection order la split.1) ka
        (intersection order ra split.2.2) := by
      refine ⟨lower, upper, ?_, ?_⟩
      · intro key found
        rw [lowerAt] at found
        exact parted.below key (ite_ne_right_iff.mp found).2
      · intro key found
        rw [upperAt] at found
        exact parted.above key (ite_ne_right_iff.mp found).2
    have pivot : ∀ key, FiniteMap.intersection (lookups order (node s la ka va ra))
        (lookups order b) key = pick order key ka (get order key (intersection order la split.1))
          (if split.2.1 then some va else none)
          (get order key (intersection order ra split.2.2)) := by
      intro key
      unfold FiniteMap.intersection lookups
      rw [get_node, lowerAt, upperAt]
      rcases below_or_found_or_above order key ka with less | same | greater
      · rw [pick_below less, pick_below less, halves.lower key less]
      · rw [same, pick_found, pick_found, halves.present]
      · rw [pick_above greater, pick_above greater, halves.upper key greater]
    by_cases present : split.2.1 = true
    · simp only [present, if_true] at pivot ⊢
      obtain ⟨whole, reads⟩ := again.like_node (entries_join _ ka va _)
      refine ⟨whole, ?_⟩
      funext key
      rw [pivot]
      exact reads key
    · simp only [present] at pivot ⊢
      obtain ⟨whole, reads⟩ := again.like_merged (entries_join2 _ _)
      refine ⟨whole, ?_⟩
      funext key
      rw [pivot]
      exact reads key

/-- A difference reads its left side, where the right side does not have the key. -/
theorem difference_spec : ∀ {b a : Dict κ ν}, Search order a → Search order b →
    Search order (difference order a b) ∧
      lookups order (difference order a b) =
        FiniteMap.difference (lookups order a) (lookups order b)
  | empty, a, left, _ => ⟨left, rfl⟩
  | node s lb kb vb rb, a, left, right => by
    have parted := right.parted
    have halves := splitMember_spec kb left
    rw [difference]
    generalize splitMember order kb a = split at halves
    obtain ⟨lower, lowerReads⟩ := difference_spec halves.parted.left parted.left
    obtain ⟨upper, upperReads⟩ := difference_spec halves.parted.right parted.right
    have lowerAt : ∀ key, get order key (difference order split.1 lb) =
        if (get order key lb).isSome then none else get order key split.1 := fun key =>
      congrFun lowerReads key
    have upperAt : ∀ key, get order key (difference order split.2.2 rb) =
        if (get order key rb).isSome then none else get order key split.2.2 := fun key =>
      congrFun upperReads key
    have again : Parted order (difference order split.1 lb) kb
        (difference order split.2.2 rb) := by
      refine ⟨lower, upper, ?_, ?_⟩
      · intro key found
        rw [lowerAt] at found
        exact halves.parted.below key (ite_ne_left_iff.mp found).2.symm
      · intro key found
        rw [upperAt] at found
        exact halves.parted.above key (ite_ne_left_iff.mp found).2.symm
    obtain ⟨whole, reads⟩ := again.like_merged (entries_join2 _ _)
    refine ⟨whole, ?_⟩
    funext key
    refine (reads key).trans ?_
    unfold FiniteMap.difference lookups
    rw [get_node, lowerAt, upperAt]
    rcases below_or_found_or_above order key kb with less | same | greater
    · rw [pick_below less, pick_below less, halves.lower key less]
    · rw [same, pick_found, pick_found]
      rfl
    · rw [pick_above greater, pick_above greater, halves.upper key greater]

/-- Filtering keeps the entries that satisfy the test. -/
theorem filter_spec (keep : κ → ν → Bool) : ∀ {d : Dict κ ν}, Search order d →
    Search order (filter keep d) ∧
      lookups order (filter keep d) = FiniteMap.filter keep (lookups order d)
  | empty, _ => ⟨trivial, rfl⟩
  | node s l k v r, search => by
    have parted := search.parted
    obtain ⟨lower, lowerReads⟩ := filter_spec keep parted.left
    obtain ⟨upper, upperReads⟩ := filter_spec keep parted.right
    have lowerAt : ∀ key, get order key (filter keep l) =
        (get order key l).filter (keep key) := fun key => congrFun lowerReads key
    have upperAt : ∀ key, get order key (filter keep r) =
        (get order key r).filter (keep key) := fun key => congrFun upperReads key
    have again : Parted order (filter keep l) k (filter keep r) := by
      refine ⟨lower, upper, ?_, ?_⟩
      · intro key found
        refine parted.below key fun absent => found ?_
        rw [lowerAt, absent, Option.filter_none]
      · intro key found
        refine parted.above key fun absent => found ?_
        rw [upperAt, absent, Option.filter_none]
    have pivot : ∀ key, FiniteMap.filter keep (lookups order (node s l k v r)) key =
        pick order key k (get order key (filter keep l)) (if keep k v then some v else none)
          (get order key (filter keep r)) := by
      intro key
      unfold FiniteMap.filter lookups
      rw [get_node, lowerAt, upperAt]
      rcases below_or_found_or_above order key k with less | same | greater
      · rw [pick_below less, pick_below less]
      · rw [same, pick_found, pick_found]
        rfl
      · rw [pick_above greater, pick_above greater]
    rw [filter]
    by_cases kept : keep k v = true
    · rw [if_pos kept]
      simp only [if_pos kept] at pivot
      obtain ⟨whole, reads⟩ := again.like_node (entries_join _ k v _)
      refine ⟨whole, ?_⟩
      funext key
      rw [pivot]
      exact reads key
    · rw [if_neg kept]
      simp only [if_neg kept] at pivot
      obtain ⟨whole, reads⟩ := again.like_merged (entries_join2 _ _)
      refine ⟨whole, ?_⟩
      funext key
      rw [pivot]
      exact reads key

/-- Mapping transforms the values. -/
theorem map_spec (f : κ → ν → ω) : ∀ {d : Dict κ ν}, Search order d →
    Search order (map f d) ∧ lookups order (map f d) = FiniteMap.map f (lookups order d)
  | empty, _ => ⟨trivial, rfl⟩
  | node s l k v r, search => by
    have parted := search.parted
    obtain ⟨lower, lowerReads⟩ := map_spec f parted.left
    obtain ⟨upper, upperReads⟩ := map_spec f parted.right
    have lowerAt : ∀ key, get order key (map f l) = (get order key l).map (f key) := fun key =>
      congrFun lowerReads key
    have upperAt : ∀ key, get order key (map f r) = (get order key r).map (f key) := fun key =>
      congrFun upperReads key
    have again : Parted order (map f l) k (map f r) := by
      refine ⟨lower, upper, ?_, ?_⟩
      · intro key found
        refine parted.below key fun absent => found ?_
        rw [lowerAt, absent, Option.map_none]
      · intro key found
        refine parted.above key fun absent => found ?_
        rw [upperAt, absent, Option.map_none]
    refine ⟨again.search_node s (f k v), ?_⟩
    funext key
    refine (get_node key s (map f l) k (f k v) (map f r)).trans ?_
    unfold FiniteMap.map lookups
    rw [get_node, lowerAt, upperAt]
    rcases below_or_found_or_above order key k with less | same | greater
    · rw [pick_below less, pick_below less]
    · rw [same, pick_found, pick_found]
      rfl
    · rw [pick_above greater, pick_above greater]

/-- Inserting pairs one after another writes their keys one after another. -/
theorem insertPairs_spec (order : KeyOrder κ) (pairs : List (κ × ν)) : ∀ {d : Dict κ ν},
    Weighed d → Search order d →
    Weighed (pairs.foldl (insertPair order) d) ∧ Search order (pairs.foldl (insertPair order) d) ∧
      lookups order (pairs.foldl (insertPair order) d) =
        pairs.foldl (fun m pair => FiniteMap.put Eq m pair.1 (some pair.2)) (lookups order d) := by
  induction pairs with
  | nil => exact fun weighed search => ⟨weighed, search, rfl⟩
  | cons pair rest induct =>
    intro d weighed search
    obtain ⟨inserted, written⟩ := insert_spec pair.1 pair.2 search
    have whole := induct (weighed_insert order pair.1 pair.2 weighed).1 inserted
    rw [written] at whole
    exact whole

/-- The accumulating traversal lists the entries before the accumulator. -/
theorem toListOnto_eq : ∀ (d : Dict κ ν) (acc : List (κ × ν)),
    toListOnto d acc = entries d ++ acc
  | empty, _ => rfl
  | node s l k v r, acc => by
    rw [toListOnto, toListOnto_eq r acc, toListOnto_eq l, entries, List.append_assoc]
    rfl

/-- The entries in order. -/
theorem toList_eq (d : Dict κ ν) : toList d = entries d := by
  rw [toList, toListOnto_eq, List.append_nil]

end Dict

end Fai.Collections
