import Mathlib.Data.List.Basic
import Mathlib.Data.List.Dedup
import Mathlib.Data.List.Perm.Basic
import Mathlib.Order.Lattice
import Mathlib.Tactic.Common

/-!
# Maps with ordered iteration

A map held as a list of entries in strictly ascending key order. Iteration follows the keys, and a
map is determined by its lookups.
-/

/-- A map whose entries are listed in ascending key order. -/
@[ext] structure SortedMap (κ ν : Type) [LinearOrder κ] where
  /-- The entries. -/
  entries : List (κ × ν)
  /-- The keys ascend. -/
  ascending : entries.Pairwise fun a b => a.1 < b.1

namespace SortedMap

variable {κ ν ω : Type} [LinearOrder κ]

/-- The value of the first entry with a key. -/
def lookup (key : κ) : List (κ × ν) → Option ν
  | [] => none
  | (k, v) :: rest => if key = k then some v else lookup key rest

/-- Put an entry at its place in an ascending list. -/
def place (key : κ) (value : ν) : List (κ × ν) → List (κ × ν)
  | [] => [(key, value)]
  | (k, v) :: rest =>
    if key < k then (key, value) :: (k, v) :: rest
    else if key = k then (key, value) :: rest
    else (k, v) :: place key value rest

/-- The keys of a placed entry and of those before it. -/
theorem mem_place {key : κ} {value : ν} {entry : κ × ν} : ∀ {list : List (κ × ν)},
    entry ∈ place key value list → entry = (key, value) ∨ entry ∈ list
  | [], inside => .inl (List.mem_singleton.mp inside)
  | (k, v) :: rest, inside => by
    rw [place] at inside
    by_cases less : key < k
    · rw [if_pos less] at inside
      exact List.mem_cons.mp inside
    rw [if_neg less] at inside
    by_cases same : key = k
    · rw [if_pos same] at inside
      exact (List.mem_cons.mp inside).imp_right (List.mem_cons_of_mem _)
    · rw [if_neg same] at inside
      rcases List.mem_cons.mp inside with here | later
      · exact .inr (here ▸ List.mem_cons_self)
      · exact (mem_place later).imp_right (List.mem_cons_of_mem _)

/-- Placing an entry keeps the keys ascending. -/
theorem place_ascending (key : κ) (value : ν) : ∀ {list : List (κ × ν)},
    list.Pairwise (fun a b => a.1 < b.1) →
    (place key value list).Pairwise fun a b => a.1 < b.1
  | [], _ => List.pairwise_singleton _ _
  | (k, v) :: rest, ascending => by
    obtain ⟨above, rising⟩ := List.pairwise_cons.mp ascending
    rw [place]
    by_cases less : key < k
    · rw [if_pos less]
      refine List.pairwise_cons.mpr ⟨?_, ascending⟩
      intro entry inside
      rcases List.mem_cons.mp inside with here | later
      · rw [here]
        exact less
      · exact lt_trans less (above entry later)
    rw [if_neg less]
    by_cases same : key = k
    · rw [if_pos same]
      refine List.pairwise_cons.mpr ⟨?_, rising⟩
      intro entry inside
      rw [same]
      exact above entry inside
    · rw [if_neg same]
      refine List.pairwise_cons.mpr ⟨?_, place_ascending key value rising⟩
      intro entry inside
      rcases mem_place inside with here | later
      · rw [here]
        exact lt_of_le_of_ne (not_lt.mp less) (Ne.symm same)
      · exact above entry later

/-- The map without entries. -/
def empty : SortedMap κ ν := ⟨[], List.Pairwise.nil⟩

/-- The value of a key. -/
def get (m : SortedMap κ ν) (key : κ) : Option ν := lookup key m.entries

/-- Whether a key is present. -/
def contains (m : SortedMap κ ν) (key : κ) : Bool := (m.get key).isSome

/-- Set the value of a key. -/
def insert (m : SortedMap κ ν) (key : κ) (value : ν) : SortedMap κ ν :=
  ⟨place key value m.entries, place_ascending key value m.ascending⟩

/-- Drop a key. -/
def remove (m : SortedMap κ ν) (key : κ) : SortedMap κ ν :=
  ⟨m.entries.filter fun entry => !decide (entry.1 = key), m.ascending.filter _⟩

/-- The keys in ascending order. -/
def keys (m : SortedMap κ ν) : List κ := m.entries.map Prod.fst

/-- The values in key order. -/
def values (m : SortedMap κ ν) : List ν := m.entries.map Prod.snd

/-- The number of keys. -/
def size (m : SortedMap κ ν) : Nat := m.entries.length

/-- Insert the entries of a list in turn. -/
def insertAll (m : SortedMap κ ν) (entries : List (κ × ν)) : SortedMap κ ν :=
  entries.foldl (fun m entry => m.insert entry.1 entry.2) m

/-- The map of a list of entries, in which later ones override earlier ones. -/
def ofList (entries : List (κ × ν)) : SortedMap κ ν := insertAll empty entries

/-- The lookup in a list after placing. -/
theorem lookup_place (key : κ) (value : ν) (a : κ) : ∀ list : List (κ × ν),
    lookup a (place key value list) = if a = key then some value else lookup a list
  | [] => rfl
  | (k, v) :: rest => by
    rw [place]
    by_cases less : key < k
    · rw [if_pos less, lookup]
    rw [if_neg less]
    by_cases same : key = k
    · rw [if_pos same, lookup, lookup]
      by_cases here : a = key
      · rw [if_pos here, if_pos here]
      · rw [if_neg here, if_neg here, if_neg (same ▸ here)]
    · rw [if_neg same, lookup, lookup, lookup_place key value a rest]
      by_cases here : a = k
      · rw [if_pos here, if_pos here, if_neg]
        exact fun equal => same (equal.symm.trans here)
      · rw [if_neg here, if_neg here]

/-- The lookup of an inserted key, or of another. -/
theorem get_insert (m : SortedMap κ ν) (key : κ) (value : ν) (a : κ) :
    (m.insert key value).get a = if a = key then some value else m.get a :=
  lookup_place key value a m.entries

/-- The lookup of the inserted key. -/
@[simp] theorem get_insert_same (m : SortedMap κ ν) (key : κ) (value : ν) :
    (m.insert key value).get key = some value := by
  rw [get_insert, if_pos rfl]

/-- The lookup of another key. -/
theorem get_insert_other (m : SortedMap κ ν) {key a : κ} (other : a ≠ key) (value : ν) :
    (m.insert key value).get a = m.get a := by
  rw [get_insert, if_neg other]

/-- Nothing is found in the empty map. -/
@[simp] theorem get_empty (key : κ) : (empty : SortedMap κ ν).get key = none := rfl

/-- A lookup in an ascending list finds exactly its entries. -/
theorem lookup_eq_some {key : κ} {value : ν} : ∀ {list : List (κ × ν)},
    list.Pairwise (fun a b => a.1 < b.1) →
    (lookup key list = some value ↔ (key, value) ∈ list)
  | [], _ => by simp [lookup]
  | (k, v) :: rest, ascending => by
    obtain ⟨above, rising⟩ := List.pairwise_cons.mp ascending
    rw [lookup, List.mem_cons]
    by_cases same : key = k
    · rw [if_pos same, Option.some_inj]
      constructor
      · intro equal
        rw [same, equal]
        exact .inl rfl
      · rintro (here | later)
        · exact (Prod.ext_iff.mp here).2.symm
        · exact absurd same.symm (ne_of_lt (above _ later))
    · rw [if_neg same, lookup_eq_some rising]
      constructor
      · exact .inr
      · rintro (here | later)
        · exact absurd (Prod.ext_iff.mp here).1 same
        · exact later

/-- A lookup finds exactly the entries. -/
theorem get_eq_some {m : SortedMap κ ν} {key : κ} {value : ν} :
    m.get key = some value ↔ (key, value) ∈ m.entries :=
  lookup_eq_some m.ascending

/-- A present key is one of the keys. -/
theorem mem_keys {m : SortedMap κ ν} {key : κ} :
    key ∈ m.keys ↔ ∃ value, m.get key = some value := by
  rw [keys, List.mem_map]
  constructor
  · rintro ⟨entry, inside, rfl⟩
    exact ⟨entry.2, get_eq_some.mpr inside⟩
  · rintro ⟨value, found⟩
    exact ⟨(key, value), get_eq_some.mp found, rfl⟩

/-- The presence of a key. -/
theorem contains_iff {m : SortedMap κ ν} {key : κ} : m.contains key = true ↔ key ∈ m.keys := by
  rw [contains, mem_keys, Option.isSome_iff_exists]

/-- The value of a key is one of the values. -/
theorem mem_values {m : SortedMap κ ν} {value : ν} :
    value ∈ m.values ↔ ∃ key, m.get key = some value := by
  rw [values, List.mem_map]
  constructor
  · rintro ⟨entry, inside, rfl⟩
    exact ⟨entry.1, get_eq_some.mpr inside⟩
  · rintro ⟨key, found⟩
    exact ⟨(key, value), get_eq_some.mp found, rfl⟩

/-- The keys are distinct. -/
theorem nodup_keys (m : SortedMap κ ν) : m.keys.Nodup := by
  rw [keys, List.Nodup, List.pairwise_map]
  exact m.ascending.imp fun less => ne_of_lt less

/-- The lookup after dropping a key. -/
theorem get_remove (m : SortedMap κ ν) (key a : κ) :
    (m.remove key).get a = if a = key then none else m.get a := by
  apply Option.ext
  intro value
  rw [get_eq_some, remove, List.mem_filter]
  by_cases same : a = key
  · simp [same]
  · rw [if_neg same, get_eq_some]
    simp [same]

/-- The lookup after inserting the entries of a map. -/
theorem get_insertAll (a : κ) : ∀ (list : List (κ × ν)) (m : SortedMap κ ν),
    list.Pairwise (fun a b => a.1 < b.1) →
    (m.insertAll list).get a = (lookup a list).or (m.get a)
  | [], _, _ => rfl
  | (k, v) :: rest, m, ascending => by
    obtain ⟨above, rising⟩ := List.pairwise_cons.mp ascending
    refine (get_insertAll a rest (m.insert k v) rising).trans ?_
    rw [get_insert, lookup]
    by_cases same : a = k
    · rw [if_pos same, if_pos same, Option.some_or]
      have absent : lookup a rest = none := by
        by_contra present
        obtain ⟨value, found⟩ := Option.ne_none_iff_exists'.mp present
        exact absurd same.symm (ne_of_lt (above _ ((lookup_eq_some rising).mp found)))
      rw [absent]
      rfl
    · rw [if_neg same, if_neg same]

end SortedMap
