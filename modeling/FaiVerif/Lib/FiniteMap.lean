import Mathlib.Logic.Basic
import Mathlib.Data.Option.Basic

/-!
# Finite maps as functions

The operations of a keyed collection, on the function from keys to values that it stands for. The
keys are told apart by any relation, so that a map over a type with its own notion of equality is
described in the same words.
-/

namespace FiniteMap

open Classical

variable {κ ν ω : Type}

/-- The map with no keys. -/
def none : κ → Option ν := fun _ => Option.none

/-- Set or clear the value of a key. -/
noncomputable def put (same : κ → κ → Prop) (m : κ → Option ν) (key : κ) (value : Option ν) :
    κ → Option ν :=
  fun k => if same k key then value else m k

/-- The map of a list of pairs, in which a later pair overrides an earlier one. -/
noncomputable def ofList (same : κ → κ → Prop) (pairs : List (κ × ν)) : κ → Option ν :=
  pairs.foldl (fun m pair => put same m pair.1 (some pair.2)) none

/-- The keys of either map, with the left map's value where both have one. -/
def union (a b : κ → Option ν) : κ → Option ν := fun k => (a k).or (b k)

/-- The keys of both maps, with the left map's value. -/
def intersection (a b : κ → Option ν) : κ → Option ν :=
  fun k => if (b k).isSome then a k else Option.none

/-- The left map's entries whose keys the right map does not have. -/
def difference (a b : κ → Option ν) : κ → Option ν :=
  fun k => if (b k).isSome then Option.none else a k

/-- The entries that satisfy a test. -/
def filter (keep : κ → ν → Bool) (m : κ → Option ν) : κ → Option ν := fun k => (m k).filter (keep k)

/-- Every value transformed, with its key. -/
def map (f : κ → ν → ω) (m : κ → Option ν) : κ → Option ω := fun k => (m k).map (f k)

end FiniteMap
