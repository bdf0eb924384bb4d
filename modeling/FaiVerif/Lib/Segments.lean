import Mathlib.Data.List.Perm.Basic
import Mathlib.Data.List.Nodup
import Mathlib.Logic.Equiv.Basic

/-!
# Segments of a list

Positions `lo … hi - 1` of a list are a segment of it. A segment is rearranged when its entries
change places and nothing else changes, and sorted when earlier entries do not come after later
ones in a transitive order. Sorted segments are put together when every entry of the one bounds
every entry of the other.
-/

namespace Segments

variable {α : Type}

/-- The entries at the places `lo … hi - 1` have changed places with one another. -/
structure Rearranged (lo hi : Nat) (xs ys : List α) : Prop where
  /-- The lists hold the same entries. -/
  perm : ys.Perm xs
  /-- Every entry comes from a place in the segment, or stays in its place outside. -/
  moved : ∃ place : Nat → Nat, (∀ i, ys[i]? = xs[place i]?) ∧
    (∀ i, lo ≤ i → i < hi → lo ≤ place i ∧ place i < hi) ∧
    ∀ i, ¬(lo ≤ i ∧ i < hi) → place i = i

namespace Rearranged

variable {lo hi lo' hi' : Nat} {xs ys zs : List α}

/-- A list is itself rearranged. -/
theorem refl (lo hi : Nat) (xs : List α) : Rearranged lo hi xs xs :=
  ⟨.refl xs, id, fun _ => rfl, fun _ low high => ⟨low, high⟩, fun _ _ => rfl⟩

/-- Rearranging a segment twice is rearranging it. -/
theorem trans (first : Rearranged lo hi xs ys) (second : Rearranged lo hi ys zs) :
    Rearranged lo hi xs zs := by
  obtain ⟨place, same, inside, outside⟩ := first.moved
  obtain ⟨place', same', inside', outside'⟩ := second.moved
  refine ⟨second.perm.trans first.perm, place ∘ place', fun i => ?_, fun i low high => ?_,
    fun i away => ?_⟩
  · rw [same', same]
    rfl
  · exact inside _ (inside' i low high).1 (inside' i low high).2
  · rw [Function.comp_apply, outside' i away, outside i away]

/-- A segment within another. -/
theorem widen (rearranged : Rearranged lo hi xs ys) (low : lo' ≤ lo) (high : hi ≤ hi') :
    Rearranged lo' hi' xs ys := by
  obtain ⟨place, same, inside, outside⟩ := rearranged.moved
  refine ⟨rearranged.perm, place, same, fun i above below => ?_, fun i away => ?_⟩
  · by_cases within : lo ≤ i ∧ i < hi
    · have there := inside i within.1 within.2
      omega
    · rw [outside i within]
      exact ⟨above, below⟩
  · exact outside i (by omega)

/-- Rearranging keeps the length. -/
theorem length_eq (rearranged : Rearranged lo hi xs ys) : ys.length = xs.length :=
  rearranged.perm.length_eq

/-- Nothing changes outside the segment. -/
theorem getElem?_outside (rearranged : Rearranged lo hi xs ys) {i : Nat}
    (away : ¬(lo ≤ i ∧ i < hi)) : ys[i]? = xs[i]? := by
  obtain ⟨place, same, _, outside⟩ := rearranged.moved
  rw [same, outside i away]

/-- Every entry of the segment comes from the segment. -/
theorem exists_from (rearranged : Rearranged lo hi xs ys) {i : Nat} (low : lo ≤ i) (high : i < hi)
    {x : α} (entry : ys[i]? = some x) : ∃ j, lo ≤ j ∧ j < hi ∧ xs[j]? = some x := by
  obtain ⟨place, same, inside, _⟩ := rearranged.moved
  refine ⟨place i, (inside i low high).1, (inside i low high).2, ?_⟩
  rw [← same, entry]

end Rearranged

/-- Two entries have changed places. -/
structure Swapped (a b : Nat) (xs ys : List α) : Prop where
  /-- The lists hold the same entries. -/
  perm : ys.Perm xs
  /-- The one entry is in the place of the other. -/
  left : ys[a]? = xs[b]?
  /-- The other is in the place of the one. -/
  right : ys[b]? = xs[a]?
  /-- The others are in their places. -/
  other : ∀ i, i ≠ a → i ≠ b → ys[i]? = xs[i]?

namespace Swapped

variable {a b lo hi : Nat} {xs ys : List α}

/-- An entry has changed places with itself. -/
theorem refl (a : Nat) (xs : List α) : Swapped a a xs xs := ⟨.refl xs, rfl, rfl, fun _ _ _ => rfl⟩

/-- Setting both places swaps them. -/
theorem set {x y : α} (first : xs[a]? = some x) (second : xs[b]? = some y) :
    Swapped a b xs ((xs.set a y).set b x) := by
  obtain ⟨inside, rfl⟩ := List.getElem?_eq_some_iff.mp first
  obtain ⟨inside', rfl⟩ := List.getElem?_eq_some_iff.mp second
  refine ⟨List.set_set_perm inside inside', ?_, ?_, fun i away away' => ?_⟩
  · by_cases same : a = b
    · subst same
      rw [List.getElem?_set_self (by rwa [List.length_set])]
      exact first.symm
    · rw [List.getElem?_set_ne (Ne.symm same), List.getElem?_set_self inside, second]
  · rw [List.getElem?_set_self (by rwa [List.length_set]), first]
  · rw [List.getElem?_set_ne (Ne.symm away'), List.getElem?_set_ne (Ne.symm away)]

/-- Swapping keeps the length. -/
theorem length_eq (swapped : Swapped a b xs ys) : ys.length = xs.length := swapped.perm.length_eq

/-- Swapping two entries of a segment rearranges it. -/
theorem rearranged (swapped : Swapped a b xs ys) (low : lo ≤ a) (high : a < hi) (low' : lo ≤ b)
    (high' : b < hi) : Rearranged lo hi xs ys := by
  refine ⟨swapped.perm, fun i => if i = a then b else if i = b then a else i, fun i => ?_,
    fun i above below => ?_, fun i away => ?_⟩ <;> beta_reduce
  · by_cases first : i = a
    · rw [if_pos first, first, swapped.left]
    · by_cases second : i = b
      · rw [if_neg first, if_pos second, second, swapped.right]
      · rw [if_neg first, if_neg second, swapped.other i first second]
  · split_ifs <;> omega
  · rw [if_neg (by omega), if_neg (by omega)]

end Swapped

/-- Every entry of a segment has a property. -/
def Each (property : α → Prop) (lo hi : Nat) (xs : List α) : Prop :=
  ∀ i, lo ≤ i → i < hi → ∀ x, xs[i]? = some x → property x

/-- Rearranging a segment keeps what each of its entries has. -/
theorem Each.rearranged {property : α → Prop} {lo hi : Nat} {xs ys : List α}
    (each : Each property lo hi xs) (rearranged : Rearranged lo hi xs ys) :
    Each property lo hi ys := by
  intro i low high x entry
  obtain ⟨j, low', high', entry'⟩ := rearranged.exists_from low high entry
  exact each j low' high' x entry'

/-- What each entry of a segment has does not depend on entries outside. -/
theorem Each.congr {property : α → Prop} {lo hi : Nat} {xs ys : List α}
    (each : Each property lo hi xs) (same : ∀ i, lo ≤ i → i < hi → ys[i]? = xs[i]?) :
    Each property lo hi ys := by
  intro i low high x entry
  rw [same i low high] at entry
  exact each i low high x entry

/-- Earlier entries of a segment do not come after later ones. -/
def Sorted (le : α → α → Prop) (lo hi : Nat) (xs : List α) : Prop :=
  ∀ i j, lo ≤ i → i < j → j < hi → ∀ x y, xs[i]? = some x → xs[j]? = some y → le x y

variable {le : α → α → Prop} {lo mid hi : Nat} {xs ys : List α}

/-- A segment of at most one entry is sorted. -/
theorem sorted_of_le (short : hi - lo ≤ 1) : Sorted le lo hi xs := by
  intro i j low less high
  omega

/-- Sortedness of a segment does not depend on entries outside. -/
theorem Sorted.congr (sorted : Sorted le lo hi xs)
    (same : ∀ i, lo ≤ i → i < hi → ys[i]? = xs[i]?) : Sorted le lo hi ys := by
  intro i j low less high x y first second
  rw [same i low (by omega)] at first
  rw [same j (by omega) high] at second
  exact sorted i j low less high x y first second

/-- Two sorted segments side by side are sorted when every entry of the first is at most every entry
of the second. -/
theorem Sorted.append (front : Sorted le lo mid xs) (back : Sorted le mid hi xs)
    (across : ∀ i j, lo ≤ i → i < mid → mid ≤ j → j < hi → ∀ x y, xs[i]? = some x →
      xs[j]? = some y → le x y) : Sorted le lo hi xs := by
  intro i j low less high x y first second
  by_cases left : j < mid
  · exact front i j low less left x y first second
  · by_cases right : mid ≤ i
    · exact back i j right less high x y first second
    · exact across i j low (by omega) (by omega) high x y first second

/-- A list sorted over all its places is sorted. -/
theorem Sorted.pairwise (sorted : Sorted le 0 xs.length xs) : xs.Pairwise le := by
  rw [List.pairwise_iff_getElem]
  intro i j _ inside less
  exact sorted i j (Nat.zero_le i) less inside _ _ (List.getElem?_eq_getElem _)
    (List.getElem?_eq_getElem _)

end Segments
