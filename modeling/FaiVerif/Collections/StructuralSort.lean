import FaiVerif.Collections.ListSortExact
import Mathlib.Order.Defs.LinearOrder

/-!
# The default sorts

`sort` of `std/collections/Array.fai` and of `std/collections/List.fai` compare entries
structurally. The array version leaves ascending arrays as they are, reverses descending ones, and
sorts short segments by insertion. All four sorts return the same entries in the same order.
-/

namespace Fai.Arrays

open Outcomes Segments Slots

variable {α : Type} [LinearOrder α]

/-- `Prim.compare`: the structural order. -/
def structural (x y : α) : Id Int := pure (if x < y then -1 else if x = y then 0 else 1)

/-- `reverseSwap`: swaps the ends until they meet. -/
def reverseSwap (xs : List α) (i j : Nat) : OptionT Id (List α) :=
  if i ≥ j then pure xs
  else do
    let xs ← swap i j xs
    reverseSwap xs (i + 1) (j - 1)
termination_by j - i

/-- `reverse`. -/
def reverse (xs : List α) : OptionT Id (List α) := reverseSwap xs 0 (xs.length - 1)

/-- `ascendingFrom`: no entry from `i` on is smaller than the one before it. -/
def ascendingFrom (i n : Nat) (xs : List α) : OptionT Id Bool :=
  if i ≥ n then pure true
  else do
    let order ← compareAt structural xs (i - 1) i
    if order ≤ 0 then ascendingFrom (i + 1) n xs else pure false
termination_by n - i

/-- `descendingFrom`: no entry from `i` on is larger than the one before it. -/
def descendingFrom (i n : Nat) (xs : List α) : OptionT Id Bool :=
  if i ≥ n then pure true
  else do
    let order ← compareAt structural xs (i - 1) i
    if order ≥ 0 then descendingFrom (i + 1) n xs else pure false
termination_by n - i

/-- `runDirection`: the direction of the first unequal pair, or zero when a later pair goes against
it. -/
def runDirection (i n : Nat) (xs : List α) : OptionT Id Int :=
  if i ≥ n then pure 1
  else do
    let order ← compareAt structural xs (i - 1) i
    if order = 0 then runDirection (i + 1) n xs
    else if order < 0 then do
      let ascending ← ascendingFrom (i + 1) n xs
      pure (if ascending then 1 else 0)
    else do
      let descending ← descendingFrom (i + 1) n xs
      pure (if descending then -1 else 0)
termination_by n - i

/-- `insertValueOrd`: shifts larger entries up and puts a value into the gap. -/
def insertValueOrd (lo i : Nat) (value : α) (arr : List α) : OptionT Id (List α) :=
  if i ≤ lo then arraySet arr i value
  else do
    let previous ← arrayGet arr (i - 1)
    if previous > value then do
      let shifted ← arraySet arr i previous
      insertValueOrd lo (i - 1) value shifted
    else arraySet arr i value
termination_by i - lo

/-- `insertionSortOrd`. -/
def insertionSortOrd (lo hi i : Nat) (arr : List α) : OptionT Id (List α) :=
  if i ≥ hi then pure arr
  else do
    let value ← arrayGet arr i
    let inserted ← insertValueOrd lo i value arr
    insertionSortOrd lo hi (i + 1) inserted
termination_by hi - i

/-- `pivotToEndOrd`. -/
def pivotToEndOrd (lo hi : Nat) (arr : List α) : OptionT Id (List α) :=
  pivotToEnd structural lo hi arr

/-- `partitionRangeOrd`. -/
def partitionRangeOrd (hi j less greater : Nat) (arr : List α) :
    OptionT Id (Nat × Nat × List α) := partitionRange structural hi j less greater arr

/-- `heapSortOrd`. -/
def heapSortOrd (lo hi : Nat) (arr : List α) : OptionT Id (List α) := heapSort structural lo hi arr

/-- `qsortOrd`. -/
def qsortOrd : Nat → Nat → Nat → List α → OptionT Id (List α)
  | 0, lo, hi, arr =>
    if hi - lo ≤ 1 then pure arr
    else if hi - lo ≤ 16 then insertionSortOrd lo hi (lo + 1) arr
    else heapSortOrd lo hi arr
  | depth + 1, lo, hi, arr =>
    if hi - lo ≤ 1 then pure arr
    else if hi - lo ≤ 16 then insertionSortOrd lo hi (lo + 1) arr
    else do
      let arr ← pivotToEndOrd lo hi arr
      let split ← partitionRangeOrd hi lo lo (hi - 1) arr
      qsortSplit (qsortOrd depth) lo hi split

/-- `sort`. -/
def sort (xs : List α) : OptionT Id (List α) := do
  let n := xs.length
  if n ≤ 1 then pure xs
  else
    let direction ← runDirection 1 n xs
    if direction > 0 then pure xs
    else if direction < 0 then reverse xs
    else qsortOrd (depthLimit n) 0 n xs

/-- The structural comparison decides the order. -/
theorem structural_decides : Lists.Decides (· ≤ ·) (structural : α → α → Id Int) := by
  intro x y
  refine ⟨pure ⟨if x < y then -1 else if x = y then 0 else 1, ?_⟩, rfl⟩
  rcases lt_trichotomy x y with less | rfl | greater
  · simp [less, le_of_lt less]
  · simp
  · simpa [not_lt_of_gt greater, (ne_of_lt greater).symm, le_of_lt greater] using greater

/-- The structural comparison agrees with the order. -/
theorem structural_consistent : Consistent (· ≤ ·) (structural : α → α → Id Int) := by
  intro x y
  exact yields_imp (structural_decides x y) fun order answer => ⟨answer.1.mp, answer.2.mp⟩

omit [LinearOrder α] in
/-- Swapping the ends until they meet reverses an array. -/
theorem reverseSwap_ensures {source : List α} : ∀ (i j : Nat) (arr : List α),
    arr.length = source.length → i ≤ j + 1 → i + j + 1 = source.length →
    (∀ k, i ≤ k → k ≤ j → arr[k]? = source[k]?) →
    (∀ k, k < source.length → k < i ∨ j < k → arr[k]? = source[source.length - 1 - k]?) →
      Ensures (fun out => out = source.reverse) (reverseSwap arr i j)
  | i, j, arr, length, ends, opposite, inner, outer => by
    rw [reverseSwap]
    split_ifs with done
    · refine ensures_pure (List.ext_getElem? fun k => ?_)
      by_cases inside : k < source.length
      · rw [List.getElem?_reverse inside]
        by_cases middle : i ≤ k ∧ k ≤ j
        · rw [inner k middle.1 middle.2]
          congr 1
          omega
        · exact outer k inside (by omega)
      · rw [List.getElem?_eq_none (by omega),
          List.getElem?_eq_none (by rw [List.length_reverse]; omega)]
    · refine ensures_bind (swap_ensures (by omega) (by omega)) fun swapped ends => ?_
      refine reverseSwap_ensures (i + 1) (j - 1) swapped (ends.length_eq.trans length) (by omega)
        (by omega) (fun k low high => ?_) fun k inside away => ?_
      · rw [ends.other k (by omega) (by omega)]
        exact inner k (by omega) (by omega)
      · by_cases left : k = i
        · rw [left, ends.left, inner j (by omega) (by omega)]
          congr 1
          omega
        · by_cases right : k = j
          · rw [right, ends.right, inner i (by omega) (by omega)]
            congr 1
            omega
          · rw [ends.other k left right]
            exact outer k inside (by omega)
termination_by i j => j - i

omit [LinearOrder α] in
/-- Reversing an array. -/
theorem reverse_ensures (xs : List α) (nonempty : 0 < xs.length) :
    Ensures (fun out => out = xs.reverse) (reverse xs) :=
  reverseSwap_ensures 0 (xs.length - 1) xs rfl (by omega) (by omega) (fun _ _ _ => rfl)
    fun k inside away => by omega

/-- Comparing neighbours tells their order. -/
theorem compareAt_neighbours {xs : List α} {i : Nat} (positive : 0 < i) (inside : i < xs.length) :
    Ensures (fun order => (order ≤ 0 → xs[i - 1] ≤ xs[i]) ∧ (0 ≤ order → xs[i] ≤ xs[i - 1]))
      (compareAt structural xs (i - 1) i) :=
  (compareAt_ensures structural_consistent (by omega) inside).imp fun order answer =>
    answer _ _ (List.getElem?_eq_getElem _) (List.getElem?_eq_getElem _)

/-- Neighbours from a place on are in a relation. -/
def Neighbours (rel : α → α → Prop) (i : Nat) (xs : List α) : Prop :=
  ∀ j, i ≤ j → ∀ inside : j < xs.length, rel xs[j - 1] xs[j]

omit [LinearOrder α] in
/-- Neighbours from a place on, when the pair at the place is in the relation. -/
theorem Neighbours.cons {rel : α → α → Prop} {i : Nat} {xs : List α} (inside : i < xs.length)
    (first : rel xs[i - 1] xs[i]) (later : Neighbours rel (i + 1) xs) : Neighbours rel i xs := by
  intro j low inside'
  by_cases here : j = i
  · subst here
    exact first
  · exact later j (by omega) inside'

omit [LinearOrder α] in
/-- Neighbours in a transitive relation are a list that ascends in it. -/
theorem Neighbours.pairwise {rel : α → α → Prop} {xs : List α} (neighbours : Neighbours rel 1 xs)
    (transitive : ∀ x y z, rel x y → rel y z → rel x z) : xs.Pairwise rel := by
  have : Trans rel rel rel := ⟨transitive _ _ _⟩
  rw [← List.isChain_iff_pairwise, List.isChain_iff_getElem]
  intro i inside
  exact neighbours (i + 1) (by omega) inside

/-- An ascending remainder is found to ascend. -/
theorem ascendingFrom_ensures (xs : List α) : ∀ i, 0 < i →
    Ensures (fun up => up = true → Neighbours (· ≤ ·) i xs) (ascendingFrom i xs.length xs)
  | i, positive => by
    rw [ascendingFrom]
    split_ifs with done
    · exact ensures_pure fun _ j low inside => by omega
    · refine ensures_bind (compareAt_neighbours positive (by omega)) fun order answer => ?_
      split_ifs with up
      · exact (ascendingFrom_ensures xs (i + 1) (by omega)).imp fun rest later all =>
          .cons (by omega) (answer.1 up) (later all)
      · exact ensures_pure fun no => by cases no
termination_by i => xs.length - i

/-- A descending remainder is found to descend. -/
theorem descendingFrom_ensures (xs : List α) : ∀ i, 0 < i →
    Ensures (fun down => down = true → Neighbours (· ≥ ·) i xs) (descendingFrom i xs.length xs)
  | i, positive => by
    rw [descendingFrom]
    split_ifs with done
    · exact ensures_pure fun _ j low inside => by omega
    · refine ensures_bind (compareAt_neighbours positive (by omega)) fun order answer => ?_
      split_ifs with down
      · exact (descendingFrom_ensures xs (i + 1) (by omega)).imp fun rest later all =>
          .cons (by omega) (answer.2 down) (later all)
      · exact ensures_pure fun no => by cases no
termination_by i => xs.length - i

/-- A direction is one of the array. -/
theorem runDirection_ensures (xs : List α) : ∀ i, 0 < i →
    Ensures (fun direction => (0 < direction → Neighbours (· ≤ ·) i xs) ∧
      (direction < 0 → Neighbours (· ≥ ·) i xs)) (runDirection i xs.length xs)
  | i, positive => by
    rw [runDirection]
    split_ifs with done
    · exact ensures_pure ⟨fun _ j low inside => by omega, fun no => by omega⟩
    · refine ensures_bind (compareAt_neighbours positive (by omega)) fun order answer => ?_
      split_ifs with equal up
      · exact (runDirection_ensures xs (i + 1) (by omega)).imp fun direction later =>
          ⟨fun more => .cons (by omega) (answer.1 (by omega)) (later.1 more),
            fun less => .cons (by omega) (answer.2 (by omega)) (later.2 less)⟩
      · refine ensures_bind (ascendingFrom_ensures xs (i + 1) (by omega)) fun ascending all =>
          ensures_pure ⟨fun more => .cons (by omega) (answer.1 (by omega)) (all ?_), fun less => ?_⟩
        · by_contra no
          simp [no] at more
        · split_ifs at less <;> omega
      · refine ensures_bind (descendingFrom_ensures xs (i + 1) (by omega)) fun descending all =>
          ensures_pure ⟨fun more => ?_, fun less => .cons (by omega) (answer.2 (by omega)) (all ?_)⟩
        · split_ifs at more <;> omega
        · by_contra no
          simp [no] at less
termination_by i => xs.length - i

/-- A segment is sorted but for the entry at a place, which may be too small. -/
def SortedBut (gap lo hi : Nat) (xs : List α) : Prop :=
  ∀ i j, lo ≤ i → i < j → j < hi → j ≠ gap → ∀ x y, xs[i]? = some x → xs[j]? = some y → x ≤ y

/-- Shifting the entry before the gap up. -/
theorem SortedBut.shift {gap lo hi : Nat} {value previous : α} {xs ys : List α}
    (sorted : SortedBut gap lo hi xs) (swapped : Swapped gap (gap - 1) xs ys)
    (inside : lo < gap) (entry : xs[gap]? = some value) (before : xs[gap - 1]? = some previous)
    (less : value ≤ previous) : SortedBut (gap - 1) lo hi ys := by
  intro i j low ascending high away x y found found'
  by_cases up : j = gap
  · rw [up, swapped.left, before, Option.some.injEq] at found'
    subst found'
    by_cases down : i = gap - 1
    · rw [down, swapped.right, entry, Option.some.injEq] at found
      rwa [← found]
    · rw [swapped.other i (by omega) down] at found
      exact sorted i (gap - 1) low (by omega) (by omega) (by omega) x previous found before
  · rw [swapped.other j up away] at found'
    by_cases here : i = gap
    · rw [here, swapped.left] at found
      exact sorted (gap - 1) j (by omega) (by omega) high up x y found found'
    · by_cases down : i = gap - 1
      · rw [down, swapped.right] at found
        exact sorted gap j (by omega) (by omega) high up x y found found'
      · rw [swapped.other i here down] at found
        exact sorted i j low ascending high up x y found found'

/-- A gap whose entry is not smaller than the one before it. -/
theorem SortedBut.close {gap lo hi : Nat} {value : α} {xs : List α}
    (sorted : SortedBut gap lo hi xs) (entry : xs[gap]? = some value)
    (fits : lo < gap → ∀ previous, xs[gap - 1]? = some previous → previous ≤ value) :
    Sorted (· ≤ ·) lo hi xs := by
  intro i j low ascending high x y found found'
  by_cases here : j = gap
  · rw [here, entry, Option.some.injEq] at found'
    subst found'
    by_cases next : i = gap - 1
    · rw [next] at found
      exact fits (by omega) x found
    · obtain ⟨inside, -⟩ := List.getElem?_eq_some_iff.mp entry
      have previous := List.getElem?_eq_getElem (show gap - 1 < xs.length by omega)
      exact (sorted i (gap - 1) low (by omega) (by omega) (by omega) x _ found previous).trans
        (fits (by omega) _ previous)
  · exact sorted i j low ascending high here x y found found'

/-- A value is inserted into a sorted segment. -/
theorem insertValueOrd_ensures {lo hi : Nat} {value : α} : ∀ (i : Nat) (arr : List α), lo ≤ i →
    i < hi → hi ≤ arr.length → SortedBut i lo hi (arr.set i value) →
      Ensures (fun out => Rearranged lo hi (arr.set i value) out ∧ Sorted (· ≤ ·) lo hi out)
        (insertValueOrd lo i value arr)
  | i, arr, low, high, within, sorted => by
    have entry : (arr.set i value)[i]? = some value := List.getElem?_set_self (by omega)
    rw [insertValueOrd]
    split_ifs with bottom
    · refine (arraySet_ensures (by omega) value).imp fun out written => ?_
      subst written
      exact ⟨.refl _ _ _, sorted.close entry fun more => by omega⟩
    · refine ensures_bind (arrayGet_ensures (by omega)) fun previous found => ?_
      have before : (arr.set i value)[i - 1]? = some previous := by
        rw [List.getElem?_set_ne (by omega), found]
      split_ifs with larger
      · refine ensures_bind (arraySet_ensures (by omega) previous) fun shifted written => ?_
        subst written
        have swapped := Swapped.set entry before
        rw [List.set_set] at swapped
        refine (insertValueOrd_ensures (i - 1) (arr.set i previous) (by omega) (by omega)
          (by rwa [List.length_set])
          (sorted.shift swapped (by omega) entry before (le_of_lt larger))).imp fun out both => ?_
        exact ⟨(swapped.rearranged low high (by omega) (by omega)).trans both.1, both.2⟩
      · refine (arraySet_ensures (by omega) value).imp fun out written => ?_
        subst written
        refine ⟨.refl _ _ _, sorted.close entry fun _ previous' found' => ?_⟩
        rw [before, Option.some.injEq] at found'
        rw [← found']
        exact not_lt.mp larger

/-- Sorting by insertion. -/
theorem insertionSortOrd_ensures {lo hi : Nat} : ∀ (i : Nat) (arr : List α), lo ≤ i → i ≤ hi →
    hi ≤ arr.length → Sorted (· ≤ ·) lo i arr →
      Ensures (fun out => Rearranged lo hi arr out ∧ Sorted (· ≤ ·) lo hi out)
        (insertionSortOrd lo hi i arr)
  | i, arr, low, high, within, sorted => by
    rw [insertionSortOrd]
    split_ifs with done
    · obtain rfl : i = hi := by omega
      exact ensures_pure ⟨.refl _ _ _, sorted⟩
    · refine ensures_bind (arrayGet_ensures (by omega)) fun value entry => ?_
      have same : arr.set i value = arr := by
        obtain ⟨inside, rfl⟩ := List.getElem?_eq_some_iff.mp entry
        exact List.set_getElem_self inside
      have but : SortedBut i lo (i + 1) (arr.set i value) := by
        rw [same]
        intro j k low' ascending high' away
        exact sorted j k low' ascending (by omega)
      refine ensures_bind (insertValueOrd_ensures i arr low (by omega) (by omega) but)
        fun inserted both => ?_
      rw [same] at both
      have length := both.1.length_eq
      exact (insertionSortOrd_ensures (i + 1) inserted (by omega) (by omega) (by omega)
        both.2).imp fun out both' =>
          ⟨(both.1.widen (Nat.le_refl _) (by omega)).trans both'.1, both'.2⟩
termination_by i => hi - i

/-- The default quicksort sorts a segment. -/
theorem qsortOrd_ensures : ∀ (depth lo hi : Nat) (arr : List α), hi ≤ arr.length →
    Ensures (fun out => Rearranged lo hi arr out ∧ Sorted (· ≤ ·) lo hi out)
      (qsortOrd depth lo hi arr)
  | 0, lo, hi, arr, within => by
    rw [qsortOrd]
    split_ifs with short small
    · exact ensures_pure ⟨.refl lo hi arr, sorted_of_le short⟩
    · exact insertionSortOrd_ensures (lo + 1) arr (by omega) (by omega) within
        (sorted_of_le (by omega))
    · exact heapSort_ensures structural_consistent (fun _ _ _ => le_trans) le_refl (by omega) within
  | depth + 1, lo, hi, arr, within => by
    rw [qsortOrd]
    split_ifs with short small
    · exact ensures_pure ⟨.refl lo hi arr, sorted_of_le short⟩
    · exact insertionSortOrd_ensures (lo + 1) arr (by omega) (by omega) within
        (sorted_of_le (by omega))
    · exact qsortStep_ensures structural_consistent (fun _ _ _ => le_trans) le_refl (by omega)
        within fun lo' hi' ys within' => qsortOrd_ensures depth lo' hi' ys within'

/-- The default sort of arrays sorts. -/
theorem sort_ensures (xs : List α) :
    Ensures (fun out => out.Perm xs ∧ out.Pairwise (· ≤ ·)) (sort xs) := by
  rw [sort]
  by_cases short : xs.length ≤ 1
  · rw [if_pos short]
    refine ensures_pure ⟨.refl xs, ?_⟩
    have : Sorted (· ≤ ·) 0 xs.length xs := sorted_of_le short
    exact this.pairwise
  · rw [if_neg short]
    refine ensures_bind (runDirection_ensures xs 1 (by omega)) fun direction answer => ?_
    split_ifs with up down
    · exact ensures_pure ⟨.refl xs, (answer.1 up).pairwise fun _ _ _ => le_trans⟩
    · refine (reverse_ensures xs (by omega)).imp fun out reversed => ?_
      subst reversed
      refine ⟨List.reverse_perm xs, List.pairwise_reverse.mpr ?_⟩
      exact (answer.2 down).pairwise fun _ _ _ first second => le_trans second first
    · refine (qsortOrd_ensures _ 0 xs.length xs (Nat.le_refl _)).imp fun out both =>
        ⟨both.1.perm, Sorted.pairwise ?_⟩
      rw [both.1.length_eq]
      exact both.2

end Fai.Arrays

namespace Fai.Lists

open Arrays Outcomes Slots

variable {α : Type} [LinearOrder α]

/-- `mergeAll`, the peer of `mergeAllBy` for the structural comparison. -/
def mergeAll (runs : List (List α)) : List α := Id.run (mergeAllBy structural runs)

/-- `sort`. -/
def sort (xs : List α) : List α := mergeAll (singletons xs)

/-- The default sort of lists sorts. -/
theorem sort_sorted (xs : List α) : (sort xs).Perm xs ∧ (sort xs).Pairwise (· ≤ ·) := by
  have sorted : Ensures (SortedFrom (· ≤ ·) xs) (sortBy structural xs) :=
    sortBy_stable (· ≤ ·) structural (fun _ _ _ => le_trans) structural_decides xs
  rw [sortBy_eq] at sorted
  obtain ⟨value, returned, meets⟩ := sorted.exists_value
  obtain rfl : sort xs = value := Option.some.inj returned
  exact ⟨meets.perm, meets.ordered⟩

/-- A sorted list with the entries of another one is what sorting it returns. -/
theorem eq_sort {xs out : List α} (perm : out.Perm xs) (ordered : out.Pairwise (· ≤ ·)) :
    out = sort xs := by
  have sorted := sort_sorted xs
  exact (perm.trans sorted.1.symm).eq_of_pairwise (fun _ _ _ _ => le_antisymm) ordered sorted.2

/-- The default sorts of arrays and lists, and the sorts of both by the structural comparison,
return the same list, which sorting does not change. -/
theorem sorts_agree (xs : List α) :
    (Arrays.sort xs).run = some (sort xs) ∧ (Arrays.sortBy structural xs).run = some (sort xs) ∧
      (sortBy structural xs).run = some (sort xs) ∧ sort (sort xs) = sort xs := by
  refine ⟨?_, ?_, ?_, ?_⟩
  · obtain ⟨out, returned, perm, ordered⟩ := (Arrays.sort_ensures xs).exists_value
    rw [returned, eq_sort perm ordered]
  · obtain ⟨out, returned, perm, ordered⟩ := ((Arrays.sortBy_ensures structural_consistent
      (fun _ _ _ => le_trans) le_refl xs)).exists_value
    rw [returned, eq_sort perm ordered]
  · rw [sortBy_eq]
    rfl
  · exact (eq_sort (.refl _) (sort_sorted xs).2).symm

end Fai.Lists
