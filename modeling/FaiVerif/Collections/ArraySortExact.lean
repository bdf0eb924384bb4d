import FaiVerif.Collections.ArraySort

/-!
# Array sorting sorts

Whatever effects a comparator has and however it answers, sorting never reads or writes outside the
array and returns its entries in some order; when the answers agree with a total order up to ties,
in that order.
-/

namespace Fai.Arrays

open Outcomes Segments Slots

variable {m : Type → Type} [Monad m] [LawfulMonad m] {α : Type}

/-- The answers of a comparator agree with an order: at most zero for entries in order, at least
zero for entries in the opposite order. -/
def Consistent (le : α → α → Prop) (cmp : α → α → m Int) : Prop :=
  ∀ x y, Yields (fun order => (order ≤ 0 → le x y) ∧ (0 ≤ order → le y x)) (cmp x y)

/-- Reading inside an array. -/
theorem arrayGet_ensures {xs : List α} {i : Nat} (inside : i < xs.length) :
    Ensures (fun x => xs[i]? = some x) (arrayGet xs i : OptionT m α) := by
  refine ⟨pure ⟨xs[i], List.getElem?_eq_getElem inside⟩, ?_⟩
  rw [map_pure, arrayGet, OptionT.run_mk]
  exact congrArg pure (List.getElem?_eq_getElem inside).symm

/-- Writing inside an array. -/
theorem arraySet_ensures {xs : List α} {i : Nat} (inside : i < xs.length) (x : α) :
    Ensures (fun ys => ys = xs.set i x) (arraySet xs i x : OptionT m (List α)) := by
  rw [arraySet, if_pos inside]
  exact ensures_pure rfl

/-- Swapping entries inside an array. -/
theorem swap_ensures {xs : List α} {i j : Nat} (inside : i < xs.length) (inside' : j < xs.length) :
    Ensures (Swapped i j xs) (swap i j xs : OptionT m (List α)) := by
  rw [swap]
  split_ifs with same
  · subst same
    exact ensures_pure (.refl i xs)
  · refine ensures_bind (arrayGet_ensures inside) fun vi first => ?_
    refine ensures_bind (arrayGet_ensures inside') fun vj second => ?_
    refine ensures_bind (arraySet_ensures inside vj) fun ys written => ?_
    subst written
    refine (arraySet_ensures (by rwa [List.length_set]) vi).imp fun zs written => ?_
    subst written
    exact .set first second

section Ordered

variable {le : α → α → Prop} {cmp : α → α → m Int} (consistent : Consistent le cmp)
  {lo hi : Nat} {arr : List α}

include consistent

/-- Comparing entries inside an array. -/
theorem compareAt_ensures {i j : Nat} (inside : i < arr.length) (inside' : j < arr.length) :
    Ensures (fun order => ∀ x y, arr[i]? = some x → arr[j]? = some y →
      (order ≤ 0 → le x y) ∧ (0 ≤ order → le y x)) (compareAt cmp arr i j) := by
  refine ensures_bind (arrayGet_ensures inside) fun x first => ?_
  refine ensures_bind (arrayGet_ensures inside') fun y second => ?_
  refine (ensures_lift (consistent x y)).imp fun order answer x' y' first' second' => ?_
  rw [first, Option.some.injEq] at first'
  rw [second, Option.some.injEq] at second'
  rw [← first', ← second']
  exact answer

/-- A pair put in order. -/
theorem orderPair_ensures {i j : Nat} (low : lo ≤ i) (high : i < hi) (low' : lo ≤ j)
    (high' : j < hi) (within : hi ≤ arr.length) :
    Ensures (Rearranged lo hi arr) (orderPair cmp i j arr) := by
  refine ensures_bind (compareAt_ensures consistent (by omega) (by omega)) fun order _ => ?_
  split_ifs
  · refine (swap_ensures (by omega) (by omega)).imp fun ys swapped => ?_
    exact swapped.rearranged low high low' high'
  · exact ensures_pure (.refl lo hi arr)

/-- The choice of a pivot only rearranges. -/
theorem pivotToEnd_ensures (large : 1 < hi - lo) (within : hi ≤ arr.length) :
    Ensures (Rearranged lo hi arr) (pivotToEnd cmp lo hi arr) := by
  have half : (hi - lo) / 2 < hi - lo := Nat.div_lt_self (by omega) (by omega)
  have pair {i j : Nat} {ys : List α} (low : lo ≤ i) (high : i < hi) (low' : lo ≤ j)
    (high' : j < hi)
      (within : hi ≤ ys.length) : Ensures (Rearranged lo hi ys) (orderPair cmp i j ys) :=
    orderPair_ensures consistent low high low' high' within
  refine ensures_bind (pair (by omega) (by omega) (by omega) (by omega) within) fun a1 first => ?_
  have length := first.length_eq
  refine ensures_bind (pair (by omega) (by omega) (by omega) (by omega) (by omega))
    fun a2 second => ?_
  have length' := second.length_eq
  refine ensures_bind (pair (by omega) (by omega) (by omega) (by omega) (by omega))
    fun a3 third => ?_
  have length'' := third.length_eq
  refine (swap_ensures (by omega) (by omega)).imp fun ys swapped => ?_
  exact first.trans (second.trans (third.trans
    (swapped.rearranged (by omega) (by omega) (by omega) (by omega))))

end Ordered

/-- A band of entries that neither come before nor after the pivot, between those that do not come
after it and those that do not come before. -/
structure Parted (le : α → α → Prop) (pivot : α) (lo less j greater hi : Nat) (arr : List α) :
    Prop where
  /-- Entries before the band. -/
  small : Each (fun x => le x pivot) lo less arr
  /-- The band. -/
  equal : Each (fun x => le x pivot ∧ le pivot x) less j arr
  /-- Entries behind what is not looked at yet. -/
  large : Each (fun x => le pivot x) greater hi arr

namespace Parted

variable {le : α → α → Prop} {pivot x : α} {lo less j greater hi : Nat} {arr out : List α}

/-- The next entry goes to the smaller ones, and the first of the band behind it. -/
theorem toSmall (parted : Parted le pivot lo less j greater hi arr) (entry : arr[j]? = some x)
    (small : le x pivot) (swapped : Swapped less j arr out)
    (ascending : less ≤ j) (more : j < greater) :
    Parted le pivot lo (less + 1) (j + 1) greater hi out where
  small i low high y found := by
    by_cases here : i = less
    · rw [here, swapped.left, entry, Option.some.injEq] at found
      rwa [← found]
    · rw [swapped.other i here (by omega)] at found
      exact parted.small i low (by omega) y found
  equal i low high y found := by
    by_cases here : i = j
    · rw [here, swapped.right] at found
      exact parted.equal less (Nat.le_refl _) (by omega) y found
    · rw [swapped.other i (by omega) here] at found
      exact parted.equal i (by omega) (by omega) y found
  large i low high y found := by
    rw [swapped.other i (by omega) (by omega)] at found
    exact parted.large i low high y found

/-- The next entry goes to the larger ones. -/
theorem toLarge (parted : Parted le pivot lo less j greater hi arr) (entry : arr[j]? = some x)
    (large : le pivot x) (swapped : Swapped j (greater - 1) arr out) (ascending : less ≤ j)
    (more : j < greater) : Parted le pivot lo less j (greater - 1) hi out where
  small i low high y found := by
    rw [swapped.other i (by omega) (by omega)] at found
    exact parted.small i low high y found
  equal i low high y found := by
    rw [swapped.other i (by omega) (by omega)] at found
    exact parted.equal i low high y found
  large i low high y found := by
    by_cases here : i = greater - 1
    · rw [here, swapped.right, entry, Option.some.injEq] at found
      rwa [← found]
    · rw [swapped.other i (by omega) here] at found
      exact parted.large i (by omega) high y found

/-- The next entry joins the band. -/
theorem toEqual (parted : Parted le pivot lo less j greater hi arr) (entry : arr[j]? = some x)
    (small : le x pivot) (large : le pivot x) : Parted le pivot lo less (j + 1) greater hi arr where
  small := parted.small
  equal i low high y found := by
    by_cases here : i = j
    · rw [here, entry, Option.some.injEq] at found
      rw [← found]
      exact ⟨small, large⟩
    · exact parted.equal i low (by omega) y found
  large := parted.large

/-- The pivot joins the band in the end. -/
theorem finish (parted : Parted le pivot lo less j j hi arr) (last : arr[hi]? = some pivot)
    (reflexive : le pivot pivot) (swapped : Swapped j hi arr out) (ascending : less ≤ j)
    (inside : j ≤ hi) : Parted le pivot lo less (j + 1) (j + 1) (hi + 1) out where
  small i low high y found := by
    rw [swapped.other i (by omega) (by omega)] at found
    exact parted.small i low high y found
  equal i low high y found := by
    by_cases here : i = j
    · rw [here, swapped.left, last, Option.some.injEq] at found
      rw [← found]
      exact ⟨reflexive, reflexive⟩
    · rw [swapped.other i here (by omega)] at found
      exact parted.equal i low (by omega) y found
  large i low high y found := by
    by_cases here : i = hi
    · rw [here, swapped.right] at found
      exact parted.large j (Nat.le_refl _) (by omega) y found
    · rw [swapped.other i (by omega) here] at found
      exact parted.large i (by omega) (by omega) y found

end Parted

/-- What a partition comes to: a segment rearranged around a band that is not empty. -/
def Partition (le : α → α → Prop) (lo hi : Nat) (arr : List α) : Nat × Nat × List α → Prop
  | (equalStart, equalEnd, out) => Rearranged lo hi arr out ∧ lo ≤ equalStart ∧
    equalStart < equalEnd ∧ equalEnd ≤ hi ∧
      ∃ pivot, Parted le pivot lo equalStart equalEnd equalEnd hi out

section Ordered

variable {le : α → α → Prop} {cmp : α → α → m Int} (consistent : Consistent le cmp)

include consistent

/-- Partitioning keeps the entries looked at apart, and puts the pivot into its band. -/
theorem partitionRange_ensures {pivot : α} {lo hi : Nat} (reflexive : le pivot pivot)
    (nonempty : lo < hi) :
    ∀ (j less greater : Nat) (arr : List α), lo ≤ less → less ≤ j → j ≤ greater →
      greater ≤ hi - 1 → hi ≤ arr.length → arr[hi - 1]? = some pivot →
      Parted le pivot lo less j greater (hi - 1) arr →
        Ensures (Partition le lo hi arr) (partitionRange cmp hi j less greater arr)
  | j, less, greater, arr, bottom, ascending, ascending', top, within, last, parted => by
    rw [partitionRange]
    split_ifs with done
    · obtain rfl : j = greater := by omega
      refine ensures_bind (swap_ensures (by omega) (by omega)) fun out swapped => ensures_pure ?_
      refine ⟨swapped.rearranged (by omega) (by omega) (by omega) (by omega), bottom, by omega,
        by omega, pivot, ?_⟩
      have finished := parted.finish last reflexive swapped ascending top
      rwa [Nat.sub_add_cancel (by omega)] at finished
    · have entry : arr[j]? = some arr[j] := List.getElem?_eq_getElem (by omega)
      refine ensures_bind (compareAt_ensures consistent (by omega) (by omega))
        fun order answer => ?_
      have answers := answer _ pivot entry last
      split_ifs with smaller larger
      · refine ensures_bind (swap_ensures (by omega) (by omega)) fun out swapped => ?_
        have length := swapped.length_eq
        have first : Rearranged lo hi arr out :=
          swapped.rearranged (by omega) (by omega) (by omega) (by omega)
        refine (partitionRange_ensures reflexive nonempty (j + 1) (less + 1) greater out (by omega)
          (by omega) (by omega) top (by omega)
          ((swapped.other _ (by omega) (by omega)).trans last)
          (parted.toSmall entry (answers.1 (by omega)) swapped ascending
            (by omega))).imp fun result part => ?_
        exact ⟨first.trans part.1, part.2⟩
      · refine ensures_bind (swap_ensures (by omega) (by omega)) fun out swapped => ?_
        have length := swapped.length_eq
        have first : Rearranged lo hi arr out :=
          swapped.rearranged (by omega) (by omega) (by omega) (by omega)
        refine (partitionRange_ensures reflexive nonempty j less (greater - 1) out bottom ascending
          (by omega) (by omega) (by omega)
          ((swapped.other _ (by omega) (by omega)).trans last)
          (parted.toLarge entry (answers.2 (by omega)) swapped ascending
            (by omega))).imp fun result part => ?_
        exact ⟨first.trans part.1, part.2⟩
      · exact partitionRange_ensures reflexive nonempty (j + 1) less greater arr bottom (by omega)
          (by omega) top within last
          (parted.toEqual entry (answers.1 (by omega)) (answers.2 (by omega)))
termination_by j _ greater => greater - j

end Ordered

/-- A place is a child of another in a heap. -/
def Child (parent child : Nat) : Prop := child = parent * 2 + 1 ∨ child = parent * 2 + 2

/-- An entry of a heap does not come after another. -/
def Below (le : α → α → Prop) (base : Nat) (arr : List α) (lower upper : Nat) : Prop :=
  ∀ x y, arr[base + lower]? = some x → arr[base + upper]? = some y → le x y

/-- The heap property of the roots from one on. -/
def HeapFrom (le : α → α → Prop) (base count root : Nat) (arr : List α) : Prop :=
  ∀ parent child, root ≤ parent → Child parent child → child < count →
    Below le base arr child parent

/-- The heap property of the roots from one on, except below a hole. -/
structure Sifting (le : α → α → Prop) (base count root hole : Nat) (arr : List α) : Prop where
  /-- The hole is one of the roots. -/
  from_root : root ≤ hole
  /-- Elsewhere it holds. -/
  except : ∀ parent child, root ≤ parent → Child parent child → child < count → parent ≠ hole →
    Below le base arr child parent
  /-- The children of the hole are below its parent. -/
  across : ∀ parent child, root ≤ parent → Child parent hole → Child hole child → child < count →
    Below le base arr child parent

section Heap

variable {le : α → α → Prop} {base count root : Nat} {arr : List α}

/-- The hole moves to the larger of its children. -/
theorem Sifting.move {hole child : Nat} {out : List α}
    (sifting : Sifting le base count root hole arr) (isChild : Child hole child)
    (inside : child < count) (upper : Below le base arr hole child)
    (larger : ∀ other, Child hole other → other < count → Below le base arr other child)
    (swapped : Swapped (base + hole) (base + child) arr out) :
    Sifting le base count root child out := by
  have rooted := sifting.from_root
  refine ⟨by unfold Child at isChild; omega, ?_, ?_⟩
  · intro parent other low isChild' inside' apart x y found found'
    by_cases top : parent = hole
    · subst top
      rw [swapped.left] at found'
      by_cases same : other = child
      · rw [same, swapped.right] at found
        exact upper x y found found'
      · rw [swapped.other _ (by unfold Child at isChild'; omega) (by omega)] at found
        exact larger other isChild' inside' x y found found'
    · rw [swapped.other _ (by omega) (by omega)] at found'
      by_cases same : other = hole
      · rw [same, swapped.left] at found
        rw [same] at isChild'
        exact sifting.across parent child low isChild' isChild inside x y found found'
      · have away : other ≠ child := by unfold Child at isChild isChild'; omega
        rw [swapped.other _ (by omega) (by omega)] at found
        exact sifting.except parent other low isChild' inside' top x y found found'
  · intro parent other low isChild' isChild'' inside' x y found found'
    obtain rfl : parent = hole := by unfold Child at isChild isChild'; omega
    rw [swapped.left] at found'
    rw [swapped.other _ (by unfold Child at isChild isChild''; omega)
      (by unfold Child at isChild''; omega)] at found
    exact sifting.except child other (by unfold Child at isChild; omega) isChild'' inside'
      (by unfold Child at isChild; omega) x y found found'

/-- A hole whose children are below it closes. -/
theorem Sifting.close {hole : Nat} (sifting : Sifting le base count root hole arr)
    (closed : ∀ child, Child hole child → child < count → Below le base arr child hole) :
    HeapFrom le base count root arr := by
  intro parent child low isChild inside
  by_cases here : parent = hole
  · subst here
    exact closed child isChild inside
  · exact sifting.except parent child low isChild inside here

/-- A root opens as a hole above a heap. -/
theorem HeapFrom.sifting (heap : HeapFrom le base count (root + 1) arr) :
    Sifting le base count root root arr where
  from_root := Nat.le_refl root
  except parent child low isChild inside apart := heap parent child (by omega) isChild inside
  across parent child low isChild := by unfold Child at isChild; omega

/-- The first entry of a heap is the largest. -/
theorem HeapFrom.le_first (heap : HeapFrom le base count 0 arr)
    (transitive : ∀ x y z, le x y → le y z → le x z) (reflexive : ∀ x, le x x)
    (within : base + count ≤ arr.length) :
    ∀ k, k < count → Below le base arr k 0 := by
  intro k
  induction k using Nat.strongRecOn with
  | ind k hypothesis =>
    intro inside x y found found'
    by_cases first : k = 0
    · subst first
      rw [found, Option.some.injEq] at found'
      rw [found']
      exact reflexive y
    · have parent : Child ((k - 1) / 2) k := by unfold Child; omega
      have entry : arr[base + (k - 1) / 2]? = some arr[base + (k - 1) / 2] :=
        List.getElem?_eq_getElem (by omega)
      exact transitive _ _ _ (heap _ k (Nat.zero_le _) parent inside x _ found entry)
        (hypothesis ((k - 1) / 2) (by omega) (by omega) _ y entry found')

end Heap

section Sides

variable {le : α → α → Prop}

/-- Sorted sides of a band make a sorted segment. -/
theorem Parted.sorted {pivot : α} {lo equalStart equalEnd hi : Nat} {arr : List α}
    (bands : Parted le pivot lo equalStart equalEnd equalEnd hi arr)
    (transitive : ∀ x y z, le x y → le y z → le x z)
    (front : Sorted le lo equalStart arr) (back : Sorted le equalEnd hi arr) :
    Sorted le lo hi arr := by
  have band : Sorted le equalStart equalEnd arr := by
    intro i j low less high x y found found'
    exact transitive _ _ _ (bands.equal i low (by omega) x found).1
      (bands.equal j (by omega) high y found').2
  refine (front.append band ?_).append back ?_
  · intro i j low high low' high' x y found found'
    exact transitive _ _ _ (bands.small i low high x found) (bands.equal j low' high' y found').2
  · intro i j low high low' high' x y found found'
    refine transitive _ _ _ ?_ (bands.large j low' high' y found')
    by_cases before : i < equalStart
    · exact bands.small i low before x found
    · exact (bands.equal i (by omega) high x found).1

/-- Rearranging the front side keeps the bands. -/
theorem Parted.rearranged_front {pivot : α} {lo equalStart equalEnd hi : Nat} {arr out : List α}
    (bands : Parted le pivot lo equalStart equalEnd equalEnd hi arr) (less : equalStart ≤ equalEnd)
    (front : Rearranged lo equalStart arr out) :
    Parted le pivot lo equalStart equalEnd equalEnd hi out where
  small := bands.small.rearranged front
  equal := bands.equal.congr fun i _ _ => front.getElem?_outside (by omega)
  large := bands.large.congr fun i _ _ => front.getElem?_outside (by omega)

/-- Rearranging the back side keeps the bands. -/
theorem Parted.rearranged_back {pivot : α} {lo equalStart equalEnd hi : Nat} {arr out : List α}
    (bands : Parted le pivot lo equalStart equalEnd equalEnd hi arr) (less : equalStart ≤ equalEnd)
    (back : Rearranged equalEnd hi arr out) :
    Parted le pivot lo equalStart equalEnd equalEnd hi out where
  small := bands.small.congr fun i _ _ => back.getElem?_outside (by omega)
  equal := bands.equal.congr fun i _ _ => back.getElem?_outside (by omega)
  large := bands.large.rearranged back

/-- Sorting both sides of a partition sorts the segment. -/
theorem qsortSplit_ensures (transitive : ∀ x y z, le x y → le y z → le x z)
    {sort : Nat → Nat → List α → OptionT m (List α)} {lo hi : Nat} {arr : List α}
    (within : hi ≤ arr.length)
    (sorts : ∀ (lo' hi' : Nat) (ys : List α), hi' ≤ ys.length →
      Ensures (fun out => Rearranged lo' hi' ys out ∧ Sorted le lo' hi' out) (sort lo' hi' ys))
    {split : Nat × Nat × List α} (partition : Partition le lo hi arr split) :
    Ensures (fun out => Rearranged lo hi arr out ∧ Sorted le lo hi out)
      (qsortSplit sort lo hi split) := by
  obtain ⟨equalStart, equalEnd, parted⟩ := split
  obtain ⟨rearranged, low, less, high, pivot, bands⟩ := partition
  have length := rearranged.length_eq
  rw [qsortSplit]
  split_ifs
  · refine ensures_bind (sorts lo equalStart parted (by omega)) fun out front => ?_
    have length' := front.1.length_eq
    refine (sorts equalEnd hi out (by omega)).imp fun out' back => ⟨rearranged.trans
      ((front.1.widen (Nat.le_refl lo) (by omega)).trans
        (back.1.widen (by omega) (Nat.le_refl hi))), ?_⟩
    have bands' := (bands.rearranged_front (by omega) front.1).rearranged_back (by omega) back.1
    exact bands'.sorted transitive
      (front.2.congr fun i _ _ => back.1.getElem?_outside (by omega)) back.2
  · refine ensures_bind (sorts equalEnd hi parted (by omega)) fun out back => ?_
    have length' := back.1.length_eq
    refine (sorts lo equalStart out (by omega)).imp fun out' front => ⟨rearranged.trans
      ((back.1.widen (by omega) (Nat.le_refl hi)).trans
        (front.1.widen (Nat.le_refl lo) (by omega))), ?_⟩
    have bands' := (bands.rearranged_back (by omega) back.1).rearranged_front (by omega) front.1
    exact bands'.sorted transitive front.2
      (back.2.congr fun i _ _ => front.1.getElem?_outside (by omega))

end Sides

section Ordered

variable {le : α → α → Prop} {cmp : α → α → m Int} (consistent : Consistent le cmp)

include consistent

/-- The test for the right child tells which child is the larger one. -/
theorem rightIsLarger_ensures {base count left : Nat} {arr : List α}
    (within : base + count ≤ arr.length) : Ensures (fun larger =>
      (larger = true → left + 1 < count ∧ Below le base arr left (left + 1)) ∧
      (larger = false → left + 1 < count → Below le base arr (left + 1) left))
    (rightIsLarger cmp base count left arr) := by
  rw [rightIsLarger]
  split_ifs with pair
  · refine ensures_bind (compareAt_ensures consistent (by omega) (by omega)) fun order answer =>
      ensures_pure ⟨fun less => ⟨pair, fun x y found found' => ?_⟩,
        fun less _ x y found found' => ?_⟩
    · rw [decide_eq_true_eq] at less
      exact (answer x y found found').1 (by omega)
    · rw [decide_eq_false_iff_not] at less
      exact (answer y x found' found).2 (by omega)
  · exact ensures_pure ⟨fun less => (Bool.false_ne_true less).elim,
      fun _ inside => absurd inside pair⟩

/-- Sifting down restores the heap below a hole. -/
theorem siftDown_ensures (transitive : ∀ x y z, le x y → le y z → le x z)
    (reflexive : ∀ x, le x x) {base count root : Nat} :
    ∀ (hole : Nat) (arr : List α), hole < count → base + count ≤ arr.length →
      Sifting le base count root hole arr →
        Ensures (fun out => Rearranged base (base + count) arr out ∧
          HeapFrom le base count root out) (siftDown cmp base count hole arr)
  | hole, arr, inside, within, sifting => by
    rw [siftDown]
    split_ifs with leaf
    · refine ensures_pure ⟨.refl _ _ arr, sifting.close fun child isChild inside => ?_⟩
      unfold Child at isChild
      omega
    · refine ensures_bind (rightIsLarger_ensures consistent (by omega)) fun larger choice => ?_
      obtain ⟨child, same, isChild, inside', upmost⟩ : ∃ child,
          (if larger then hole * 2 + 1 + 1 else hole * 2 + 1) = child ∧ Child hole child ∧
          child < count ∧ ∀ other, Child hole other → other < count →
            Below le base arr other child := by
        have itself (place : Nat) : Below le base arr place place := by
          intro x y found found'
          rw [found, Option.some.injEq] at found'
          rw [found']
          exact reflexive y
        cases larger with
        | true =>
          refine ⟨_, rfl, .inr rfl, (choice.1 rfl).1, fun other isChild inside => ?_⟩
          rcases isChild with rfl | rfl
          · exact (choice.1 rfl).2
          · exact itself _
        | false =>
          refine ⟨_, rfl, .inl rfl, by simp only [Bool.false_eq_true, if_false]; omega,
            fun other isChild inside => ?_⟩
          rcases isChild with rfl | rfl
          · exact itself _
          · exact choice.2 rfl inside
      simp only [same]
      have deeper : hole < child := by unfold Child at isChild; omega
      refine ensures_bind (compareAt_ensures consistent (by omega) (by omega))
        fun order answer => ?_
      split_ifs with less
      · refine ensures_bind (swap_ensures (by omega) (by omega)) fun out swapped => ?_
        have length := swapped.length_eq
        have first : Rearranged base (base + count) arr out :=
          swapped.rearranged (by omega) (by omega) (by omega) (by omega)
        have moved := sifting.move isChild inside' (fun x y found found' =>
          (answer x y found found').1 (by omega)) upmost swapped
        refine (siftDown_ensures transitive reflexive child out inside' (by omega)
          moved).imp fun result heap => ?_
        exact ⟨first.trans heap.1, heap.2⟩
      · refine ensures_pure ⟨.refl _ _ arr, sifting.close fun other isChild' inside'' => ?_⟩
        intro x y found found'
        have entry : arr[base + child]? = some arr[base + child] :=
          List.getElem?_eq_getElem (by omega)
        exact transitive _ _ _ (upmost other isChild' inside'' x _ found entry)
          ((answer y _ found' entry).2 (by omega))
termination_by hole => count - hole
decreasing_by omega

/-- Building a heap sifts down every root. -/
theorem heapBuild_ensures (transitive : ∀ x y z, le x y → le y z → le x z)
    (reflexive : ∀ x, le x x) {base count : Nat} :
    ∀ (roots : Nat) (arr : List α), roots ≤ count → base + count ≤ arr.length →
      HeapFrom le base count roots arr →
        Ensures (fun out => Rearranged base (base + count) arr out ∧
          HeapFrom le base count 0 out) (heapBuild cmp base count roots arr)
  | 0, arr, _, _, heap => ensures_pure ⟨.refl _ _ arr, heap⟩
  | root + 1, arr, inside, within, heap => by
    refine ensures_bind (siftDown_ensures consistent transitive reflexive root arr (by omega) within
      heap.sifting) fun out sifted => ?_
    have length := sifted.1.length_eq
    refine (heapBuild_ensures transitive reflexive root out (by omega) (by omega)
      sifted.2).imp fun result built => ?_
    exact ⟨sifted.1.trans built.1, built.2⟩

/-- Draining a heap into sorted entries that do not come before any of the heap. -/
theorem heapDrain_ensures (transitive : ∀ x y z, le x y → le y z → le x z)
    (reflexive : ∀ x, le x x) {base hi : Nat} :
    ∀ (last : Nat) (arr : List α), base + last < hi → hi ≤ arr.length →
      HeapFrom le base (last + 1) 0 arr → Sorted le (base + last + 1) hi arr →
      (∀ i j, base ≤ i → i ≤ base + last → base + last < j → j < hi → ∀ x y, arr[i]? = some x →
        arr[j]? = some y → le x y) →
        Ensures (fun out => Rearranged base hi arr out ∧ Sorted le base hi out)
          (heapDrain cmp base last arr)
  | 0, arr, inside, within, heap, sorted, bound => by
    refine ensures_pure ⟨.refl _ _ arr, (sorted_of_le (by omega)).append sorted ?_⟩
    intro i j low high low' high' x y
    exact bound i j low (by omega) (by omega) high' x y
  | last + 1, arr, inside, within, heap, sorted, bound => by
    have largest := heap.le_first transitive reflexive (by omega)
    refine ensures_bind (swap_ensures (by omega) (by omega)) fun out swapped => ?_
    have length := swapped.length_eq
    have opened : Sifting le base (last + 1) 0 0 out := by
      refine ⟨Nat.le_refl 0, fun parent child low isChild inside' apart => ?_,
        fun parent child low isChild => by unfold Child at isChild; omega⟩
      intro x y found found'
      unfold Child at isChild
      rw [swapped.other _ (by omega) (by omega)] at found found'
      exact heap parent child low (by unfold Child; omega) (by omega) x y found found'
    refine ensures_bind (siftDown_ensures consistent transitive reflexive 0 out
      (by omega) (by omega)
      opened) fun sifted both => ?_
    obtain ⟨rearranged, heap'⟩ := both
    have length' := rearranged.length_eq
    have first : Rearranged base hi arr sifted :=
      (swapped.rearranged (by omega) (by omega) (by omega) (by omega)).trans
        (rearranged.widen (by omega) (by omega))
    -- The largest entry of the heap is now behind it.
    have behind : sifted[base + (last + 1)]? = arr[base]? := by
      rw [rearranged.getElem?_outside (by omega), swapped.right]
    have kept (j : Nat) (low : base + (last + 1) < j) : sifted[j]? = arr[j]? := by
      rw [rearranged.getElem?_outside (by omega), swapped.other j (by omega) (by omega)]
    have source (i : Nat) (low : base ≤ i) (high : i ≤ base + last) (x : α)
        (found : sifted[i]? = some x) :
        ∃ k, k < last + 1 + 1 ∧ arr[base + k]? = some x := by
      obtain ⟨j, low', high', found'⟩ := rearranged.exists_from low (by omega) found
      by_cases top : j = base
      · rw [top, swapped.left] at found'
        exact ⟨last + 1, by omega, found'⟩
      · rw [swapped.other j top (by omega)] at found'
        exact ⟨j - base, by omega, by rwa [Nat.add_sub_cancel' low']⟩
    refine (heapDrain_ensures transitive reflexive last sifted (by omega) (by omega) heap' ?_
      ?_).imp fun result drained => ⟨first.trans drained.1, drained.2⟩
    · have alone : Sorted le (base + last + 1) (base + (last + 1) + 1) sifted :=
        sorted_of_le (by omega)
      refine alone.append (sorted.congr fun j low high => kept j (by omega)) ?_
      intro i j low high low' high' x y found found'
      obtain rfl : i = base + (last + 1) := by omega
      rw [behind] at found
      rw [kept j (by omega)] at found'
      exact bound base j (by omega) (by omega) (by omega) high' x y found found'
    · intro i j low high low' high' x y found found'
      obtain ⟨k, inside', found⟩ := source i low high x found
      by_cases next : j = base + (last + 1)
      · rw [next, behind] at found'
        exact largest k inside' x y found found'
      · rw [kept j (by omega)] at found'
        exact bound (base + k) j (by omega) (by omega) (by omega) high' x y found found'

/-- Heapsort sorts a segment. -/
theorem heapSort_ensures (transitive : ∀ x y z, le x y → le y z → le x z)
    (reflexive : ∀ x, le x x) {lo hi : Nat} {arr : List α} (nonempty : lo < hi)
    (within : hi ≤ arr.length) :
    Ensures (fun out => Rearranged lo hi arr out ∧ Sorted le lo hi out)
      (heapSort cmp lo hi arr) := by
  have leaves : HeapFrom le lo (hi - lo) ((hi - lo) / 2) arr := by
    intro parent child low isChild inside
    unfold Child at isChild
    omega
  refine ensures_bind (heapBuild_ensures consistent transitive reflexive _ arr
    (Nat.div_le_self _ _) (by omega) leaves) fun built both => ?_
  rw [Nat.add_sub_cancel' (Nat.le_of_lt nonempty)] at both
  have length := both.1.length_eq
  refine (heapDrain_ensures consistent transitive reflexive (hi - lo - 1) built (by omega)
    (by omega) (by rw [Nat.sub_add_cancel (by omega)]; exact both.2) (sorted_of_le (by omega))
    ?_).imp fun out drained => ⟨both.1.trans drained.1, drained.2⟩
  intro i j low high low' high'
  omega

/-- A partition and the sorts of its sides sort a segment. -/
theorem qsortStep_ensures (transitive : ∀ x y z, le x y → le y z → le x z)
    (reflexive : ∀ x, le x x) {sort : Nat → Nat → List α → OptionT m (List α)} {lo hi : Nat}
    {arr : List α} (large : 1 < hi - lo) (within : hi ≤ arr.length)
    (sorts : ∀ lo' hi' ys, hi' ≤ ys.length →
      Ensures (fun out => Rearranged lo' hi' ys out ∧ Sorted le lo' hi' out) (sort lo' hi' ys)) :
    Ensures (fun out => Rearranged lo hi arr out ∧ Sorted le lo hi out) (do
      let arr ← pivotToEnd cmp lo hi arr
      let split ← partitionRange cmp hi lo lo (hi - 1) arr
      qsortSplit sort lo hi split) := by
  refine ensures_bind (pivotToEnd_ensures consistent large within) fun chosen first => ?_
  have length := first.length_eq
  have last : chosen[hi - 1]? = some chosen[hi - 1] := List.getElem?_eq_getElem (by omega)
  refine ensures_bind (partitionRange_ensures consistent (reflexive _) (by omega) lo lo (hi - 1)
    chosen (Nat.le_refl lo) (Nat.le_refl lo) (by omega) (Nat.le_refl _) (by omega) last ?_)
    fun split partition => ?_
  · exact ⟨fun i low high => by omega, fun i low high => by omega, fun i low high => by omega⟩
  · exact (qsortSplit_ensures transitive (by omega) sorts partition).imp
      fun out sorted => ⟨first.trans sorted.1, sorted.2⟩

/-- Quicksort sorts a segment. -/
theorem qsort_ensures (transitive : ∀ x y z, le x y → le y z → le x z) (reflexive : ∀ x, le x x) :
    ∀ (depth lo hi : Nat) (arr : List α), hi ≤ arr.length →
      Ensures (fun out => Rearranged lo hi arr out ∧ Sorted le lo hi out)
        (qsort cmp depth lo hi arr)
  | 0, lo, hi, arr, within => by
    rw [qsort]
    split_ifs with short
    · exact ensures_pure ⟨.refl lo hi arr, sorted_of_le short⟩
    · exact heapSort_ensures consistent transitive reflexive (by omega) within
  | depth + 1, lo, hi, arr, within => by
    rw [qsort]
    split_ifs with short
    · exact ensures_pure ⟨.refl lo hi arr, sorted_of_le short⟩
    · exact qsortStep_ensures consistent transitive reflexive (by omega) within
        fun lo' hi' ys within' => qsort_ensures transitive reflexive depth lo' hi' ys within'

/-- Sorting with answers that agree with a total order. -/
theorem sortBy_ensures (transitive : ∀ x y z, le x y → le y z → le x z) (reflexive : ∀ x, le x x)
    (xs : List α) : Ensures (fun out => out.Perm xs ∧ out.Pairwise le) (sortBy cmp xs) := by
  refine (qsort_ensures consistent transitive reflexive _ 0 xs.length xs
    (Nat.le_refl _)).imp fun out sorted => ⟨sorted.1.perm, ?_⟩
  refine Sorted.pairwise ?_
  rw [sorted.1.length_eq]
  exact sorted.2

end Ordered

/-- Sorting an array never leaves it and returns its entries in some order, whatever the comparator
does; with answers that agree with a total order, in that order. -/
theorem sortBy_sorts (cmp : α → α → m Int) (xs : List α) :
    Ensures (fun out => out.Perm xs) (sortBy cmp xs) ∧
    ∀ le : α → α → Prop, (∀ x, le x x) → (∀ x y z, le x y → le y z → le x z) →
      Consistent le cmp → Ensures (fun out => out.Perm xs ∧ out.Pairwise le) (sortBy cmp xs) := by
  refine ⟨?_, fun le reflexive transitive consistent =>
    sortBy_ensures consistent transitive reflexive xs⟩
  have anything : Consistent (fun _ _ => True) cmp := fun x y => by
    obtain ⟨proved, same⟩ := yields_true (cmp x y)
    refine ⟨(fun order => ⟨order.val, fun _ => trivial, fun _ => trivial⟩) <$> proved, ?_⟩
    rw [← comp_map, ← same]
    rfl
  exact (sortBy_ensures anything (fun _ _ _ _ _ => trivial) (fun _ => trivial) xs).imp
    fun _ both => both.1

/-- Three integers, compared by their difference. -/
theorem sortBy_sorts_three :
    Ensures (fun out => out.Perm [3, 1, 2] ∧ out.Pairwise (· ≤ ·))
      (sortBy (m := Id) (fun x y : Int => pure (x - y)) [3, 1, 2]) :=
  (sortBy_sorts (m := Id) (fun x y : Int => pure (x - y)) [3, 1, 2]).2 _ Int.le_refl
    (fun _ _ _ => Int.le_trans) fun x y => ⟨pure ⟨x - y, by omega, by omega⟩, rfl⟩

end Fai.Arrays
