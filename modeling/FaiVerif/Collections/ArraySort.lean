import FaiVerif.Lib.Outcomes
import FaiVerif.Lib.Segments

/-!
# Sorting arrays

The introsort of `std/collections/Array.fai`: a three-way quicksort that skips the band of entries
equal to its pivot, with a heapsort when it has partitioned too often. The comparator is run in an
arbitrary monad, since it may have effects, and reading or writing outside an array aborts. Indices
are far below 64 bits, so they are natural numbers.
-/

namespace Fai.Arrays

variable {m : Type → Type} [Monad m] {α : Type}

/-- `Prim.arrayGet`: the entry at an index; aborts outside the array. -/
def arrayGet (xs : List α) (i : Nat) : OptionT m α := OptionT.mk (pure xs[i]?)

/-- `Prim.arraySet`: replaces the entry at an index; aborts outside the array. -/
def arraySet (xs : List α) (i : Nat) (x : α) : OptionT m (List α) :=
  if i < xs.length then pure (xs.set i x) else failure

/-- `swap`. -/
def swap (i j : Nat) (xs : List α) : OptionT m (List α) :=
  if i = j then pure xs
  else do
    let vi ← arrayGet xs i
    let vj ← arrayGet xs j
    let ys ← arraySet xs i vj
    arraySet ys j vi

section Comparing

variable (cmp : α → α → m Int)

/-- Compares two entries. -/
def compareAt (arr : List α) (i j : Nat) : OptionT m Int := do
  let x ← arrayGet arr i
  let y ← arrayGet arr j
  OptionT.lift (cmp x y)

/-- `depthLimit`: two partitions per binary logarithm. -/
def depthLimit (n : Nat) : Nat := if n ≤ 1 then 0 else 2 + depthLimit (n / 2)
termination_by n
decreasing_by omega

/-- A step of `pivotToEnd`: swaps two entries that are out of order. -/
def orderPair (i j : Nat) (arr : List α) : OptionT m (List α) := do
  let order ← compareAt cmp arr i j
  if order > 0 then swap i j arr else pure arr

/-- `pivotToEnd`: the median of the first, middle and last entries, put last. -/
def pivotToEnd (lo hi : Nat) (arr : List α) : OptionT m (List α) := do
  let mid := lo + (hi - lo) / 2
  let hi1 := hi - 1
  let a1 ← orderPair cmp lo mid arr
  let a2 ← orderPair cmp mid hi1 a1
  let a3 ← orderPair cmp lo mid a2
  swap mid hi1 a3

/-- `partitionRange`: entries before `less` are smaller than the pivot at `hi - 1`, those before `j`
equal, those from `greater` on larger. -/
def partitionRange (hi j less greater : Nat) (arr : List α) : OptionT m (Nat × Nat × List α) := do
  let hi1 := hi - 1
  if j ≥ greater then
    let last ← swap greater hi1 arr
    pure (less, greater + 1, last)
  else
    let order ← compareAt cmp arr j hi1
    if order < 0 then
      let arr ← swap less j arr
      partitionRange hi (j + 1) (less + 1) greater arr
    else if order > 0 then
      let arr ← swap j (greater - 1) arr
      partitionRange hi j less (greater - 1) arr
    else partitionRange hi (j + 1) less greater arr
termination_by greater - j

/-- The test of `siftDown` for its right child: there is one, and the left one comes before it. -/
def rightIsLarger (base count left : Nat) (arr : List α) : OptionT m Bool :=
  if left + 1 < count then do
    let order ← compareAt cmp arr (base + left) (base + (left + 1))
    pure (decide (order < 0))
  else pure false

/-- `siftDown`: moves the entry at a root down to its place in the heap of `count` entries. -/
def siftDown (base count root : Nat) (arr : List α) : OptionT m (List α) := do
  let left := root * 2 + 1
  if left ≥ count then pure arr
  else
    let right := left + 1
    let larger ← rightIsLarger cmp base count left arr
    let child := if larger then right else left
    let order ← compareAt cmp arr (base + root) (base + child)
    if order < 0 then
      let arr ← swap (base + root) (base + child) arr
      siftDown base count child arr
    else pure arr
termination_by count - root
decreasing_by
  split <;> omega

/-- `heapBuild`: sifts down the roots below `roots`, the last one first. -/
def heapBuild (base count : Nat) : Nat → List α → OptionT m (List α)
  | 0, arr => pure arr
  | root + 1, arr => do
    let arr ← siftDown cmp base count root arr
    heapBuild base count root arr

/-- `heapDrain`: puts the largest entry of the heap behind it, one after another. -/
def heapDrain (base : Nat) : Nat → List α → OptionT m (List α)
  | 0, arr => pure arr
  | last + 1, arr => do
    let arr ← swap base (base + (last + 1)) arr
    let arr ← siftDown cmp base (last + 1) 0 arr
    heapDrain base last arr

/-- `heapSort`. -/
def heapSort (lo hi : Nat) (arr : List α) : OptionT m (List α) := do
  let count := hi - lo
  let arr ← heapBuild cmp lo count (count / 2) arr
  heapDrain cmp lo (count - 1) arr

/-- `qsortSplit`: sorts both sides of the band of equal entries, the smaller one first. -/
def qsortSplit (sort : Nat → Nat → List α → OptionT m (List α)) (lo hi : Nat) :
    Nat × Nat × List α → OptionT m (List α)
  | (equalStart, equalEnd, arr) =>
    if equalStart - lo < hi - equalEnd then do
      let arr ← sort lo equalStart arr
      sort equalEnd hi arr
    else do
      let arr ← sort equalEnd hi arr
      sort lo equalStart arr

/-- `qsort`. -/
def qsort : Nat → Nat → Nat → List α → OptionT m (List α)
  | 0, lo, hi, arr => if hi - lo ≤ 1 then pure arr else heapSort cmp lo hi arr
  | depth + 1, lo, hi, arr =>
    if hi - lo ≤ 1 then pure arr
    else do
      let arr ← pivotToEnd cmp lo hi arr
      let split ← partitionRange cmp hi lo lo (hi - 1) arr
      qsortSplit (qsort depth) lo hi split

/-- `sortBy`. -/
def sortBy (xs : List α) : OptionT m (List α) :=
  let n := xs.length
  qsort cmp (depthLimit n) 0 n xs

end Comparing

end Fai.Arrays
