import FaiVerif.Collections.ArraySort

/-!
# Sorting lists

The stable merge sort of `std/collections/List.fai`. A short list is cut into runs of one entry, and
adjacent runs are merged in passes until one is left. A long list is copied into two buffers that
are merged into each other, run by run. The comparator is run in an arbitrary monad.
-/

namespace Fai.Lists

open Arrays

variable {m : Type → Type} [Monad m] {α : Type} (cmp : α → α → m Int)

/-- `mergeBy`: two ascending lists merged, the entry of the first one first when they tie. -/
def mergeBy : List α → List α → m (List α)
  | [], ys => pure ys
  | x :: xrest, [] => pure (x :: xrest)
  | x :: xrest, y :: yrest => do
    let order ← cmp x y
    if order ≤ 0 then do
      let rest ← mergeBy xrest (y :: yrest)
      pure (x :: rest)
    else do
      let rest ← mergeBy (x :: xrest) yrest
      pure (y :: rest)
termination_by xs ys => xs.length + ys.length

/-- `singletons`: every entry as a run of its own. -/
def singletons : List α → List (List α)
  | [] => []
  | x :: rest => [x] :: singletons rest

/-- `mergePairsBy`: adjacent pairs of runs merged, which halves their number. -/
def mergePairsBy : (runs : List (List α)) →
    m {merged : List (List α) // merged.length = (runs.length + 1) / 2}
  | [] => pure ⟨[], by simp⟩
  | [r] => pure ⟨[r], by simp⟩
  | a :: b :: rest => do
    let merged ← mergeBy cmp a b
    let others ← mergePairsBy rest
    pure ⟨merged :: others.val, by
      simp only [List.length_cons, others.property]
      omega⟩

/-- `mergeAllBy`: passes until one run is left. -/
def mergeAllBy : List (List α) → m (List α)
  | [] => pure []
  | [r] => pure r
  | a :: b :: rest => do
    let merged ← mergePairsBy cmp (a :: b :: rest)
    mergeAllBy merged.val
termination_by runs => runs.length
decreasing_by
  have fewer := merged.property
  simp only [List.length_cons] at fewer ⊢
  omega

/-- `sortBufferFrom`: a list copied into a buffer. -/
def sortBufferFrom : List α → List α → List α
  | [], buffer => buffer
  | x :: rest, buffer => sortBufferFrom rest (buffer ++ [x])

/-- `copySortRun`: what is left of a run, copied. -/
def copySortRun (source : List α) (i stop out : Nat) (destination : List α) :
    OptionT m (List α) :=
  if i ≥ stop then pure destination
  else do
    let x ← arrayGet source i
    let destination ← arraySet destination out x
    copySortRun source (i + 1) stop (out + 1) destination
termination_by stop - i

/-- `mergeSortHeadsBy`: merges two runs whose next entries are at hand. -/
def mergeSortHeadsBy (middle high left right : Nat) (x y : α) (source destination : List α) :
    OptionT m (List α) := do
  let order ← OptionT.lift (cmp x y)
  if order ≤ 0 then
    let changed ← arraySet destination (left + right - middle) x
    let next := left + 1
    if next ≥ middle then copySortRun source right high (next + right - middle) changed
    else
      let x ← arrayGet source next
      mergeSortHeadsBy middle high next right x y source changed
  else
    let changed ← arraySet destination (left + right - middle) y
    let next := right + 1
    if next ≥ high then copySortRun source left middle (left + next - middle) changed
    else
      let y ← arrayGet source next
      mergeSortHeadsBy middle high left next x y source changed
termination_by (middle - left) + (high - right)

/-- `mergeSortRunBy`: merges two runs of the source into the destination. -/
def mergeSortRunBy (middle high left right : Nat) (source destination : List α) :
    OptionT m (List α) :=
  if left ≥ middle then copySortRun source right high (left + right - middle) destination
  else if right ≥ high then copySortRun source left middle (left + right - middle) destination
  else do
    let x ← arrayGet source left
    let y ← arrayGet source right
    mergeSortHeadsBy cmp middle high left right x y source destination

/-- `mergeSortPassBy`: merges adjacent runs of a width from `low` on. -/
def mergeSortPassBy (width n : Nat) (positive : 0 < width) (low : Nat)
    (source destination : List α) : OptionT m (List α) :=
  if low ≥ n then pure destination
  else do
    let middle := if low + width < n then low + width else n
    let high := if middle + width < n then middle + width else n
    let merged ← mergeSortRunBy cmp middle high low middle source destination
    mergeSortPassBy width n positive high source merged
termination_by n - low
decreasing_by split_ifs <;> omega

/-- `mergeSortBuffersBy`: passes from one buffer to the other, over runs twice as wide each time. -/
def mergeSortBuffersBy (width n : Nat) (positive : 0 < width) (source destination : List α) :
    OptionT m (List α) :=
  if wide : width ≥ n then pure source
  else do
    let merged ← mergeSortPassBy cmp width n positive 0 source destination
    let nextWidth := if width ≥ n - width then n else width * 2
    mergeSortBuffersBy nextWidth n (by grind) merged source
termination_by n - width
decreasing_by split_ifs <;> omega

/-- `sortedBufferToList`: the entries below a place, in front of a list. -/
def sortedBufferToList (source : List α) : Nat → List α → OptionT m (List α)
  | 0, acc => pure acc
  | i + 1, acc => do
    let x ← arrayGet source i
    sortedBufferToList source i (x :: acc)

/-- The path of `sortBy` for long lists. -/
def sortBuffered (xs : List α) : OptionT m (List α) := do
  let n := xs.length
  let source := sortBufferFrom xs []
  let sorted ← mergeSortBuffersBy cmp 1 n (by decide) source source
  sortedBufferToList sorted n []

/-- `sortBy`. -/
def sortBy (xs : List α) : OptionT m (List α) :=
  if xs.length ≤ 32 then OptionT.lift (mergeAllBy cmp (singletons xs)) else sortBuffered cmp xs

end Fai.Lists
