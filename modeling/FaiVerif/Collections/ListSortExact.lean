import FaiVerif.Collections.ListSort
import FaiVerif.Collections.ArraySortExact

/-!
# List sorting is stable, and its two paths agree

The buffers of the path for long lists hold, end to end, the runs that the path for short lists has
in a list. A pass over the one is a pass over the other, comparison by comparison, so the two paths
return the same list with the same effects. Merging keeps entries that tie in their order.
-/

namespace Fai.Lists

open Arrays Outcomes Slots

variable {m : Type → Type} [Monad m] [LawfulMonad m] {α : Type}

section Buffers

/-- A list with a piece of it replaced. -/
def splice (out : Nat) (piece destination : List α) : List α :=
  destination.take out ++ piece ++ destination.drop (out + piece.length)

/-- Replacing nothing. -/
theorem splice_nil (out : Nat) (destination : List α) :
    splice out [] destination = destination := by
  rw [splice, List.append_nil, List.length_nil, Nat.add_zero, List.take_append_drop]

/-- Writing an entry in front of a piece. -/
theorem splice_set {out : Nat} {x : α} {piece destination : List α}
    (inside : out < destination.length) :
    splice (out + 1) piece (destination.set out x) = splice out (x :: piece) destination := by
  have front : (destination.set out x).take (out + 1) = destination.take out ++ [x] := by
    rw [List.take_succ_eq_append_getElem (by rwa [List.length_set]),
      List.take_set_of_le (Nat.le_refl _), List.getElem_set_self]
  rw [splice, splice, front, List.drop_set_of_lt (by omega), List.length_cons]
  simp [Nat.add_assoc, Nat.add_comm 1]

/-- Replacing a piece keeps the length. -/
theorem length_splice {out : Nat} {piece destination : List α}
    (inside : out + piece.length ≤ destination.length) :
    (splice out piece destination).length = destination.length := by
  simp only [splice, List.length_append, List.length_take, List.length_drop]
  omega

omit [LawfulMonad m] in
/-- Reading inside a buffer. -/
theorem arrayGet_eq {xs : List α} {i : Nat} (inside : i < xs.length) :
    (arrayGet xs i : OptionT m α) = pure xs[i] := by
  rw [arrayGet, List.getElem?_eq_getElem inside]
  rfl

omit [LawfulMonad m] in
/-- Writing inside a buffer. -/
theorem arraySet_eq {xs : List α} {i : Nat} (inside : i < xs.length) (x : α) :
    (arraySet xs i x : OptionT m (List α)) = pure (xs.set i x) := if_pos inside

/-- The entries of a buffer between two places. -/
def between (source : List α) (lo hi : Nat) : List α := (source.drop lo).take (hi - lo)

/-- The first entry between two places. -/
theorem between_cons {source : List α} {lo hi : Nat} (less : lo < hi)
    (inside : lo < source.length) :
    between source lo hi = source[lo] :: between source (lo + 1) hi := by
  rw [between, between, List.drop_eq_getElem_cons inside,
    show hi - lo = (hi - (lo + 1)) + 1 by omega, List.take_succ_cons]

/-- Nothing is between a place and itself. -/
theorem between_nil {source : List α} {lo hi : Nat} (less : hi ≤ lo) :
    between source lo hi = [] := by
  rw [between, Nat.sub_eq_zero_of_le less, List.take_zero]

/-- As many entries as places. -/
theorem length_between {source : List α} {lo hi : Nat} (inside : hi ≤ source.length) :
    (between source lo hi).length = hi - lo := by
  rw [between, List.length_take, List.length_drop]
  omega

/-- Copying what is left of a run replaces a piece. -/
theorem copySortRun_eq {source : List α} {stop : Nat} (inside : stop ≤ source.length) :
    ∀ (i out : Nat) (destination : List α), out + (stop - i) ≤ destination.length →
      (copySortRun source i stop out destination : OptionT m (List α)) =
        pure (splice out (between source i stop) destination)
  | i, out, destination, room => by
    rw [copySortRun]
    split_ifs with done
    · rw [between_nil done, splice_nil]
    · have first : between source i stop = source[i] :: between source (i + 1) stop :=
        between_cons (by omega) (by omega)
      rw [arrayGet_eq (by omega), pure_bind, arraySet_eq (by omega), pure_bind,
        copySortRun_eq inside (i + 1) (out + 1) _ (by rw [List.length_set]; omega),
        splice_set (by omega), first]
termination_by i => stop - i

/-- A piece of a buffer that is merged from two runs. -/
def placed (merging : m (List α)) (out : Nat) (destination : List α) : OptionT m (List α) := do
  let merged ← OptionT.lift merging
  pure (splice out merged destination)

/-- An entry in front of what is merged is written first. -/
theorem placed_cons {merging : m (List α)} {out : Nat} {destination : List α} (x : α)
    (inside : out < destination.length) :
    placed (merging >>= fun rest => pure (x :: rest)) out destination =
      placed merging (out + 1) (destination.set out x) := by
  rw [placed, placed, OptionT.lift_bind, bind_assoc]
  refine bind_congr fun merged => ?_
  rw [OptionT.lift_pure, pure_bind, splice_set inside]

/-- What is already merged is written at once. -/
theorem placed_pure {piece : List α} {out : Nat} {destination : List α} :
    placed (pure piece : m (List α)) out destination = pure (splice out piece destination) := by
  rw [placed, OptionT.lift_pure, pure_bind]

variable (cmp : α → α → m Int)

omit [LawfulMonad m] in
/-- Merging nothing with a run. -/
theorem mergeBy_nil (ys : List α) : mergeBy cmp [] ys = pure ys := by rw [mergeBy]

omit [LawfulMonad m] in
/-- Merging a run with nothing. -/
theorem mergeBy_nil_right (xs : List α) : mergeBy cmp xs [] = pure xs := by
  cases xs <;> rw [mergeBy]

/-- Merging two runs whose next entries are at hand merges what is between their places. -/
theorem mergeSortHeadsBy_eq {middle high : Nat} {source : List α} (inside : high ≤ source.length) :
    ∀ (left right : Nat) (x y : α) (destination : List α), left < middle → middle ≤ right →
      right < high → high ≤ destination.length → source[left]? = some x → source[right]? = some y →
      mergeSortHeadsBy cmp middle high left right x y source destination =
        placed (mergeBy cmp (between source left middle) (between source right high))
          (left + right - middle) destination
  | left, right, x, y, destination, low, low', bound, room, first, second => by
    obtain ⟨within, rfl⟩ := List.getElem?_eq_some_iff.mp first
    obtain ⟨within', rfl⟩ := List.getElem?_eq_some_iff.mp second
    have front := between_cons low within
    have back := between_cons bound within'
    rw [mergeSortHeadsBy, front, back, mergeBy, placed, OptionT.lift_bind, bind_assoc]
    refine bind_congr fun order => ?_
    by_cases before : order ≤ 0
    · rw [if_pos before, if_pos before, arraySet_eq (by omega), pure_bind, ← placed,
        placed_cons _ (by omega), ← back]
      by_cases last : left + 1 ≥ middle
      · rw [if_pos last, between_nil last, mergeBy_nil, placed_pure,
          copySortRun_eq inside _ _ _ (by rw [List.length_set]; omega)]
        congr 2
        omega
      · rw [if_neg last, arrayGet_eq (by omega), pure_bind,
          mergeSortHeadsBy_eq inside (left + 1) right _ _ _ (by omega) low' bound
            (by rwa [List.length_set]) (List.getElem?_eq_getElem (by omega)) second]
        congr 1
        omega
    · rw [if_neg before, if_neg before, arraySet_eq (by omega), pure_bind, ← placed,
        placed_cons _ (by omega), ← front]
      by_cases last : right + 1 ≥ high
      · rw [if_pos last, between_nil last, mergeBy_nil_right, placed_pure,
          copySortRun_eq (by omega) _ _ _ (by rw [List.length_set]; omega)]
        congr 2
        omega
      · rw [if_neg last, arrayGet_eq (by omega), pure_bind,
          mergeSortHeadsBy_eq inside left (right + 1) _ _ _ low (by omega) (by omega)
            (by rwa [List.length_set]) first (List.getElem?_eq_getElem (by omega))]
        congr 1
        omega
termination_by left right => (middle - left) + (high - right)

/-- Merging two runs merges what is between their places. -/
theorem mergeSortRunBy_eq {middle high left right : Nat} {source destination : List α}
    (low : left ≤ middle) (low' : middle ≤ right) (bound : right ≤ high)
    (inside : high ≤ source.length) (room : high ≤ destination.length) :
    mergeSortRunBy cmp middle high left right source destination =
      placed (mergeBy cmp (between source left middle) (between source right high))
        (left + right - middle) destination := by
  rw [mergeSortRunBy]
  split_ifs with first second
  · rw [between_nil first, mergeBy_nil, placed_pure, copySortRun_eq inside _ _ _ (by omega)]
  · rw [between_nil second, mergeBy_nil_right, placed_pure,
      copySortRun_eq (by omega) _ _ _ (by omega)]
  · rw [arrayGet_eq (by omega), pure_bind, arrayGet_eq (by omega), pure_bind,
      mergeSortHeadsBy_eq cmp inside _ _ _ _ _ (by omega) low' (by omega) room
        (List.getElem?_eq_getElem (by omega)) (List.getElem?_eq_getElem (by omega))]

end Buffers

section Runs

/-- Consecutive runs of a width; the last one may be shorter. -/
def chunks (width : Nat) (positive : 0 < width) : List α → List (List α)
  | [] => []
  | x :: xs => (x :: xs).take width :: chunks width positive ((x :: xs).drop width)
termination_by xs => xs.length
decreasing_by
  rw [List.length_drop, List.length_cons]
  omega

/-- Runs of a width: none is empty, and none but the last is shorter. -/
def Chunked (width : Nat) : List (List α) → Prop
  | [] => True
  | run :: rest => 0 < run.length ∧ run.length ≤ width ∧ (rest ≠ [] → run.length = width) ∧
    Chunked width rest

variable {width : Nat} (positive : 0 < width)

/-- The runs of a list that is not empty. -/
theorem chunks_of_ne_nil {xs : List α} (some : xs ≠ []) :
    chunks width positive xs = xs.take width :: chunks width positive (xs.drop width) := by
  cases xs with
  | nil => exact absurd rfl some
  | cons x xs => rw [chunks]

/-- A list shorter than a width is one run. -/
theorem chunks_short {xs : List α} (some : xs ≠ []) (short : xs.length ≤ width) :
    chunks width positive xs = [xs] := by
  rw [chunks_of_ne_nil positive some, List.take_of_length_le short, List.drop_of_length_le short,
    chunks]

/-- Consecutive runs are runs. -/
theorem chunked_chunks (xs : List α) : Chunked width (chunks width positive xs) := by
  induction h : xs.length using Nat.strongRecOn generalizing xs with
  | ind length hypothesis =>
    cases xs with
    | nil =>
      rw [chunks]
      trivial
    | cons x xs =>
      rw [chunks]
      refine ⟨?_, ?_, fun some => ?_, hypothesis _ ?_ _ rfl⟩
      · rw [List.length_take, List.length_cons]
        omega
      · rw [List.length_take]
        omega
      · have more : (x :: xs).drop width ≠ [] := by
          intro none
          rw [none, chunks] at some
          exact some rfl
        rw [ne_eq, List.drop_eq_nil_iff, not_le] at more
        rw [List.length_take]
        omega
      · rw [← h, List.length_drop, List.length_cons]
        omega

/-- Consecutive runs end to end are the list. -/
theorem flatten_chunks (xs : List α) : (chunks width positive xs).flatten = xs := by
  induction h : xs.length using Nat.strongRecOn generalizing xs with
  | ind length hypothesis =>
    cases xs with
    | nil => rw [chunks, List.flatten_nil]
    | cons x xs =>
      have shorter : ((x :: xs).drop width).length < length := by
        rw [← h, List.length_drop, List.length_cons]
        omega
      rw [chunks, List.flatten_cons, hypothesis _ shorter _ rfl, List.take_append_drop]

/-- Runs end to end have themselves as their runs. -/
theorem chunks_flatten {runs : List (List α)} (chunked : Chunked width runs) :
    chunks width positive runs.flatten = runs := by
  induction runs with
  | nil => rw [List.flatten_nil, chunks]
  | cons run rest hypothesis =>
    obtain ⟨some, bound, full, others⟩ := chunked
    have nonempty : (run :: rest).flatten ≠ [] := by
      rw [List.flatten_cons]
      intro none
      rw [(List.append_eq_nil_iff.mp none).1] at some
      exact absurd some (Nat.lt_irrefl 0)
    rw [chunks_of_ne_nil positive nonempty, List.flatten_cons]
    by_cases last : rest = []
    · subst last
      rw [List.flatten_nil, List.append_nil, List.take_of_length_le bound,
        List.drop_of_length_le bound, chunks]
    · have front : (run ++ rest.flatten).take width = run := by
        rw [← full last, List.take_left]
      have back : (run ++ rest.flatten).drop width = rest.flatten := by
        rw [← full last, List.drop_left]
      rw [front, back, hypothesis others]

/-- Runs that together are no longer than a smaller width are runs of it. -/
theorem Chunked.of_flatten_le {wide : Nat} {runs : List (List α)} (chunked : Chunked wide runs)
    (less : runs.flatten.length ≤ width) (bound : width ≤ wide) : Chunked width runs := by
  cases runs with
  | nil => trivial
  | cons run rest =>
    obtain ⟨some, _, full, others⟩ := chunked
    rw [List.flatten_cons, List.length_append] at less
    cases rest with
    | nil => exact ⟨some, by omega, fun more => absurd rfl more, trivial⟩
    | cons next rest =>
      have whole := full (List.cons_ne_nil next rest)
      obtain ⟨some', _⟩ := others
      rw [List.flatten_cons, List.length_append] at less
      omega

/-- Runs of one entry. -/
theorem chunks_one (xs : List α) : chunks 1 (by decide) xs = singletons xs := by
  induction xs with
  | nil => rw [chunks, singletons]
  | cons x xs hypothesis => rw [chunks, singletons, List.drop_one, List.tail_cons, hypothesis]; rfl

end Runs

section Passes

variable (cmp : α → α → m Int)

/-- Merging keeps every entry. -/
theorem mergeBy_yields : ∀ xs ys : List α,
    Yields (fun out => out.length = xs.length + ys.length) (mergeBy cmp xs ys)
  | [], ys => by
    rw [mergeBy]
    exact yields_pure (by rw [List.length_nil, Nat.zero_add])
  | x :: xrest, [] => by
    rw [mergeBy]
    exact yields_pure rfl
  | x :: xrest, y :: yrest => by
    rw [mergeBy]
    refine yields_bind (yields_true _) fun order _ => ?_
    split_ifs
    · refine yields_bind (mergeBy_yields xrest (y :: yrest)) fun rest length => yields_pure ?_
      simp only [List.length_cons, length]
      omega
    · refine yields_bind (mergeBy_yields (x :: xrest) yrest) fun rest length => yields_pure ?_
      simp only [List.length_cons, length]
      omega
termination_by xs ys => xs.length + ys.length

/-- Merging pairs of runs makes runs of twice the width. -/
theorem mergePairsBy_yields {width : Nat} : ∀ runs : List (List α), Chunked width runs →
    Yields (fun merged => Chunked (width * 2) merged.val ∧
      merged.val.flatten.length = runs.flatten.length) (mergePairsBy cmp runs)
  | [], _ => yields_pure ⟨trivial, rfl⟩
  | [r], chunked => yields_pure ⟨⟨chunked.1, by have := chunked.2.1; omega,
      fun more => absurd rfl more, trivial⟩, rfl⟩
  | a :: b :: rest, chunked => by
    obtain ⟨some, bound, full, some', bound', full', others⟩ := chunked
    have whole := full (List.cons_ne_nil b rest)
    refine yields_bind (mergeBy_yields cmp a b) fun merged length => ?_
    refine yields_bind (mergePairsBy_yields rest others) fun after chunked => yields_pure ?_
    refine ⟨⟨by omega, by omega, fun more => ?_, chunked.1⟩, ?_⟩
    · have nonempty : rest ≠ [] := by
        rintro rfl
        have none : after.val.length = 0 := after.property.trans (by simp)
        exact more (List.length_eq_zero_iff.mp none)
      have whole' := full' nonempty
      omega
    · simp only [List.flatten_cons, List.length_append, chunked.2, length]
      omega

/-- A pass over a buffer merges the pairs of its runs. -/
theorem mergeSortPassBy_eq {width n : Nat} (positive : 0 < width) {source : List α}
    (length : source.length = n) :
    ∀ (low : Nat) (destination : List α), low ≤ n → destination.length = n →
      mergeSortPassBy cmp width n positive low source destination =
        OptionT.lift (mergePairsBy cmp (chunks width positive (source.drop low))) >>= fun merged =>
          pure (destination.take low ++ merged.val.flatten)
  | low, destination, inside, room => by
    rw [mergeSortPassBy]
    by_cases done : low ≥ n
    · rw [if_pos done, List.drop_of_length_le (by omega), chunks, mergePairsBy, OptionT.lift_pure,
        pure_bind, List.flatten_nil, List.append_nil, List.take_of_length_le (by omega)]
    rw [if_neg done]
    have some : source.drop low ≠ [] := by
      rw [ne_eq, List.drop_eq_nil_iff]
      omega
    by_cases first : low + width < n
    · simp only [if_pos first]
      obtain ⟨high, isHigh⟩ : ∃ high, (if low + width + width < n then low + width + width else n) =
        high := ⟨_, rfl⟩
      have bounds : low + width < high ∧ high ≤ n ∧ (high = n ∨ high = low + width + width) := by
        split_ifs at isHigh <;> omega
      have more : (source.drop low).drop width ≠ [] := by
        rw [List.drop_drop, ne_eq, List.drop_eq_nil_iff]
        omega
      have front : (source.drop low).take width = between source low (low + width) := by
        rw [between, Nat.add_sub_cancel_left]
      have middle : ((source.drop low).drop width).take width =
          between source (low + width) high := by
        rw [between, List.drop_drop]
        rcases bounds.2.2 with whole | part
        · rw [whole, List.take_of_length_le
            (by rw [List.length_drop]; split_ifs at isHigh <;> omega),
            List.take_of_length_le (by rw [List.length_drop]; omega)]
        · rw [part, Nat.add_sub_cancel_left]
      have back : chunks width positive (((source.drop low).drop width).drop width) =
          chunks width positive (source.drop high) := by
        rw [List.drop_drop, List.drop_drop]
        rcases bounds.2.2 with whole | part
        · rw [List.drop_of_length_le (by split_ifs at isHigh <;> omega),
            List.drop_of_length_le (by omega)]
        · rw [part, Nat.add_assoc]
      rw [isHigh, chunks_of_ne_nil positive some, chunks_of_ne_nil positive more, front,
        middle, back, mergePairsBy,
        mergeSortRunBy_eq cmp (by omega) (Nat.le_refl _) (by omega) (by omega) (by omega), placed,
        OptionT.lift_bind, bind_assoc, bind_assoc]
      refine lift_bind_congr (mergeBy_yields cmp _ _) fun merged size => ?_
      rw [length_between (by omega), length_between (by omega)] at size
      rw [pure_bind, Nat.add_sub_cancel, mergeSortPassBy_eq positive length high _ bounds.2.1
        (by rw [length_splice (by omega), room]), OptionT.lift_bind, bind_assoc]
      refine bind_congr fun others => ?_
      rw [OptionT.lift_pure, pure_bind, List.flatten_cons, ← List.append_assoc]
      congr 2
      rw [splice, List.take_append_of_le_length (by
        simp only [List.length_append, List.length_take]
        omega), List.take_of_length_le (by
        simp only [List.length_append, List.length_take]
        omega)]
    · simp only [if_neg first]
      have short : (source.drop low).length ≤ width := by
        rw [List.length_drop]
        omega
      have whole : source.drop low = between source low n := by
        rw [between, List.take_of_length_le (by rw [List.length_drop]; omega)]
      rw [if_neg (by omega), chunks_short positive some short, mergePairsBy, OptionT.lift_pure,
        pure_bind, List.flatten_singleton, mergeSortRunBy_eq cmp (by omega) (Nat.le_refl _)
          (Nat.le_refl _) (by omega) (by omega), between_nil (Nat.le_refl _), mergeBy_nil_right,
        placed_pure, pure_bind, mergeSortPassBy, if_pos (Nat.le_refl n), whole, splice,
        List.drop_of_length_le (by rw [length_between (by omega)]; omega), List.append_nil,
        Nat.add_sub_cancel]
termination_by low => n - low
decreasing_by omega

/-- Passes from one buffer to the other merge all runs. -/
theorem mergeSortBuffersBy_eq {n : Nat} : ∀ (width : Nat) (positive : 0 < width)
    (source destination : List α), source.length = n → destination.length = n →
      mergeSortBuffersBy cmp width n positive source destination =
        OptionT.lift (mergeAllBy cmp (chunks width positive source))
  | width, positive, source, destination, length, room => by
    rw [mergeSortBuffersBy]
    by_cases wide : width ≥ n
    · rw [dif_pos wide]
      cases source with
      | nil => rw [chunks, mergeAllBy, OptionT.lift_pure]
      | cons x xs =>
        rw [chunks_short positive (List.cons_ne_nil x xs) (by omega), mergeAllBy, OptionT.lift_pure]
    · rw [dif_neg wide]
      have some : source ≠ [] := by
        rintro rfl
        rw [List.length_nil] at length
        omega
      have more : source.drop width ≠ [] := by
        rw [ne_eq, List.drop_eq_nil_iff]
        omega
      have runs := chunked_chunks positive source
      have all : (chunks width positive source).flatten.length = n := by
        rw [flatten_chunks, length]
      rw [mergeSortPassBy_eq cmp positive length 0 destination (Nat.zero_le n) room, List.drop_zero]
      rw [chunks_of_ne_nil positive some, chunks_of_ne_nil positive more] at runs all ⊢
      rw [mergeAllBy, OptionT.lift_bind, bind_assoc]
      refine lift_bind_congr (mergePairsBy_yields cmp _ runs) fun merged chunked => ?_
      rw [pure_bind, List.take_zero, List.nil_append]
      have next (nextWidth : Nat) (positive' : 0 < nextWidth) (less : n - nextWidth < n - width)
          (fits : Chunked nextWidth merged.val) :
          mergeSortBuffersBy cmp nextWidth n positive' merged.val.flatten source =
            OptionT.lift (mergeAllBy cmp merged.val) := by
        rw [mergeSortBuffersBy_eq nextWidth positive' _ _ (chunked.2.trans all) length,
          chunks_flatten positive' fits]
      simp only []
      split_ifs with last
      · exact next n (by omega) (by omega)
          (chunked.1.of_flatten_le (by rw [chunked.2, all]) (by omega))
      · exact next (width * 2) (by omega) (by omega) chunked.1
termination_by width => n - width

/-- Merging all runs keeps every entry. -/
theorem mergeAllBy_yields {width : Nat} : ∀ runs : List (List α), Chunked width runs →
    Yields (fun out => out.length = runs.flatten.length) (mergeAllBy cmp runs)
  | [], _ => by
    rw [mergeAllBy]
    exact yields_pure rfl
  | [r], _ => by
    rw [mergeAllBy]
    exact yields_pure (by rw [List.flatten_singleton])
  | a :: b :: rest, chunked => by
    rw [mergeAllBy]
    refine yields_bind (mergePairsBy_yields cmp _ chunked) fun merged fits => ?_
    exact yields_imp (mergeAllBy_yields merged.val fits.1) fun out length => length.trans fits.2
termination_by runs => runs.length
decreasing_by
  have fewer := merged.property
  simp only [List.length_cons] at fewer ⊢
  omega

omit [Monad m] [LawfulMonad m] in
/-- A list copied into a buffer. -/
theorem sortBufferFrom_eq (xs buffer : List α) : sortBufferFrom xs buffer = buffer ++ xs := by
  induction xs generalizing buffer with
  | nil => rw [sortBufferFrom, List.append_nil]
  | cons x rest hypothesis =>
    rw [sortBufferFrom, hypothesis, List.append_assoc, List.singleton_append]

/-- A buffer read back into a list. -/
theorem sortedBufferToList_eq {source : List α} : ∀ (i : Nat) (acc : List α), i ≤ source.length →
    (sortedBufferToList source i acc : OptionT m (List α)) = pure (source.take i ++ acc)
  | 0, acc, _ => rfl
  | i + 1, acc, inside => by
    rw [sortedBufferToList, arrayGet_eq (by omega), pure_bind, sortedBufferToList_eq i _ (by omega),
      List.take_succ_eq_append_getElem (by omega), List.append_assoc, List.singleton_append]

/-- Both paths of sorting make the same comparisons in the same order and return the same list. -/
theorem sortBy_eq (xs : List α) :
    sortBy cmp xs = OptionT.lift (mergeAllBy cmp (singletons xs)) := by
  rw [sortBy]
  split_ifs with short
  · rfl
  · rw [sortBuffered, sortBufferFrom_eq, List.nil_append]
    rw [mergeSortBuffersBy_eq cmp 1 _ xs xs rfl rfl, chunks_one]
    have runs : Chunked 1 (singletons xs) := by
      rw [← chunks_one]
      exact chunked_chunks _ xs
    have whole : (singletons xs).flatten.length = xs.length := by
      rw [← chunks_one, flatten_chunks]
    calc OptionT.lift (mergeAllBy cmp (singletons xs)) >>=
          (fun sorted => sortedBufferToList sorted xs.length [])
        = OptionT.lift (mergeAllBy cmp (singletons xs)) >>= pure := by
          refine lift_bind_congr (mergeAllBy_yields cmp _ runs) fun sorted length => ?_
          rw [sortedBufferToList_eq _ _ (by omega), List.append_nil,
            List.take_of_length_le (by omega)]
      _ = OptionT.lift (mergeAllBy cmp (singletons xs)) := bind_pure _

end Passes

/-- A comparison by difference that is written down. -/
def noted (x y : Int) : StateM (List (Int × Int)) Int := do
  modify ((x, y) :: ·)
  pure (x - y)

/-- Forty integers, which are too many for the linked path. -/
def scattered : List Int := (List.range 40).map fun n => (n * 17 % 40 : Int)

/-- The buffered path notes what the linked path notes, and returns what it returns. -/
theorem sortBy_eq_scattered :
    sortBy noted scattered = sortBuffered noted scattered ∧
      sortBuffered noted scattered = OptionT.lift (mergeAllBy noted (singletons scattered)) := by
  have long : ¬ scattered.length ≤ 32 := by decide
  have buffered : sortBy noted scattered = sortBuffered noted scattered := if_neg long
  have linked := sortBy_eq noted scattered
  exact ⟨buffered, buffered ▸ linked⟩

section Stable

variable (le : α → α → Prop) [DecidableRel le]

/-- The entries of a list that tie with one. -/
def ties (k : α) (xs : List α) : List α := xs.filter fun x => le k x ∧ le x k

/-- A comparator's answers decide an order, in both directions. -/
def Decides (cmp : α → α → m Int) : Prop :=
  ∀ x y, Yields (fun order => (order ≤ 0 ↔ le x y) ∧ (0 ≤ order ↔ le y x)) (cmp x y)

/-- A list is sorted from another one, and entries that tie keep their order. -/
structure SortedFrom (xs out : List α) : Prop where
  /-- The same entries. -/
  perm : out.Perm xs
  /-- In ascending order. -/
  ordered : out.Pairwise le
  /-- Entries that tie in the order they had. -/
  stable : ∀ k, ties le k out = ties le k xs

/-- The ties of lists one after another. -/
theorem ties_append (k : α) (xs ys : List α) :
    ties le k (xs ++ ys) = ties le k xs ++ ties le k ys := List.filter_append xs ys

/-- The ties of a list by its first entry. -/
theorem ties_cons (k x : α) (xs : List α) : ties le k (x :: xs) = ties le k [x] ++ ties le k xs :=
  ties_append le k [x] xs

variable {le} {cmp : α → α → m Int} (transitive : ∀ x y z, le x y → le y z → le x z)

include transitive

omit [Monad m] [LawfulMonad m] in
/-- An entry that comes before a whole ascending list ties with nothing that ties in the list. -/
theorem ties_before {k x y : α} {xs : List α} (ordered : (x :: xs).Pairwise le) (less : ¬ le x y) :
    ties le k [y] ++ ties le k (x :: xs) = ties le k (x :: xs) ++ ties le k [y] := by
  by_cases tied : le k y ∧ le y k
  · have none : ties le k (x :: xs) = [] := by
      rw [ties, List.filter_eq_nil_iff]
      intro z member
      have smallest : x = z ∨ le x z := by
        rcases List.mem_cons.mp member with same | later
        · exact .inl same.symm
        · exact .inr (List.rel_of_pairwise_cons ordered later)
      simp only [decide_eq_true_eq]
      rintro ⟨-, back⟩
      have lower : le z y := transitive _ _ _ back tied.1
      rcases smallest with rfl | smaller
      · exact less lower
      · exact less (transitive _ _ _ smaller lower)
    rw [none, List.nil_append, List.append_nil]
  · have none : ties le k [y] = [] := by
      rw [ties, List.filter_eq_nil_iff]
      simpa using tied
    rw [none, List.nil_append, List.append_nil]

/-- Merging two ascending lists sorts one after the other. -/
theorem mergeBy_sorts (decides : Decides le cmp) : ∀ xs ys : List α, xs.Pairwise le →
    ys.Pairwise le → Yields (SortedFrom le (xs ++ ys)) (mergeBy cmp xs ys)
  | [], ys, _, ordered => by
    rw [mergeBy]
    exact yields_pure ⟨.refl _, ordered, fun k => rfl⟩
  | x :: xrest, [], ordered, _ => by
    rw [mergeBy, List.append_nil]
    exact yields_pure ⟨.refl _, ordered, fun k => rfl⟩
  | x :: xrest, y :: yrest, ascending, ascending' => by
    rw [mergeBy]
    refine yields_bind (decides x y) fun order answer => ?_
    split_ifs with first
    · have before : le x y := answer.1.mp first
      have rest := mergeBy_sorts decides xrest (y :: yrest) ascending.of_cons ascending'
      refine yields_bind rest fun merged sorted => yields_pure ⟨?_, ?_, ?_⟩
      · exact sorted.perm.cons x
      · refine List.pairwise_cons.mpr ⟨fun z member => ?_, sorted.ordered⟩
        rcases List.mem_append.mp (sorted.perm.mem_iff.mp member) with left | right
        · exact List.rel_of_pairwise_cons ascending left
        · rcases List.mem_cons.mp right with rfl | later
          · exact before
          · exact transitive _ _ _ before (List.rel_of_pairwise_cons ascending' later)
      · intro k
        rw [ties_cons, sorted.stable, List.cons_append, ← ties_cons]
    · have before : le y x := answer.2.mp (by omega)
      have less : ¬ le x y := fun smaller => first (answer.1.mpr smaller)
      have rest := mergeBy_sorts decides (x :: xrest) yrest ascending ascending'.of_cons
      refine yields_bind rest fun merged sorted => yields_pure ⟨?_, ?_, ?_⟩
      · exact (sorted.perm.cons y).trans List.perm_middle.symm
      · refine List.pairwise_cons.mpr ⟨fun z member => ?_, sorted.ordered⟩
        rcases List.mem_append.mp (sorted.perm.mem_iff.mp member) with left | right
        · rcases List.mem_cons.mp left with rfl | later
          · exact before
          · exact transitive _ _ _ before (List.rel_of_pairwise_cons ascending later)
        · exact List.rel_of_pairwise_cons ascending' right
      · intro k
        rw [ties_cons, sorted.stable, ties_append, ← List.append_assoc,
          ties_before transitive ascending less, ties_append, List.append_assoc, ← ties_cons]
termination_by xs ys => xs.length + ys.length

/-- A pass over ascending runs returns ascending runs of the sorted entries. -/
theorem mergePairsBy_sorts (decides : Decides le cmp) : ∀ runs : List (List α),
    (∀ run ∈ runs, run.Pairwise le) →
      Yields (fun merged => (∀ run ∈ merged.val, run.Pairwise le) ∧
        merged.val.flatten.Perm runs.flatten ∧
        ∀ k, ties le k merged.val.flatten = ties le k runs.flatten) (mergePairsBy cmp runs)
  | [], _ => yields_pure ⟨fun run member => absurd member List.not_mem_nil, .refl _, fun k => rfl⟩
  | [r], ordered => yields_pure ⟨ordered, .refl _, fun k => rfl⟩
  | a :: b :: rest, ordered => by
    rw [mergePairsBy]
    have pair := mergeBy_sorts transitive decides a b (ordered a (by simp)) (ordered b (by simp))
    refine yields_bind pair fun merged sorted => ?_
    have later := mergePairsBy_sorts decides rest fun run member => ordered run (by simp [member])
    refine yields_bind later fun others sorted' => yields_pure ⟨?_, ?_, ?_⟩
    · intro run member
      rcases List.mem_cons.mp member with rfl | behind
      · exact sorted.ordered
      · exact sorted'.1 run behind
    · simp only [List.flatten_cons, ← List.append_assoc]
      exact sorted.perm.append sorted'.2.1
    · intro k
      simp only [List.flatten_cons, ties_append, sorted.stable k, sorted'.2.2 k, List.append_assoc]

/-- Passes over ascending runs sort their entries. -/
theorem mergeAllBy_sorts (decides : Decides le cmp) : ∀ runs : List (List α),
    (∀ run ∈ runs, run.Pairwise le) →
      Yields (SortedFrom le runs.flatten) (mergeAllBy cmp runs)
  | [], _ => by
    rw [mergeAllBy]
    exact yields_pure ⟨.refl _, .nil, fun k => rfl⟩
  | [r], ordered => by
    rw [mergeAllBy, List.flatten_singleton]
    exact yields_pure ⟨.refl _, ordered r (by simp), fun k => rfl⟩
  | a :: b :: rest, ordered => by
    rw [mergeAllBy]
    refine yields_bind (mergePairsBy_sorts transitive decides _ ordered) fun merged sorted => ?_
    exact yields_imp (mergeAllBy_sorts decides merged.val sorted.1) fun out final =>
      ⟨final.perm.trans sorted.2.1, final.ordered, fun k => (final.stable k).trans (sorted.2.2 k)⟩
termination_by runs => runs.length
decreasing_by
  have fewer := merged.property
  simp only [List.length_cons] at fewer ⊢
  omega

end Stable

/-- The entries of a list, each as a run of its own. -/
theorem singletons_eq (xs : List α) : singletons xs = xs.map fun x => [x] := by
  induction xs with
  | nil => rfl
  | cons x rest hypothesis => rw [singletons, hypothesis, List.map_cons]

/-- Sorting a list never leaves its buffers; with a comparator that decides a total preorder, it
returns the entries in ascending order, those that tie in the order they had. -/
theorem sortBy_stable (le : α → α → Prop) [DecidableRel le] (cmp : α → α → m Int)
    (transitive : ∀ x y z, le x y → le y z → le x z) (decides : Decides le cmp) (xs : List α) :
    Ensures (SortedFrom le xs) (sortBy cmp xs) := by
  have runs : ∀ run ∈ singletons xs, run.Pairwise le := by
    intro run member
    rw [singletons_eq, List.mem_map] at member
    obtain ⟨x, -, rfl⟩ := member
    exact List.pairwise_singleton le x
  have entries : (singletons xs).flatten = xs := by
    rw [singletons_eq, ← List.flatMap_def, List.flatMap_singleton']
  have sorted := mergeAllBy_sorts transitive decides _ runs
  rw [entries] at sorted
  rw [sortBy_eq]
  exact ensures_lift sorted

/-- Integers by their remainders: those with the same one stay in order. -/
theorem sortBy_stable_remainders :
    Ensures (SortedFrom (fun x y : Int => x % 3 ≤ y % 3) [3, 1, 6, 4, 9, 2])
      (sortBy (m := Id) (fun x y : Int => pure (x % 3 - y % 3)) [3, 1, 6, 4, 9, 2]) :=
  sortBy_stable (m := Id) (fun x y : Int => x % 3 ≤ y % 3) (fun x y => pure (x % 3 - y % 3))
    (fun _ _ _ => Int.le_trans)
    (fun x y => ⟨pure ⟨x % 3 - y % 3, ⟨Int.le_of_sub_nonpos, Int.sub_nonpos_of_le⟩,
      Int.sub_nonneg⟩, rfl⟩) _

end Fai.Lists
