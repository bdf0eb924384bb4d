import Mathlib.Order.Defs.LinearOrder
import Mathlib.Data.List.Sort

/-!
# Filling slots in order

A row of keys in ascending order lays values out in slots. New contents for some of the keys may be
computed either slot by slot along the row or key by key over the whole of the old slots. The two
run the same computations in the same order, and end with the same slots, when the new contents are
listed in ascending order. Sorting stably moves no entry across another with its key.
-/

namespace Fai.Slots

variable {κ β : Type} {m : Type → Type} [Monad m]

/-- Runs computations one after another and collects what they return. -/
def inOrder : List (m β) → m (List β)
  | [] => pure []
  | first :: rest => do
    let value ← first
    let values ← inOrder rest
    pure (value :: values)

/-- Computations in order run those of the front and then those of the back. -/
theorem inOrder_append [LawfulMonad m] (front back : List (m β)) :
    inOrder (front ++ back) =
      inOrder front >>= fun values => inOrder back >>= fun others => pure (values ++ others) := by
  induction front with
  | nil => simp [inOrder]
  | cons first front hypothesis => simp [inOrder, hypothesis]

/-- A computation returns only values with a property. -/
def Yields (property : β → Prop) (run : m β) : Prop :=
  ∃ proved : m {value // property value}, Subtype.val <$> proved = run

/-- What follows a computation matters on the values it returns only. -/
theorem Yields.bind_congr [LawfulMonad m] {γ : Type} {property : β → Prop} {run : m β}
    (yields : Yields property run) {first second : β → m γ}
    (agree : ∀ value, property value → first value = second value) :
    run >>= first = run >>= second := by
  obtain ⟨proved, same⟩ := yields
  rw [← same, bind_map_left, bind_map_left]
  congr 1
  funext value
  exact agree value.val value.property

section Fill

variable [LinearOrder κ]

/-- The contents of one slot: the first computation listed for its key, else the old value. -/
def fill (fields : List (κ × m β)) (slot : κ × β) : m β :=
  ((fields.find? (fun field => field.1 = slot.1)).map Prod.snd).getD (pure slot.2)

/-- Replaces one key's slot by what its computation returns. -/
def put (place : κ → ℕ) (slots : List β) (field : κ × m β) : m (List β) := do
  let value ← field.2
  pure (slots.set (place field.1) value)

/-- A slot whose key is listed first takes that computation. -/
theorem fill_head (field : κ × m β) (fields : List (κ × m β)) (old : β) :
    fill (field :: fields) (field.1, old) = field.2 := by
  simp [fill]

/-- A computation listed for another key changes nothing. -/
theorem fill_tail {field : κ × m β} {slot : κ × β} (other : field.1 ≠ slot.1)
    (fields : List (κ × m β)) : fill (field :: fields) slot = fill fields slot := by
  simp [fill, other]

/-- A slot keeps its value when no computation is listed for its key. -/
theorem fill_kept {fields : List (κ × m β)} {slot : κ × β}
    (unlisted : ∀ field ∈ fields, field.1 ≠ slot.1) : fill fields slot = pure slot.2 := by
  have none_found : fields.find? (fun field => field.1 = slot.1) = none := by
    rw [List.find?_eq_none]
    intro field member
    simpa using unlisted field member
  rw [fill, none_found]
  rfl

/-- Filling the slots along the row runs the listed computations key by key. -/
theorem inOrder_fill_from [LawfulMonad m] (place : κ → ℕ) (pairs : List (κ × β)) :
    ∀ (done : List β) (fields : List (κ × m β)),
      (pairs.map Prod.fst).Pairwise (· < ·) → (fields.map Prod.fst).Pairwise (· < ·) →
      (∀ field ∈ fields, field.1 ∈ pairs.map Prod.fst) →
      (∀ index (inside : index < pairs.length), place pairs[index].1 = done.length + index) →
      fields.foldlM (put place) (done ++ pairs.map Prod.snd) =
        (done ++ ·) <$> inOrder (pairs.map (fill fields)) := by
  induction pairs with
  | nil =>
    intro done fields _ _ listed _
    cases fields with
    | nil => simp [inOrder]
    | cons field fields => exact absurd (listed field List.mem_cons_self) List.not_mem_nil
  | cons pair pairs hypothesis =>
    intro done fields row ascending listed placed
    obtain ⟨key, old⟩ := pair
    have row_rest := (List.pairwise_cons.mp row).2
    have beyond := (List.pairwise_cons.mp row).1
    have placed_rest (value : β) (index : ℕ) (inside : index < pairs.length) :
        place pairs[index].1 = (done ++ [value]).length + index := by
      have here := placed (index + 1) (Nat.succ_lt_succ inside)
      simp only [List.getElem_cons_succ] at here
      rw [here, List.length_append, List.length_singleton]
      omega
    cases fields with
    | nil =>
      have rest := hypothesis (done ++ [old]) [] row_rest List.Pairwise.nil (by simp)
        (placed_rest old)
      simp only [List.foldlM_nil, List.append_assoc, List.singleton_append] at rest
      have alone : fill ([] : List (κ × m β)) (key, old) = pure old :=
        fill_kept fun field member => absurd member List.not_mem_nil
      simp only [List.map_cons, inOrder, List.foldlM_nil, rest, alone]
      simp
    | cons field fields =>
      have ascending_rest := (List.pairwise_cons.mp ascending).2
      have after := (List.pairwise_cons.mp ascending).1
      by_cases same : field.1 = key
      · have listed_rest (other : κ × m β) (member : other ∈ fields) :
            other.1 ∈ pairs.map Prod.fst := by
          have above := after other.1 (List.mem_map_of_mem member)
          have found := listed other (List.mem_cons_of_mem _ member)
          rw [List.map_cons, List.mem_cons] at found
          exact found.resolve_left fun equal => by
            rw [equal, same] at above
            exact lt_irrefl _ above
        have filled : pairs.map (fill (field :: fields)) = pairs.map (fill fields) := by
          refine List.map_congr_left fun pair member => fill_tail ?_ fields
          have above := beyond pair.1 (List.mem_map_of_mem member)
          rw [same]
          exact ne_of_lt above
        have spot : place field.1 = done.length := by
          have here := placed 0 (Nat.succ_pos _)
          simpa [same] using here
        subst same
        simp only [List.map_cons, List.foldlM_cons, inOrder, fill_head, filled, put, spot,
          bind_assoc, pure_bind, map_bind]
        refine bind_congr fun value => ?_
        have rest := hypothesis (done ++ [value]) fields row_rest ascending_rest listed_rest
          (placed_rest value)
        simp only [List.append_assoc, List.singleton_append] at rest
        have written : (done ++ old :: pairs.map Prod.snd).set done.length value =
            done ++ value :: pairs.map Prod.snd := by simp
        rw [written, rest]
        simp
      · have above : ∀ other ∈ field :: fields, key < other.1 := by
          have first : key < field.1 := by
            have found := listed field List.mem_cons_self
            rw [List.map_cons, List.mem_cons] at found
            exact beyond field.1 (found.resolve_left same)
          intro other member
          rcases List.mem_cons.mp member with equal | later
          · rwa [equal]
          · exact lt_trans first (after other.1 (List.mem_map_of_mem later))
        have listed_rest (other : κ × m β) (member : other ∈ field :: fields) :
            other.1 ∈ pairs.map Prod.fst := by
          have found := listed other member
          rw [List.map_cons, List.mem_cons] at found
          exact found.resolve_left (ne_of_gt (above other member))
        have rest := hypothesis (done ++ [old]) (field :: fields) row_rest ascending listed_rest
          (placed_rest old)
        simp only [List.append_assoc, List.singleton_append] at rest
        rw [List.map_cons, rest, List.map_cons, inOrder,
          fill_kept fun other member => ne_of_gt (above other member)]
        simp

/-- In an ascending row, the keys below one key are those in front of it. -/
theorem countP_lt_getElem {row : List κ} (ascending : row.Pairwise (· < ·)) {index : ℕ}
    (inside : index < row.length) : row.countP (· < row[index]) = index := by
  have split := List.take_append_drop index row
  have front : (row.take index).countP (· < row[index]) = index := by
    have all : (row.take index).countP (· < row[index]) = (row.take index).length := by
      rw [List.countP_eq_length]
      intro key member
      obtain ⟨place, bound, same⟩ := List.getElem_of_mem member
      rw [List.getElem_take] at same
      rw [List.length_take] at bound
      have ordered :=
        List.pairwise_iff_getElem.mp ascending place index (by omega) inside (by omega)
      rw [same] at ordered
      exact decide_eq_true ordered
    rw [all, List.length_take]
    omega
  have back : (row.drop index).countP (· < row[index]) = 0 := by
    rw [List.countP_eq_zero]
    intro key member
    obtain ⟨place, bound, same⟩ := List.getElem_of_mem member
    rw [List.getElem_drop] at same
    rw [List.length_drop] at bound
    simp only [decide_eq_true_eq, not_lt]
    by_cases first : place = 0
    · subst first
      exact le_of_eq same
    · have ordered := List.pairwise_iff_getElem.mp ascending index (index + place) inside
        (by omega) (by omega)
      rw [same] at ordered
      exact le_of_lt ordered
  calc row.countP (· < row[index])
      = (row.take index ++ row.drop index).countP (· < row[index]) := by rw [split]
    _ = index := by rw [List.countP_append, front, back, Nat.add_zero]

/-- Listed in ascending order, new contents computed along the row or key by key are alike. -/
theorem inOrder_fill [LawfulMonad m] {row : List κ} {slots : List β}
    {fields : List (κ × m β)} (aligned : slots.length = row.length)
    (ordered : row.Pairwise (· < ·)) (ascending : (fields.map Prod.fst).Pairwise (· < ·))
    (listed : ∀ field ∈ fields, field.1 ∈ row) :
    fields.foldlM (put fun key => row.countP (· < key)) slots =
      inOrder ((row.zip slots).map (fill fields)) := by
  have keys : (row.zip slots).map Prod.fst = row := List.map_fst_zip (Nat.le_of_eq aligned.symm)
  have values : (row.zip slots).map Prod.snd = slots := List.map_snd_zip (Nat.le_of_eq aligned)
  have filled := inOrder_fill_from (fun key => row.countP (· < key)) (row.zip slots) [] fields
    (by rwa [keys]) ascending (by rwa [keys]) fun index inside => by
      have within : index < row.length := by
        rw [List.length_zip] at inside
        omega
      rw [List.getElem_zip, countP_lt_getElem ordered within, List.length_nil, Nat.zero_add]
  simpa only [values, List.nil_append, id_map'] using filled

end Fill

section Stable

variable {α : Type} {le : α → α → Bool}

/-- The first entry of a kind is found at the same place in a list and in its stable sort. -/
theorem find?_mergeSort (transitive : ∀ a b c, le a b → le b c → le a c)
    (total : ∀ a b, le a b || le b a) (list : List α) {kind : α → Bool}
    (tied : ∀ a b, kind a → kind b → le a b) :
    (list.mergeSort le).find? kind = list.find? kind := by
  have alike : (list.filter kind).Pairwise fun a b => le a b := by
    rw [List.pairwise_filter]
    exact List.pairwise_of_forall fun a b left right => tied a b left right
  have kept : (list.filter kind).Sublist (list.mergeSort le) :=
    List.sublist_mergeSort transitive total alike List.filter_sublist
  have inner := kept.filter kind
  rw [List.filter_filter] at inner
  simp only [Bool.and_self] at inner
  have same : list.filter kind = (list.mergeSort le).filter kind :=
    inner.eq_of_length ((List.mergeSort_perm list le).symm.filter kind).length_eq
  rw [← List.head?_filter, ← List.head?_filter, same]

end Stable

end Fai.Slots
