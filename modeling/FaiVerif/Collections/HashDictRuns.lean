import FaiVerif.Collections.HashDictMap

/-!
# Runs of the hash dictionary

The bulk operations fold over the entries of a table. Over every sequence of operations the table
stays sound, every operation on it returns, and its answers are those of the finite map that the
same operations build.
-/

namespace Fai.Collections

namespace HashDict

open Fueled

variable {κ ν ω α : Type} {keys : HashedKey κ} {slots : List (Slot κ ν)} {d : HashDict κ ν}

/-- The entry of a slot. -/
def entry : Slot κ ν → Option (κ × ν)
  | .empty => none
  | .full k v => some (k, v)

/-- Collecting lists the entries in reverse before the accumulator. -/
theorem collectFrom_eq : ∀ left i (acc : List (κ × ν)), slots.length - i = left →
    collectFrom slots slots.length i acc = ((slots.drop i).filterMap entry).reverse ++ acc := by
  intro left
  induction left with
  | zero =>
    intro i acc leftover
    rw [collectFrom, if_pos (by omega), List.drop_eq_nil_of_le (by omega)]
    rfl
  | succ left induct =>
    intro i acc leftover
    have inside : i < slots.length := by omega
    have held : unsafeGet i slots = slots[i] := List.getD_eq_getElem _ _ inside
    rw [collectFrom, if_neg (by omega), List.drop_eq_getElem_cons inside, ← held]
    cases unsafeGet i slots with
    | empty => exact induct (i + 1) acc (by omega)
    | full k v =>
      have kept : List.filterMap entry (Slot.full k v :: slots.drop (i + 1)) =
          (k, v) :: List.filterMap entry (slots.drop (i + 1)) := rfl
      rw [kept, List.reverse_cons, List.append_assoc]
      exact induct (i + 1) ((k, v) :: acc) (by omega)

/-- The entries of a table. -/
theorem toList_eq (d : HashDict κ ν) : d.toList = (d.slots.filterMap entry).reverse := by
  rw [toList, collectFrom_eq _ 0 [] rfl, List.drop_zero, List.append_nil]

/-- The listing has the stored entries. -/
theorem mem_toList {k : κ} {v : ν} : (k, v) ∈ d.toList ↔ Holds d.slots k v := by
  rw [toList_eq, List.mem_reverse, List.mem_filterMap]
  constructor
  · rintro ⟨slot, inside, held⟩
    obtain ⟨i, bound, at_⟩ := List.mem_iff_getElem.mp inside
    refine ⟨i, ?_⟩
    rw [unsafeGet, List.getD_eq_getElem _ _ bound, at_]
    cases slot with
    | empty => cases held
    | full => cases held; rfl
  · rintro ⟨i, full⟩
    have bound := lt_of_full full
    rw [unsafeGet, List.getD_eq_getElem _ _ bound] at full
    exact ⟨d.slots[i], List.getElem_mem bound, by rw [full]; rfl⟩

/-- The listing is as long as the table has full slots. -/
theorem length_toList (d : HashDict κ ν) : d.toList.length = d.slots.countP isFull := by
  rw [toList_eq, List.length_reverse]
  induction d.slots with
  | nil => rfl
  | cons slot rest induct =>
    cases slot with
    | empty => exact induct
    | full k v =>
      have kept : List.filterMap entry (Slot.full k v :: rest) =
          (k, v) :: List.filterMap entry rest := rfl
      rw [kept, List.length_cons, induct, List.countP_cons]
      rfl

/-- No two entries of the listing have equal keys. -/
theorem distinct_toList (wired : Wired keys d.slots) :
    d.toList.Pairwise fun a b => keys.eq a.1 b.1 = false := by
  rw [toList_eq, List.pairwise_reverse, List.pairwise_filterMap, List.pairwise_iff_getElem]
  intro i j iIn jIn less a heldA b heldB
  have fullA : unsafeGet i d.slots = .full a.1 a.2 := by
    rw [unsafeGet, List.getD_eq_getElem _ _ iIn]
    cases slot : d.slots[i] with
    | empty => rw [slot] at heldA; cases heldA
    | full => rw [slot] at heldA; cases heldA; rfl
  have fullB : unsafeGet j d.slots = .full b.1 b.2 := by
    rw [unsafeGet, List.getD_eq_getElem _ _ jIn]
    cases slot : d.slots[j] with
    | empty => rw [slot] at heldB; cases heldB
    | full => rw [slot] at heldB; cases heldB; rfl
  rw [← Bool.not_eq_true]
  intro same
  have equal := wired.distinct j i b.1 b.2 a.1 a.2 fullB fullA same
  omega

/-- The listing of a sound table. -/
theorem Sound.distinct (sound : Sound keys d) :
    d.toList.Pairwise fun a b => keys.eq a.1 b.1 = false := by
  cases sound with
  | empty =>
    rw [toList_eq]
    exact List.Pairwise.nil
  | table wired => exact distinct_toList wired

/-- The size of a sound table is that of its listing. -/
theorem Sound.size (sound : Sound keys d) : d.size = d.toList.length := by
  rw [length_toList]
  cases sound with
  | empty => rfl
  | table => rfl

/-- Tables of the same map have the same entries. -/
theorem Represents.perm {m : κ → Option (κ × ν)} {a b : HashDict κ ν}
    (first : Represents keys a m) (second : Represents keys b m) : a.toList.Perm b.toList := by
  have nodup : ∀ {d : HashDict κ ν}, Represents keys d m → d.toList.Nodup := by
    intro d represents
    refine represents.sound.distinct.imp ?_
    intro x y differ same
    rw [same, keys.refl] at differ
    cases differ
  refine (List.perm_ext_iff_of_nodup (nodup first) (nodup second)).mpr ?_
  rintro ⟨k, v⟩
  rw [mem_toList, mem_toList, first.meaning.holds_iff, second.meaning.holds_iff]

/-- Writing the entries of a list one after another. -/
noncomputable def writes (keys : HashedKey κ) (m : κ → Option (κ × ν)) (list : List (κ × ν)) :
    κ → Option (κ × ν) :=
  list.foldl (fun m pair => FiniteMap.put (Same keys) m pair.1 (some pair)) m

/-- A key that no written entry has. -/
theorem writes_other {list : List (κ × ν)} {key : κ}
    (others : ∀ pair ∈ list, keys.eq key pair.1 = false) : ∀ m : κ → Option (κ × ν),
    writes keys m list key = m key := by
  induction list with
  | nil => exact fun _ => rfl
  | cons pair rest induct =>
    intro m
    refine (induct (fun p inside => others p (List.mem_cons_of_mem _ inside)) _).trans ?_
    have other := others pair List.mem_cons_self
    refine if_neg ?_
    intro same
    unfold Same at same
    rw [same] at other
    cases other

/-- The map of a list of entries with distinct keys. -/
theorem writes_eq_some {list : List (κ × ν)}
    (distinct : list.Pairwise fun a b => keys.eq a.1 b.1 = false) (key : κ) (p : κ × ν) :
    ∀ m : κ → Option (κ × ν), m key = none →
    (writes keys m list key = some p ↔ p ∈ list ∧ keys.eq key p.1 = true) := by
  induction list with
  | nil =>
    intro m absent
    constructor
    · intro held
      rw [writes, List.foldl_nil, absent] at held
      cases held
    · rintro ⟨inside, -⟩
      cases inside
  | cons pair rest induct =>
    obtain ⟨apart, restDistinct⟩ := List.pairwise_cons.mp distinct
    intro m absent
    show writes keys (FiniteMap.put (Same keys) m pair.1 (some pair)) rest key = some p ↔ _
    cases same : keys.eq key pair.1 with
    | true =>
      have others : ∀ q ∈ rest, keys.eq key q.1 = false := by
        intro q inside
        have differ := apart q inside
        rw [← Bool.not_eq_true]
        intro equal
        rw [keys.trans pair.1 key q.1 (keys.symm key pair.1 same) equal] at differ
        cases differ
      have written : FiniteMap.put (Same keys) m pair.1 (some pair) key = some pair := if_pos same
      rw [writes_other others, written, Option.some_inj]
      constructor
      · rintro rfl
        exact ⟨List.mem_cons_self, same⟩
      · rintro ⟨inside, equal⟩
        rcases List.mem_cons.mp inside with here | later
        · exact here.symm
        · have other := others p later
          rw [equal] at other
          cases other
    | false =>
      have unwritten : FiniteMap.put (Same keys) m pair.1 (some pair) key = none := by
        refine (if_neg ?_).trans absent
        intro equal
        unfold Same at equal
        rw [same] at equal
        cases equal
      rw [induct restDistinct _ unwritten]
      constructor
      · rintro ⟨inside, equal⟩
        exact ⟨List.mem_cons_of_mem _ inside, equal⟩
      · rintro ⟨inside, equal⟩
        rcases List.mem_cons.mp inside with here | later
        · rw [here, same] at equal
          cases equal
        · exact ⟨later, equal⟩

/-- The empty dictionary stands for the empty map. -/
theorem represents_empty : Represents keys (empty : HashDict κ ν) FiniteMap.none :=
  ⟨.empty, meaning_none fun _ => rfl⟩

/-- A fold that writes the entries it picks. -/
theorem fold_spec (keys : HashedKey κ) (pick : κ × ν → Bool)
    (step : Nat → HashDict κ ν → κ × ν → Option (HashDict κ ν))
    (steps : ∀ (d : HashDict κ ν) m pair, Represents keys d m → ∃ after,
      Returns (fun fuel => step fuel d pair) after ∧
        Represents keys after
          (if pick pair then FiniteMap.put (Same keys) m pair.1 (some pair) else m))
    (list : List (κ × ν)) : ∃ after,
      Returns (fun fuel => list.foldlM (step fuel) empty) after ∧
        Represents keys after (writes keys FiniteMap.none (list.filter pick)) := by
  have each : ∀ (done : List (κ × ν)) pair (d : HashDict κ ν),
      Represents keys d (writes keys FiniteMap.none (done.filter pick)) → ∃ after,
        Returns (fun fuel => step fuel d pair) after ∧
          Represents keys after (writes keys FiniteMap.none ((done ++ [pair]).filter pick)) := by
    intro done pair d represents
    obtain ⟨after, returns, represented⟩ := steps d _ pair represents
    refine ⟨after, returns, ?_⟩
    rw [List.filter_append]
    cases picked : pick pair with
    | true =>
      rw [picked] at represented
      simp only [List.filter_cons, picked, if_true, List.filter_nil]
      rw [writes, List.foldl_append]
      exact represented
    | false =>
      rw [picked] at represented
      simp only [List.filter_cons, picked, List.filter_nil]
      rw [if_neg (by simp), List.append_nil]
      exact represented
  obtain ⟨after, returns, represented⟩ := returns_foldlM
    (fun done d => Represents keys d (writes keys FiniteMap.none (done.filter pick)))
    each list [] empty represents_empty
  exact ⟨after, returns, represented⟩

/-- The picked entries of a table. -/
theorem writes_filter {m : κ → Option (κ × ν)} (represents : Represents keys d m)
    (pick : κ × ν → Bool) :
    writes keys FiniteMap.none (d.toList.filter pick) = fun key => (m key).filter pick := by
  funext key
  apply Option.ext
  rintro ⟨k, v⟩
  rw [writes_eq_some (represents.sound.distinct.filter pick) key _ _ rfl, List.mem_filter,
    mem_toList, Option.filter_eq_some_iff, represents.meaning]
  constructor
  · rintro ⟨⟨held, picked⟩, same⟩
    exact ⟨⟨same, held⟩, picked⟩
  · rintro ⟨⟨same, held⟩, picked⟩
    exact ⟨⟨held, picked⟩, same⟩

/-- Filtering. -/
theorem filter_spec {m : κ → Option (κ × ν)} (represents : Represents keys d m)
    (keep : κ → ν → Bool) : ∃ after, Returns (fun fuel => filter keys fuel keep d) after ∧
      Represents keys after (FiniteMap.filter (fun _ entry => keep entry.1 entry.2) m) := by
  have folded := fold_spec keys (fun pair => keep pair.1 pair.2)
    (fun fuel acc pair =>
      if keep pair.1 pair.2 then insertPair keys fuel acc pair else some acc) ?_ d.toList
  · rw [writes_filter represents] at folded
    exact folded
  · intro d m pair represents
    cases kept : keep pair.1 pair.2 with
    | true =>
      simp only [if_true]
      exact insert_spec represents pair.1 pair.2
    | false => exact ⟨d, returns_const d, represents⟩

/-- Testing an entry's key in another table. -/
theorem member_step {n : κ → Option (κ × ν)} {e : HashDict κ ν} (represents : Represents keys e n)
    (key : κ) {onFound onAbsent : Nat → Option (HashDict κ ν)} {after : HashDict κ ν}
    (found : (n key).isSome = true → Returns onFound after)
    (absent : (n key).isSome = false → Returns onAbsent after) :
    Returns (fun fuel => (member keys fuel key e).bind fun present =>
      if present then onFound fuel else onAbsent fuel) after := by
  have looked := (lookup_spec represents key).2.1
  refine looked.bind ?_
  cases present : (n key).isSome with
  | true => exact found present
  | false => exact absent present

/-- Intersecting. -/
theorem intersection_spec {a b : HashDict κ ν} {m n : κ → Option (κ × ν)}
    (first : Represents keys a m) (second : Represents keys b n) :
    ∃ after, Returns (fun fuel => intersection keys fuel a b) after ∧
      Represents keys after (FiniteMap.intersection m n) := by
  have folded := fold_spec keys (fun pair => (n pair.1).isSome)
    (fun fuel d pair => (member keys fuel pair.1 b).bind fun present =>
      if present then insertPair keys fuel d pair else some d) ?_ a.toList
  · rw [writes_filter first] at folded
    have same : (fun key => (m key).filter fun pair => (n pair.1).isSome) =
        FiniteMap.intersection m n := by
      funext key
      unfold FiniteMap.intersection
      cases held : m key with
      | none => simp
      | some pair =>
        rw [second.meaning.congr ((first.meaning key pair).mp held).1, Option.filter_some]
    rw [same] at folded
    exact folded
  · intro d m pair represents
    obtain ⟨after, returns, represented⟩ := insert_spec represents pair.1 pair.2
    cases present : (n pair.1).isSome with
    | true =>
      refine ⟨after, member_step second pair.1 (fun _ => returns) ?_, represented⟩
      rw [present]
      exact nofun
    | false =>
      refine ⟨d, member_step second pair.1 ?_ (fun _ => returns_const d), represents⟩
      rw [present]
      exact nofun

/-- Subtracting. -/
theorem difference_spec {a b : HashDict κ ν} {m n : κ → Option (κ × ν)}
    (first : Represents keys a m) (second : Represents keys b n) :
    ∃ after, Returns (fun fuel => difference keys fuel a b) after ∧
      Represents keys after (FiniteMap.difference m n) := by
  have folded := fold_spec keys (fun pair => !(n pair.1).isSome)
    (fun fuel d pair => (member keys fuel pair.1 b).bind fun present =>
      if present then some d else insertPair keys fuel d pair) ?_ a.toList
  · rw [writes_filter first] at folded
    have same : (fun key => (m key).filter fun pair => !(n pair.1).isSome) =
        FiniteMap.difference m n := by
      funext key
      unfold FiniteMap.difference
      cases held : m key with
      | none => simp
      | some pair =>
        rw [second.meaning.congr ((first.meaning key pair).mp held).1, Option.filter_some]
        cases (n pair.1).isSome with
        | true => rfl
        | false => rfl
    rw [same] at folded
    exact folded
  · intro d m pair represents
    obtain ⟨after, returns, represented⟩ := insert_spec represents pair.1 pair.2
    cases present : (n pair.1).isSome with
    | true =>
      refine ⟨d, member_step second pair.1 (fun _ => returns_const d) ?_, represents⟩
      rw [present]
      exact nofun
    | false =>
      refine ⟨after, member_step second pair.1 ?_ (fun _ => returns), represented⟩
      rw [present]
      exact nofun

/-- Uniting: the entries of the right table that the left one does not have are added. -/
theorem union_spec {a b : HashDict κ ν} {m n : κ → Option (κ × ν)}
    (first : Represents keys a m) (second : Represents keys b n) :
    ∃ after, Returns (fun fuel => union keys fuel a b) after ∧
      Represents keys after (FiniteMap.union m n) := by
  let among (done : List (κ × ν)) : κ → Option (κ × ν) := fun key =>
    (m key).or (done.find? fun pair => keys.eq key pair.1)
  have grown : ∀ (done : List (κ × ν)) (pair : κ × ν) key, among (done ++ [pair]) key =
      (among done key).or (if keys.eq key pair.1 then some pair else none) := by
    intro done pair key
    show (m key).or ((done ++ [pair]).find? _) = ((m key).or (done.find? _)).or _
    rw [List.find?_append, Option.or_assoc]
    congr 2
    cases same : keys.eq key pair.1 with
    | true => simp [same]
    | false => simp [same]
  have each : ∀ (done : List (κ × ν)) pair (d : HashDict κ ν), Represents keys d (among done) →
      ∃ after, Returns (fun fuel => (member keys fuel pair.1 d).bind fun present =>
        if present then some d else insertPair keys fuel d pair) after ∧
          Represents keys after (among (done ++ [pair])) := by
    intro done pair d represents
    cases present : (among done pair.1).isSome with
    | true =>
      refine ⟨d, member_step represents pair.1 (fun _ => returns_const d) ?_, ?_⟩
      · rw [present]
        exact nofun
      · have same : among (done ++ [pair]) = among done := by
          funext key
          rw [grown]
          cases equal : keys.eq key pair.1 with
          | true =>
            rw [← represents.meaning.congr equal] at present
            obtain ⟨held, here⟩ := Option.isSome_iff_exists.mp present
            rw [here]
            rfl
          | false => exact Option.or_none
        rw [same]
        exact represents
    | false =>
      obtain ⟨after, returns, represented⟩ := insert_spec represents pair.1 pair.2
      refine ⟨after, member_step represents pair.1 ?_ (fun _ => returns), ?_⟩
      · rw [present]
        exact nofun
      · have same : among (done ++ [pair]) =
            FiniteMap.put (Same keys) (among done) pair.1 (some pair) := by
          funext key
          rw [grown]
          unfold FiniteMap.put Same
          cases equal : keys.eq key pair.1 with
          | true =>
            rw [← represents.meaning.congr equal, Option.isSome_eq_false_iff,
              Option.isNone_iff_eq_none] at present
            rw [present, if_pos rfl, if_pos rfl]
            rfl
          | false =>
            rw [if_neg (by simp), if_neg (by simp)]
            exact Option.or_none
        rw [same]
        exact represented
  have start : Represents keys a (among []) := by
    have same : among [] = m := by
      funext key
      exact Option.or_none
    rw [same]
    exact first
  obtain ⟨after, returns, represented⟩ :=
    returns_foldlM (fun done d => Represents keys d (among done))
    each b.toList [] a start
  refine ⟨after, returns, ?_⟩
  have same : among ([] ++ b.toList) = FiniteMap.union m n := by
    funext key
    show (m key).or (b.toList.find? _) = (m key).or (n key)
    congr 1
    apply Option.ext
    intro pair
    rw [second.meaning]
    constructor
    · intro found
      exact ⟨by simpa using List.find?_some found, mem_toList.mp (List.mem_of_find?_eq_some found)⟩
    · rintro ⟨equal, held⟩
      cases found : b.toList.find? fun pair => keys.eq key pair.1 with
      | none =>
        have missed := List.find?_eq_none.mp found pair (mem_toList.mpr held)
        exact absurd equal missed
      | some other =>
        have inside := mem_toList.mp (List.mem_of_find?_eq_some found)
        have equal' : keys.eq key other.1 = true := by simpa using List.find?_some found
        have one := (second.meaning key other).mpr ⟨equal', inside⟩
        have two := (second.meaning key pair).mpr ⟨equal, held⟩
        exact one.symm.trans two
  rw [← same]
  exact represented

/-- Building from pairs. -/
theorem fromList_spec (keys : HashedKey κ) (pairs : List (κ × ν)) :
    ∃ after, Returns (fun fuel => fromList keys fuel pairs) after ∧
      Represents keys after (writes keys FiniteMap.none pairs) := by
  have folded := fold_spec keys (fun _ => true) (fun fuel d pair => insertPair keys fuel d pair) ?_
    pairs
  · rw [List.filter_true] at folded
    exact folded
  · intro d m pair represents
    exact insert_spec represents pair.1 pair.2

/-- The slots with their values transformed. -/
def mapSlot (f : κ → ν → ω) : Slot κ ν → Slot κ ω
  | .empty => .empty
  | .full k v => .full k (f k v)

/-- Transforming the slots from an index on. -/
theorem mapInto_eq (f : κ → ν → ω) : ∀ left i (acc : List (Slot κ ω)), slots.length - i = left →
    mapInto f slots slots.length i acc = acc ++ (slots.drop i).map (mapSlot f) := by
  intro left
  induction left with
  | zero =>
    intro i acc leftover
    rw [mapInto, if_pos (by omega), List.drop_eq_nil_of_le (by omega), List.map_nil,
      List.append_nil]
  | succ left induct =>
    intro i acc leftover
    have inside : i < slots.length := by omega
    have held : unsafeGet i slots = slots[i] := List.getD_eq_getElem _ _ inside
    rw [mapInto, if_neg (by omega), List.drop_eq_getElem_cons inside, ← held, List.map_cons]
    cases unsafeGet i slots with
    | empty =>
      refine (induct (i + 1) _ (by omega)).trans ?_
      rw [List.append_assoc]
      rfl
    | full k v =>
      refine (induct (i + 1) _ (by omega)).trans ?_
      rw [List.append_assoc]
      rfl

/-- A slot of the transformed table. -/
theorem unsafeGet_map (f : κ → ν → ω) (i : Nat) :
    unsafeGet i (slots.map (mapSlot f)) = mapSlot f (unsafeGet i slots) := by
  by_cases inside : i < slots.length
  · simp [unsafeGet, inside]
  · have outside : (slots.map (mapSlot f)).length ≤ i := by
      rw [List.length_map]
      omega
    rw [unsafeGet, unsafeGet, List.getD_eq_default _ _ outside,
      List.getD_eq_default _ _ (by omega)]
    rfl

/-- A full slot of the transformed table. -/
theorem unsafeGet_map_full {f : κ → ν → ω} {i : Nat} {k : κ} {w : ω}
    (full : unsafeGet i (slots.map (mapSlot f)) = .full k w) :
    ∃ v, unsafeGet i slots = .full k v ∧ w = f k v := by
  rw [unsafeGet_map] at full
  cases held : unsafeGet i slots with
  | empty =>
    rw [held] at full
    cases full
  | full k' v =>
    rw [held] at full
    cases full
    exact ⟨v, rfl, rfl⟩

/-- Transforming the values keeps a table wired. -/
theorem Wired.map (wired : Wired keys slots) (f : κ → ν → ω) :
    Wired keys (slots.map (mapSlot f)) := by
  refine ⟨?_, ?_, ?_, ?_⟩
  · rw [List.length_map]
    exact wired.power
  · obtain ⟨q, inside, vacant⟩ := wired.vacant
    refine ⟨q, ?_, ?_⟩
    · rw [List.length_map]
      exact inside
    · rw [unsafeGet_map, vacant]
      rfl
  · intro i j k w k' w' first second same
    obtain ⟨v, fullA, -⟩ := unsafeGet_map_full first
    obtain ⟨v', fullB, -⟩ := unsafeGet_map_full second
    exact wired.distinct i j k v k' v' fullA fullB same
  · intro i k w full x xIn between
    obtain ⟨v, held, -⟩ := unsafeGet_map_full full
    rw [List.length_map] at xIn between
    have full := wired.reached i k v held x xIn between
    rw [unsafeGet_map]
    cases cell : unsafeGet x slots with
    | empty => exact absurd cell full
    | full => exact nofun

/-- Mapping transforms the values of the map. -/
theorem map_spec {m : κ → Option (κ × ν)} (represents : Represents keys d m) (f : κ → ν → ω) :
    Represents keys (d.map f) (FiniteMap.map (fun _ entry => (entry.1, f entry.1 entry.2)) m) := by
  have mapped : (d.map f).slots = d.slots.map (mapSlot f) := by
    show mapInto f d.slots d.slots.length 0 [] = _
    rw [mapInto_eq f _ 0 [] rfl, List.drop_zero, List.nil_append]
  constructor
  · obtain ⟨sound, -⟩ := represents
    have whole : d.map f = ⟨d.count, d.slots.map (mapSlot f)⟩ := by
      rw [← mapped]
      rfl
    rw [whole]
    cases sound with
    | empty => exact .empty
    | @table slots wired minimum =>
      have count : slots.countP isFull = (slots.map (mapSlot f)).countP isFull := by
        rw [List.countP_map]
        apply List.countP_congr
        intro slot _
        cases slot with
        | empty => rfl
        | full => rfl
      show Sound keys ⟨slots.countP isFull, slots.map (mapSlot f)⟩
      rw [count]
      exact .table (wired.map f) (by rw [List.length_map]; exact minimum)
  · rw [mapped]
    rintro key ⟨k, w⟩
    unfold FiniteMap.map
    rw [Option.map_eq_some_iff]
    constructor
    · rintro ⟨⟨k', v⟩, held, made⟩
      obtain ⟨same, i, full⟩ := (represents.meaning key (k', v)).mp held
      cases made
      refine ⟨same, i, ?_⟩
      rw [unsafeGet_map, full]
      rfl
    · rintro ⟨same, i, full⟩
      obtain ⟨v, held, made⟩ := unsafeGet_map_full full
      exact ⟨(k, v), (represents.meaning key (k, v)).mpr ⟨same, i, held⟩,
        congrArg (Prod.mk k) made.symm⟩

end HashDict

end Fai.Collections
