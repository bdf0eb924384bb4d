import FaiVerif.Collections.HashDictShift
import FaiVerif.Lib.FiniteMap
import FaiVerif.Lib.Fueled

/-!
# The hash dictionary as a finite map

The map of a table gives, for each key, the entry that is stored under an equal key. Each operation
returns, keeps the table sound, and changes the map as the operation on finite maps does.
-/

namespace Fai.Collections

namespace HashDict

open Fueled

variable {κ ν ω α : Type} {keys : HashedKey κ} {slots : List (Slot κ ν)} {d : HashDict κ ν}

/-- The equality of keys as a relation. -/
def Same (keys : HashedKey κ) (a b : κ) : Prop := keys.eq a b = true

/-- The state that the operations keep a table in. -/
inductive Sound (keys : HashedKey κ) : HashDict κ ν → Prop
  | empty : Sound keys ⟨0, []⟩
  | table {slots : List (Slot κ ν)} : Wired keys slots → initialCapacity ≤ slots.length →
    Sound keys ⟨slots.countP isFull, slots⟩

/-- The map of a table: for each key the entry under an equal key. -/
def Meaning (keys : HashedKey κ) (slots : List (Slot κ ν)) (m : κ → Option (κ × ν)) : Prop :=
  ∀ key entry, m key = some entry ↔ keys.eq key entry.1 = true ∧ Holds slots entry.1 entry.2

/-- The table is sound and stands for the map. -/
structure Represents (keys : HashedKey κ) (d : HashDict κ ν) (m : κ → Option (κ × ν)) : Prop where
  /-- The table is sound. -/
  sound : Sound keys d
  /-- Its entries are those of the map. -/
  meaning : Meaning keys d.slots m

namespace Meaning

variable {m : κ → Option (κ × ν)}

/-- Equal keys have the same entry. -/
theorem congr (meaning : Meaning keys slots m) {a b : κ} (same : keys.eq a b = true) :
    m a = m b := by
  apply Option.ext
  intro entry
  rw [meaning, meaning]
  constructor
  · rintro ⟨equal, held⟩
    exact ⟨keys.trans b a entry.1 (keys.symm a b same) equal, held⟩
  · rintro ⟨equal, held⟩
    exact ⟨keys.trans a b entry.1 same equal, held⟩

/-- A stored entry is the map's. -/
theorem holds_iff (meaning : Meaning keys slots m) {k : κ} {v : ν} :
    Holds slots k v ↔ m k = some (k, v) := by
  rw [meaning]
  exact ⟨fun held => ⟨keys.refl k, held⟩, fun both => both.2⟩

/-- A key whose probe ends at an empty slot is not in the map. -/
theorem eq_none (meaning : Meaning keys slots m) (wired : Wired keys slots) {key : κ} {i : Nat}
    (spot : Spot keys slots key i) (vacant : unsafeGet i slots = .empty) : m key = none := by
  by_contra present
  obtain ⟨entry, held⟩ := Option.ne_none_iff_exists'.mp present
  obtain ⟨same, j, full⟩ := (meaning key entry).mp held
  have other := wired.absent spot vacant full
  rw [same] at other
  cases other

/-- A key whose probe ends at an entry has that entry in the map. -/
theorem eq_some (meaning : Meaning keys slots m) {key k : κ} {v : ν} {i : Nat}
    (full : unsafeGet i slots = .full k v) (same : keys.eq key k = true) :
    m key = some (k, v) :=
  (meaning key (k, v)).mpr ⟨same, i, full⟩

/-- The map after a write. -/
theorem put (meaning : Meaning keys slots m) {after : List (Slot κ ν)} {key : κ} {value : ν}
    (holds : ∀ k v, Holds after k v ↔
      k = key ∧ v = value ∨ Holds slots k v ∧ keys.eq key k = false) :
    Meaning keys after (FiniteMap.put (Same keys) m key (some (key, value))) := by
  intro a entry
  rw [holds, FiniteMap.put]
  by_cases same : Same keys a key
  · rw [if_pos same, Option.some_inj]
    constructor
    · rintro rfl
      exact ⟨same, .inl ⟨rfl, rfl⟩⟩
    · rintro ⟨equal, ⟨rfl, rfl⟩ | ⟨-, other⟩⟩
      · rfl
      · rw [keys.trans key a entry.1 (keys.symm a key same) equal] at other
        cases other
  · rw [if_neg same, meaning]
    constructor
    · rintro ⟨equal, held⟩
      refine ⟨equal, .inr ⟨held, ?_⟩⟩
      rw [← Bool.not_eq_true]
      exact fun back => same (keys.trans a entry.1 key equal (keys.symm key entry.1 back))
    · rintro ⟨equal, ⟨rfl, rfl⟩ | ⟨held, -⟩⟩
      · exact absurd equal same
      · exact ⟨equal, held⟩

/-- The map after a removal. -/
theorem drop (meaning : Meaning keys slots m) {after : List (Slot κ ν)} {key : κ}
    (holds : ∀ k v, Holds after k v ↔ Holds slots k v ∧ keys.eq key k = false) :
    Meaning keys after (FiniteMap.put (Same keys) m key none) := by
  intro a entry
  rw [holds, FiniteMap.put]
  by_cases same : Same keys a key
  · rw [if_pos same]
    constructor
    · exact nofun
    · rintro ⟨equal, -, other⟩
      rw [keys.trans key a entry.1 (keys.symm a key same) equal] at other
      cases other
  · rw [if_neg same, meaning]
    constructor
    · rintro ⟨equal, held⟩
      refine ⟨equal, held, ?_⟩
      rw [← Bool.not_eq_true]
      exact fun back => same (keys.trans a entry.1 key equal (keys.symm key entry.1 back))
    · rintro ⟨equal, held, -⟩
      exact ⟨equal, held⟩

end Meaning

/-- Nothing is stored in a table without entries. -/
theorem meaning_none (vacant : ∀ i, unsafeGet i slots = .empty) :
    Meaning keys slots FiniteMap.none := by
  intro key entry
  constructor
  · exact nofun
  · rintro ⟨-, i, full⟩
    rw [vacant] at full
    cases full

/-- The map of a table without entries. -/
theorem Meaning.unique {m n : κ → Option (κ × ν)} (first : Meaning keys slots m)
    (second : Meaning keys slots n) : m = n := by
  funext key
  apply Option.ext
  intro entry
  rw [first, second]

/-- Writing a key into a wired table with room. -/
theorem insertFrom_spec {m : κ → Option (κ × ν)} (wired : Wired keys slots)
    (meaning : Meaning keys slots m) (room : slots.countP isFull + 1 < slots.length) (key : κ)
    (value : ν) : ∃ after, (∀ fuel ≥ slots.length,
      insertFrom keys fuel key value slots slots.length (indexFor keys slots.length key)
        (slots.countP isFull) = some ⟨after.countP isFull, after⟩) ∧
      Wired keys after ∧ after.length = slots.length ∧
      Meaning keys after (FiniteMap.put (Same keys) m key (some (key, value))) := by
  obtain ⟨i, spot⟩ := wired.exists_spot key
  refine ⟨unsafeSet i (.full key value) slots, ?_, ?_⟩
  · intro fuel enough
    rcases spot.stops with vacant | ⟨k, v, full, same⟩
    · rw [countP_claim spot.inside vacant]
      exact spot.probe_absent wired.power enough vacant _ _
    · rw [countP_overwrite full]
      exact spot.probe_found wired.power enough full same _ _
  · have free : ∃ q < slots.length, q ≠ i ∧ unsafeGet q slots = .empty := by
      rcases spot.stops with vacant | ⟨k, v, full, -⟩
      · exact room_vacant spot.inside vacant key value room
      · exact wired.room_found full
    obtain ⟨written, holds⟩ := wired.write spot value free
    exact ⟨written, length_unsafeSet i _, meaning.put holds⟩

/-- The initial capacity is a power of two. -/
theorem initialCapacity_power : ∃ p, initialCapacity = 2 ^ p := ⟨3, rfl⟩

/-- A fresh table has no entries. -/
theorem countP_replicate (cap : Nat) :
    (List.replicate cap (Slot.empty : Slot κ ν)).countP isFull = 0 := by
  rw [List.countP_replicate]
  rfl

/-- Inserting into a loaded table grows it first. -/
theorem insert_loaded {m : κ → Option (κ × ν)} (wired : Wired keys slots)
    (minimum : initialCapacity ≤ slots.length) (meaning : Meaning keys slots m)
    (loaded : slots.countP isFull * loadDenominator ≥ slots.length * loadNumerator) (key : κ)
    (value : ν) : ∃ after,
      Returns (fun fuel => insert keys fuel key value ⟨slots.countP isFull, slots⟩)
        ⟨after.countP isFull, after⟩ ∧
      Wired keys after ∧ after.length = slots.length * growthFactor ∧
      Meaning keys after (FiniteMap.put (Same keys) m key (some (key, value))) := by
  have positive : slots.length ≠ 0 := by
    unfold initialCapacity at minimum
    omega
  obtain ⟨bigger, grows, wiredBigger, capacity, holds, count⟩ := grow_spec wired
  have meaningBigger : Meaning keys bigger m := by
    intro a entry
    rw [meaning, holds]
  have few := List.countP_le_length (p := isFull) (l := slots)
  have room : bigger.countP isFull + 1 < bigger.length := by
    rw [count, capacity]
    unfold growthFactor
    unfold initialCapacity at minimum
    omega
  obtain ⟨after, runs, wiredAfter, length, written⟩ :=
    insertFrom_spec wiredBigger meaningBigger room key value
  rw [capacity] at length
  refine ⟨after, ⟨slots.length * growthFactor, ?_⟩, wiredAfter, length, written⟩
  intro fuel enough
  have result := runs fuel (by rw [capacity]; exact enough)
  rw [count, capacity] at result
  simp only [insert, if_neg positive, if_pos loaded, grows fuel enough]
  exact result

/-- Inserting returns a table that stands for the written map. -/
theorem insert_spec {m : κ → Option (κ × ν)} (represents : Represents keys d m) (key : κ)
    (value : ν) : ∃ after, Returns (fun fuel => insert keys fuel key value d) after ∧
      Represents keys after (FiniteMap.put (Same keys) m key (some (key, value))) := by
  obtain ⟨sound, meaning⟩ := represents
  cases sound with
  | empty =>
    have fresh : Wired keys (List.replicate initialCapacity (Slot.empty : Slot κ ν)) :=
      wired_replicate initialCapacity_power
    have length : (List.replicate initialCapacity (Slot.empty : Slot κ ν)).length =
        initialCapacity := List.length_replicate
    have blank : Meaning keys (List.replicate initialCapacity (Slot.empty : Slot κ ν)) m := by
      have none := meaning.unique (meaning_none fun i => rfl)
      rw [none]
      exact meaning_none fun i => unsafeGet_replicate _ i
    obtain ⟨after, runs, wired, capacity, written⟩ := insertFrom_spec fresh blank
      (by rw [countP_replicate, length]; decide) key value
    rw [length] at runs capacity
    refine ⟨⟨after.countP isFull, after⟩, ⟨initialCapacity, ?_⟩, .table wired ?_, written⟩
    · intro fuel enough
      have result := runs fuel enough
      rw [countP_replicate] at result
      exact result
    · rw [capacity]
  | @table slots wired minimum =>
    have positive : slots.length ≠ 0 := by
      unfold initialCapacity at minimum
      omega
    by_cases loaded : slots.countP isFull * loadDenominator ≥ slots.length * loadNumerator
    · obtain ⟨after, returns, wiredAfter, length, written⟩ :=
        insert_loaded wired minimum meaning loaded key value
      refine ⟨⟨after.countP isFull, after⟩, returns, .table wiredAfter ?_, written⟩
      rw [length]
      unfold growthFactor
      omega
    · have room : slots.countP isFull + 1 < slots.length := by
        unfold loadDenominator loadNumerator at loaded
        unfold initialCapacity at minimum
        omega
      obtain ⟨after, runs, wiredAfter, length, written⟩ :=
        insertFrom_spec wired meaning room key value
      refine ⟨⟨after.countP isFull, after⟩, ⟨slots.length, ?_⟩, .table wiredAfter ?_, written⟩
      · intro fuel enough
        simp only [insert, if_neg positive, if_neg loaded]
        exact runs fuel enough
      · rw [length]
        exact minimum

/-- Removing returns a table that stands for the map without the key. -/
theorem remove_spec {m : κ → Option (κ × ν)} (represents : Represents keys d m) (key : κ) :
    ∃ after, Returns (fun fuel => remove keys fuel key d) after ∧
      Represents keys after (FiniteMap.put (Same keys) m key none) := by
  have unchanged : m key = none → FiniteMap.put (Same keys) m key none = m := by
    intro absent
    funext a
    unfold FiniteMap.put
    by_cases same : Same keys a key
    · rw [if_pos same, represents.meaning.congr same, absent]
    · rw [if_neg same]
  obtain ⟨sound, meaning⟩ := represents
  cases sound with
  | empty =>
    have none := meaning.unique (meaning_none fun i => rfl)
    rw [unchanged (by rw [none]; rfl)]
    exact ⟨⟨0, []⟩, ⟨0, fun fuel _ => rfl⟩, .empty, meaning⟩
  | @table slots wired minimum =>
    have positive : slots.length ≠ 0 := by
      unfold initialCapacity at minimum
      omega
    obtain ⟨i, spot⟩ := wired.exists_spot key
    rcases spot.stops with vacant | ⟨k, v, full, same⟩
    · rw [unchanged (meaning.eq_none wired spot vacant)]
      refine ⟨⟨slots.countP isFull, slots⟩, ⟨slots.length, ?_⟩, .table wired minimum, meaning⟩
      intro fuel enough
      have found := spot.probe_absent wired.power enough vacant (fun _ => (none : Option Nat))
        fun i _ => some i
      simp only [remove, if_neg positive, findSlot, found]
    · obtain ⟨shifted, shifts, again, length, holds, count⟩ := wired.shift full
      have holdsKey : ∀ k' v', Holds shifted k' v' ↔ Holds slots k' v' ∧
          keys.eq key k' = false := by
        intro k' v'
        have equal : keys.eq k k' = keys.eq key k' := by
          rw [Bool.eq_iff_iff]
          exact ⟨keys.trans key k k' same, keys.trans k key k' (keys.symm key k same)⟩
        rw [holds, equal]
      refine ⟨⟨shifted.countP isFull, shifted⟩, ⟨slots.length, ?_⟩, .table again ?_,
        meaning.drop holdsKey⟩
      · intro fuel enough
        have found := spot.probe_found wired.power enough full same (fun _ => (none : Option Nat))
          fun i _ => some i
        simp only [remove, if_neg positive, findSlot, found, shifts fuel enough]
        have one : slots.countP isFull - 1 = shifted.countP isFull := by omega
        rw [one]
      · rw [length]
        exact minimum

/-- A probe of a table for a key answers by the map. -/
theorem probe_spec {m : κ → Option (κ × ν)} (wired : Wired keys slots)
    (meaning : Meaning keys slots m) (key : κ) (absent : α) (found : ν → α) {fuel : Nat}
    (enough : slots.length ≤ fuel) :
    probe (seeking keys key (fun _ => absent) fun _ v => found v) slots slots.length fuel
      (indexFor keys slots.length key) =
        some (((m key).map fun entry => found entry.2).getD absent) := by
  obtain ⟨i, spot⟩ := wired.exists_spot key
  rcases spot.stops with vacant | ⟨k, v, full, same⟩
  · rw [meaning.eq_none wired spot vacant]
    exact spot.probe_absent wired.power enough vacant _ _
  · rw [meaning.eq_some full same]
    exact spot.probe_found wired.power enough full same _ _

/-- The lookups of a table return what the map says. -/
theorem lookup_spec {m : κ → Option (κ × ν)} (represents : Represents keys d m) (key : κ) :
    Returns (fun fuel => get keys fuel key d) ((m key).map Prod.snd) ∧
      Returns (fun fuel => member keys fuel key d) (m key).isSome ∧
      ∀ fallback, Returns (fun fuel => getOr keys fuel fallback key d)
        (((m key).map Prod.snd).getD fallback) := by
  obtain ⟨sound, meaning⟩ := represents
  cases sound with
  | empty =>
    have none := meaning.unique (meaning_none fun i => rfl)
    rw [none]
    exact ⟨⟨0, fun _ _ => rfl⟩, ⟨0, fun _ _ => rfl⟩, fun _ => ⟨0, fun _ _ => rfl⟩⟩
  | @table slots wired minimum =>
    have positive : slots.length ≠ 0 := by
      unfold initialCapacity at minimum
      omega
    refine ⟨⟨slots.length, ?_⟩, ⟨slots.length, ?_⟩, fun fallback => ⟨slots.length, ?_⟩⟩
    · intro fuel enough
      simp only [get, if_neg positive, getFrom]
      rw [probe_spec wired meaning key none some enough]
      cases m key with
      | none => rfl
      | some => rfl
    · intro fuel enough
      simp only [member, if_neg positive, memberFrom]
      rw [probe_spec wired meaning key false (fun _ => true) enough]
      cases m key with
      | none => rfl
      | some => rfl
    · intro fuel enough
      simp only [getOr, if_neg positive, getOrFrom]
      rw [probe_spec wired meaning key fallback (fun v => v) enough]

/-- Updating returns a table that stands for the map with what the function makes of the value. -/
theorem update_spec {m : κ → Option (κ × ν)} (represents : Represents keys d m) (key : κ)
    (f : Option ν → Option ν) :
    ∃ after, Returns (fun fuel => update keys fuel key f d) after ∧
      Represents keys after (FiniteMap.put (Same keys) m key
        ((f ((m key).map Prod.snd)).map fun value => (key, value))) := by
  obtain ⟨bound, looks⟩ := (lookup_spec represents key).1
  cases made : f ((m key).map Prod.snd) with
  | none =>
    obtain ⟨after, ⟨most, removes⟩, represented⟩ := remove_spec represents key
    refine ⟨after, ⟨max bound most, fun fuel enough => ?_⟩, represented⟩
    simp only [update, looks fuel (by omega), made]
    exact removes fuel (by omega)
  | some value =>
    obtain ⟨after, ⟨most, inserts⟩, represented⟩ := insert_spec represents key value
    refine ⟨after, ⟨max bound most, fun fuel enough => ?_⟩, represented⟩
    simp only [update, looks fuel (by omega), made]
    exact inserts fuel (by omega)

/-- The probe for an absent key ends at an empty slot. -/
theorem Meaning.exists_vacant {m : κ → Option (κ × ν)} (meaning : Meaning keys slots m)
    (wired : Wired keys slots) {key : κ} (absent : m key = none) :
    ∃ i, Spot keys slots key i ∧ unsafeGet i slots = .empty := by
  obtain ⟨i, spot⟩ := wired.exists_spot key
  refine ⟨i, spot, ?_⟩
  rcases spot.stops with vacant | ⟨k, v, full, same⟩
  · exact vacant
  · rw [meaning.eq_some full same] at absent
    cases absent

/-- The table is at the load at which an insertion grows it. -/
def Loaded (d : HashDict κ ν) : Prop :=
  d.slots.length ≠ 0 ∧ d.count * loadDenominator ≥ d.slots.length * loadNumerator

/-- What storing a function of a key's value comes to, by the value that the function gives. -/
structure Stored (keys : HashedKey κ) (d : HashDict κ ν) (m : κ → Option (κ × ν)) (fallback : ν)
    (key : κ) (after : ν → HashDict κ ν) : Prop where
  /-- The function is run once, on the value looked up, and nothing else is. -/
  returns : ∃ bound, ∀ (M : Type → Type) [Monad M] (f : ν → M ν), ∀ fuel ≥ bound,
    updateOr keys fuel fallback f key d =
      f (((m key).map Prod.snd).getD fallback) >>= fun value => pure (some (after value))
  /-- The key is written. -/
  represents : ∀ value, Represents keys (after value)
    (FiniteMap.put (Same keys) m key (some (key, value)))
  /-- Unless the key is present in a loaded table, the table is the one that inserting gives. -/
  inserted : m key = none ∨ ¬ Loaded d →
    ∀ value, Returns (fun fuel => insert keys fuel key value d) (after value)

/-- Storing by a function without effects returns. -/
theorem Stored.updateOrPure {m : κ → Option (κ × ν)} {fallback : ν} {key : κ}
    {after : ν → HashDict κ ν} (stored : Stored keys d m fallback key after) (f : ν → ν) :
    Returns (fun fuel => updateOrPure keys fuel fallback f key d)
      (after (f (((m key).map Prod.snd).getD fallback))) := by
  obtain ⟨bound, runs⟩ := stored.returns
  refine ⟨bound, fun fuel enough => ?_⟩
  show Id.run (updateOr keys fuel fallback (fun value => (pure (f value) : Id ν)) key d) = _
  rw [runs Id (fun value => pure (f value)) fuel enough]
  rfl

/-- Storing into the empty dictionary. -/
theorem stored_empty {m : κ → Option (κ × ν)} (meaning : Meaning keys [] m) (fallback : ν)
    (key : κ) : ∃ after, Stored keys ⟨0, []⟩ m fallback key after := by
  have none := meaning.unique (meaning_none fun i => rfl)
  have fresh : Wired keys (List.replicate initialCapacity (Slot.empty : Slot κ ν)) :=
    wired_replicate initialCapacity_power
  have length : (List.replicate initialCapacity (Slot.empty : Slot κ ν)).length =
      initialCapacity := List.length_replicate
  have blank : Meaning keys (List.replicate initialCapacity (Slot.empty : Slot κ ν)) m := by
    rw [none]
    exact meaning_none fun i => unsafeGet_replicate _ i
  have home : Spot keys (List.replicate initialCapacity (Slot.empty : Slot κ ν)) key
      (indexFor keys initialCapacity key) := by
    refine ⟨?_, .inl (unsafeGet_replicate _ _), ?_⟩
    · rw [length]
      exact indexOf_lt initialCapacity_power _
    · intro x _ between
      rw [length] at between
      exact absurd between Cyclic.not_between_self
  have looked : ((m key).map Prod.snd).getD fallback = fallback := by
    rw [none]
    rfl
  refine ⟨fun value => ⟨1, unsafeSet (indexFor keys initialCapacity key) (.full key value)
    (List.replicate initialCapacity .empty)⟩, ?_, fun value => ?_, fun _ value => ?_⟩
  · rw [looked]
    exact ⟨0, fun M _ f fuel _ => rfl⟩
  · have room := room_vacant home.inside (unsafeGet_replicate _ _) key value
      (by rw [countP_replicate, length]; decide)
    obtain ⟨wired, holds⟩ := fresh.write home value room
    have count := countP_claim home.inside (unsafeGet_replicate _ _) key value
    rw [countP_replicate] at count
    have sound := Sound.table wired (by rw [length_unsafeSet, length])
    rw [count] at sound
    exact ⟨sound, blank.put holds⟩
  · refine ⟨initialCapacity, fun fuel enough => ?_⟩
    have fueled : (List.replicate initialCapacity (Slot.empty : Slot κ ν)).length ≤ fuel := by
      rw [length]
      exact enough
    have probed := home.probe_absent fresh.power fueled (unsafeGet_replicate _ _)
      (fun i => (⟨0 + 1, unsafeSet i (.full key value)
        (List.replicate initialCapacity .empty)⟩ : HashDict κ ν))
      (fun i _ => ⟨0, unsafeSet i (.full key value) (List.replicate initialCapacity .empty)⟩)
    rw [length] at probed
    exact probed

/-- Storing under a key that is present. -/
theorem stored_present {m : κ → Option (κ × ν)} (meaning : Meaning keys slots m)
    (wired : Wired keys slots) (minimum : initialCapacity ≤ slots.length) (fallback : ν)
    {key k : κ} {v : ν} {i : Nat} (spot : Spot keys slots key i)
    (full : unsafeGet i slots = .full k v) (same : keys.eq key k = true) :
    ∃ after, Stored keys ⟨slots.countP isFull, slots⟩ m fallback key after := by
  have positive : slots.length ≠ 0 := by
    unfold initialCapacity at minimum
    omega
  have present := meaning.eq_some full same
  have looked : ((m key).map Prod.snd).getD fallback = v := by
    rw [present]
    rfl
  have index : ∀ fuel ≥ slots.length, updateIndex keys fuel key slots slots.length
      (indexOf slots.length (keys.hash key)) = some i := fun fuel enough =>
    spot.probe_found wired.power enough full same _ _
  refine ⟨fun value => ⟨slots.countP isFull, unsafeSet i (.full key value) slots⟩, ?_,
    fun value => ?_, fun plain value => ?_⟩
  · rw [looked]
    refine ⟨slots.length, fun M _ f fuel enough => ?_⟩
    simp only [updateOr, if_neg positive, index fuel enough, full]
  · obtain ⟨written, holds⟩ := wired.write spot value (wired.room_found full)
    have sound := Sound.table written (by rw [length_unsafeSet]; exact minimum)
    rw [countP_overwrite full] at sound
    exact ⟨sound, meaning.put holds⟩
  · rcases plain with absent | light
    · rw [present] at absent
      cases absent
    · have unloaded : ¬ slots.countP isFull * loadDenominator ≥ slots.length * loadNumerator :=
        fun heavy => light ⟨positive, heavy⟩
      refine ⟨slots.length, fun fuel enough => ?_⟩
      simp only [insert, if_neg positive, if_neg unloaded]
      exact spot.probe_found wired.power enough full same _ _

/-- Storing under an absent key in a table with room. -/
theorem stored_absent {m : κ → Option (κ × ν)} (meaning : Meaning keys slots m)
    (wired : Wired keys slots) (minimum : initialCapacity ≤ slots.length) (fallback : ν)
    {key : κ} {i : Nat} (spot : Spot keys slots key i)
    (vacant : unsafeGet i slots = .empty)
    (unloaded : ¬ slots.countP isFull * loadDenominator ≥ slots.length * loadNumerator) :
    ∃ after, Stored keys ⟨slots.countP isFull, slots⟩ m fallback key after := by
  have positive : slots.length ≠ 0 := by
    unfold initialCapacity at minimum
    omega
  have looked : ((m key).map Prod.snd).getD fallback = fallback := by
    rw [meaning.eq_none wired spot vacant]
    rfl
  have index : ∀ fuel ≥ slots.length, updateIndex keys fuel key slots slots.length
      (indexOf slots.length (keys.hash key)) = some i := fun fuel enough =>
    spot.probe_absent wired.power enough vacant _ _
  have room : slots.countP isFull + 1 < slots.length := by
    unfold loadDenominator loadNumerator at unloaded
    unfold initialCapacity at minimum
    omega
  refine ⟨fun value => ⟨slots.countP isFull + 1, unsafeSet i (.full key value) slots⟩, ?_,
    fun value => ?_, fun _ value => ?_⟩
  · rw [looked]
    refine ⟨slots.length, fun M _ f fuel enough => ?_⟩
    simp only [updateOr, if_neg positive, index fuel enough, vacant, if_neg unloaded]
  · obtain ⟨written, holds⟩ := wired.write spot value
      (room_vacant spot.inside vacant key value room)
    have sound := Sound.table written (by rw [length_unsafeSet]; exact minimum)
    rw [countP_claim spot.inside vacant] at sound
    exact ⟨sound, meaning.put holds⟩
  · refine ⟨slots.length, fun fuel enough => ?_⟩
    simp only [insert, if_neg positive, if_neg unloaded]
    exact spot.probe_absent wired.power enough vacant _ _

/-- Storing under an absent key in a loaded table, which grows first. -/
theorem stored_grown {m : κ → Option (κ × ν)} (meaning : Meaning keys slots m)
    (wired : Wired keys slots) (minimum : initialCapacity ≤ slots.length) (fallback : ν)
    {key : κ} {i : Nat} (spot : Spot keys slots key i)
    (vacant : unsafeGet i slots = .empty)
    (loaded : slots.countP isFull * loadDenominator ≥ slots.length * loadNumerator) :
    ∃ after, Stored keys ⟨slots.countP isFull, slots⟩ m fallback key after := by
  have positive : slots.length ≠ 0 := by
    unfold initialCapacity at minimum
    omega
  have absent := meaning.eq_none wired spot vacant
  have looked : ((m key).map Prod.snd).getD fallback = fallback := by
    rw [absent]
    rfl
  obtain ⟨bigger, grows, wiredBigger, capacity, holds, count⟩ := grow_spec wired
  have meaningBigger : Meaning keys bigger m := by
    intro a entry
    rw [meaning, holds]
  have few := List.countP_le_length (p := isFull) (l := slots)
  have room : bigger.countP isFull + 1 < bigger.length := by
    rw [count, capacity]
    unfold growthFactor
    unfold initialCapacity at minimum
    omega
  obtain ⟨i2, spot2, vacant2⟩ := meaningBigger.exists_vacant wiredBigger absent
  refine ⟨fun value => ⟨slots.countP isFull + 1, unsafeSet i2 (.full key value) bigger⟩, ?_,
    fun value => ?_, fun _ value => ?_⟩
  · rw [looked]
    refine ⟨slots.length * growthFactor, fun M _ f fuel enough => ?_⟩
    have fueled : bigger.length ≤ fuel := by
      rw [capacity]
      exact enough
    have fueledSmall : slots.length ≤ fuel := by
      unfold growthFactor at enough
      omega
    have placed (value : ν) : place fuel key value bigger (slots.length * growthFactor)
        (indexOf (slots.length * growthFactor) (keys.hash key)) =
          some (unsafeSet i2 (.full key value) bigger) := by
      have probed := spot2.probe_vacant wiredBigger.power fueled vacant2
        (fun i => unsafeSet i (.full key value) bigger)
      rw [capacity] at probed
      exact probed
    have index : updateIndex keys fuel key slots slots.length
        (indexOf slots.length (keys.hash key)) = some i :=
      spot.probe_absent wired.power fueledSmall vacant _ _
    simp only [updateOr, if_neg positive, index, vacant, if_pos loaded, grows fuel enough, placed]
  · obtain ⟨written, holds2⟩ := wiredBigger.write spot2 value
      (room_vacant spot2.inside vacant2 key value room)
    have sound := Sound.table written (by
      rw [length_unsafeSet, capacity]
      unfold growthFactor
      omega)
    rw [countP_claim spot2.inside vacant2, count] at sound
    exact ⟨sound, meaningBigger.put holds2⟩
  · refine ⟨slots.length * growthFactor, fun fuel enough => ?_⟩
    have fueled : bigger.length ≤ fuel := by
      rw [capacity]
      exact enough
    have probed := spot2.probe_absent wiredBigger.power fueled vacant2
      (fun i => (⟨slots.countP isFull + 1, unsafeSet i (.full key value) bigger⟩ :
        HashDict κ ν))
      (fun i _ => ⟨slots.countP isFull, unsafeSet i (.full key value) bigger⟩)
    rw [capacity] at probed
    simp only [insert, if_neg positive, if_pos loaded, grows fuel enough]
    exact probed

/-- Storing what a function makes of a key's value. -/
theorem updateOr_spec {m : κ → Option (κ × ν)} (represents : Represents keys d m) (fallback : ν)
    (key : κ) : ∃ after, Stored keys d m fallback key after := by
  obtain ⟨sound, meaning⟩ := represents
  cases sound with
  | empty => exact stored_empty meaning fallback key
  | @table slots wired minimum =>
    obtain ⟨i, spot⟩ := wired.exists_spot key
    rcases spot.stops with vacant | ⟨k, v, full, same⟩
    · by_cases loaded : slots.countP isFull * loadDenominator ≥ slots.length * loadNumerator
      · exact stored_grown meaning wired minimum fallback spot vacant loaded
      · exact stored_absent meaning wired minimum fallback spot vacant loaded
    · exact stored_present meaning wired minimum fallback spot full same

end HashDict

end Fai.Collections
