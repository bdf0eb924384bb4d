import FaiVerif.Collections.HashDict
import FaiVerif.Lib.Cyclic
import Mathlib.Data.List.GetD

/-!
# Probes of the hash dictionary

A table is wired when every entry is reached from its home bucket without crossing an empty slot.
Then every probe for a key ends, at the key's own slot or at the first empty one, and writing the
key there keeps the table wired.
-/

namespace Fai.Collections

namespace HashDict

open Cyclic

variable {κ ν ω α : Type} {keys : HashedKey κ} {slots : List (Slot κ ν)}

/-- Whether a slot holds an entry. -/
def isFull : Slot κ ν → Bool
  | .empty => false
  | .full _ _ => true

/-- A full slot is within the table. -/
theorem lt_of_full {i : Nat} {k : κ} {v : ν} (full : unsafeGet i slots = .full k v) :
    i < slots.length := by
  by_contra outside
  rw [unsafeGet, List.getD_eq_default _ _ (by omega)] at full
  cases full

/-- The slot just written. -/
@[simp] theorem unsafeGet_unsafeSet_same {i : Nat} (inside : i < slots.length) (slot : Slot κ ν) :
    unsafeGet i (unsafeSet i slot slots) = slot := by
  simp [unsafeGet, unsafeSet, inside]

/-- Another slot. -/
theorem unsafeGet_unsafeSet_other {i j : Nat} (other : j ≠ i) (slot : Slot κ ν) :
    unsafeGet j (unsafeSet i slot slots) = unsafeGet j slots := by
  simp [unsafeGet, unsafeSet, List.getElem?_set_ne (Ne.symm other)]

/-- Writing a slot keeps the length. -/
@[simp] theorem length_unsafeSet (i : Nat) (slot : Slot κ ν) :
    (unsafeSet i slot slots).length = slots.length :=
  List.length_set

/-- The slots of a fresh table. -/
@[simp] theorem unsafeGet_replicate (cap i : Nat) :
    unsafeGet i (List.replicate cap (Slot.empty : Slot κ ν)) = .empty := by
  by_cases inside : i < cap
  · simp [unsafeGet, inside]
  · rw [unsafeGet, List.getD_eq_default]
    rw [List.length_replicate]
    omega

/-- A table that is not full has an empty slot. -/
theorem exists_vacant (room : slots.countP isFull < slots.length) :
    ∃ q < slots.length, unsafeGet q slots = .empty := by
  by_contra none
  refine absurd (List.countP_eq_length.mpr ?_) (Nat.ne_of_lt room)
  intro slot inside
  obtain ⟨i, bound, held⟩ := List.mem_iff_getElem.mp inside
  cases slot with
  | full => rfl
  | empty =>
    refine absurd ⟨i, bound, ?_⟩ none
    rw [unsafeGet, List.getD_eq_getElem _ _ bound, held]

/-- The number of entries after writing a slot. -/
theorem countP_unsafeSet {i : Nat} (inside : i < slots.length) (slot : Slot κ ν) :
    (unsafeSet i slot slots).countP isFull + (if isFull (unsafeGet i slots) then 1 else 0) =
      slots.countP isFull + if isFull slot then 1 else 0 := by
  have held : unsafeGet i slots = slots[i] := List.getD_eq_getElem _ _ inside
  rw [unsafeSet, List.countP_set inside, held]
  have counted : isFull slots[i] = true → 0 < slots.countP isFull := fun full =>
    List.countP_pos_iff.mpr ⟨slots[i], List.getElem_mem inside, full⟩
  split
  · have := counted (by assumption)
    omega
  · omega

/-- Claiming an empty slot adds an entry. -/
theorem countP_claim {i : Nat} (inside : i < slots.length) (vacant : unsafeGet i slots = .empty)
    (key : κ) (value : ν) :
    (unsafeSet i (.full key value) slots).countP isFull = slots.countP isFull + 1 := by
  have counted := countP_unsafeSet inside (.full key value)
  rw [vacant] at counted
  exact counted

/-- Overwriting a full slot keeps the number of entries. -/
theorem countP_overwrite {i : Nat} {k : κ} {v : ν} (full : unsafeGet i slots = .full k v)
    (key : κ) (value : ν) :
    (unsafeSet i (.full key value) slots).countP isFull = slots.countP isFull := by
  have counted := countP_unsafeSet (lt_of_full full) (.full key value)
  rw [full] at counted
  exact Nat.add_right_cancel counted

/-- Vacating a full slot drops an entry. -/
theorem countP_vacate {i : Nat} {k : κ} {v : ν} (full : unsafeGet i slots = .full k v) :
    (unsafeSet i .empty slots).countP isFull + 1 = slots.countP isFull := by
  have counted := countP_unsafeSet (lt_of_full full) .empty
  rw [full] at counted
  exact counted

/-- A home bucket is one of the table. -/
theorem indexOf_lt {cap : Nat} (power : ∃ p, cap = 2 ^ p) (hash : Nat) :
    indexOf cap hash < cap := by
  obtain ⟨p, rfl⟩ := power
  rw [indexOf, Nat.and_two_pow_sub_one_eq_mod]
  exact Nat.mod_lt _ (Nat.two_pow_pos p)

/-- The next bucket is the next position around the table. -/
theorem next_eq {cap i : Nat} (power : ∃ p, cap = 2 ^ p) (inside : i < cap) :
    next cap i = succ cap i := by
  obtain ⟨p, rfl⟩ := power
  rw [next, Nat.and_two_pow_sub_one_eq_mod, succ]
  split
  · rename_i last
    rw [last, Nat.mod_self]
  · exact Nat.mod_eq_of_lt (by omega)

/-- A probe answers at the first slot that settles it. -/
theorem probe_eq {settle : Nat → Slot κ ν → Option α} {answer : α} {stop : Nat}
    (power : ∃ p, slots.length = 2 ^ p) (stopIn : stop < slots.length)
    (settles : settle stop (unsafeGet stop slots) = some answer) : ∀ start < slots.length,
    (∀ x < slots.length, Between start x stop → settle x (unsafeGet x slots) = none) →
    ∀ fuel, distance slots.length start stop < fuel →
      probe settle slots slots.length fuel start = some answer := by
  refine run_induction stopIn ?_ ?_
  · intro _ fuel enough
    obtain ⟨more, rfl⟩ : ∃ more, fuel = more + 1 := ⟨fuel - 1, by omega⟩
    simp only [probe, settles]
  · intro i inside differ induct passes fuel enough
    obtain ⟨more, rfl⟩ : ∃ more, fuel = more + 1 := ⟨fuel - 1, by omega⟩
    have here := passes i inside (between_start differ)
    have nearer := distance_succ differ inside stopIn
    simp only [probe, here]
    rw [next_eq power inside]
    refine induct ?_ more (by omega)
    intro x xIn between
    exact passes x xIn ((between_iff_succ differ stopIn xIn).mpr (.inr between))

/-- The slots of a table in which every probe works. -/
structure Wired (keys : HashedKey κ) (slots : List (Slot κ ν)) : Prop where
  /-- The capacity is a power of two. -/
  power : ∃ p, slots.length = 2 ^ p
  /-- Some slot is empty. -/
  vacant : ∃ q < slots.length, unsafeGet q slots = .empty
  /-- No two slots hold equal keys. -/
  distinct : ∀ i j k v k' v', unsafeGet i slots = .full k v → unsafeGet j slots = .full k' v' →
    keys.eq k k' = true → i = j
  /-- Every entry is reached from its home bucket without crossing an empty slot. -/
  reached : ∀ i k v, unsafeGet i slots = .full k v → ∀ x < slots.length,
    Between (indexFor keys slots.length k) x i → unsafeGet x slots ≠ .empty

/-- Some slot holds the entry. -/
def Holds (slots : List (Slot κ ν)) (k : κ) (v : ν) : Prop := ∃ i, unsafeGet i slots = .full k v

/-- Where the probe for a key ends. -/
structure Spot (keys : HashedKey κ) (slots : List (Slot κ ν)) (key : κ) (i : Nat) : Prop where
  /-- The slot is one of the table. -/
  inside : i < slots.length
  /-- The slot is empty or the key's own. -/
  stops : unsafeGet i slots = .empty ∨ ∃ k v, unsafeGet i slots = .full k v ∧ keys.eq key k = true
  /-- The slots before it hold other keys. -/
  passes : ∀ x < slots.length, Between (indexFor keys slots.length key) x i →
    ∃ k v, unsafeGet x slots = .full k v ∧ keys.eq key k = false

/-- Equal keys have the same home bucket. -/
theorem indexFor_eq {a b : κ} (same : keys.eq a b = true) (cap : Nat) :
    indexFor keys cap a = indexFor keys cap b := by
  rw [indexFor, indexFor, keys.hash_eq a b same]

namespace Wired

/-- The home bucket of a key is one of the table. -/
theorem home_lt (wired : Wired keys slots) (key : κ) :
    indexFor keys slots.length key < slots.length :=
  indexOf_lt wired.power _

/-- The probe for a key ends somewhere. -/
theorem exists_spot (wired : Wired keys slots) (key : κ) : ∃ i, Spot keys slots key i := by
  obtain ⟨q, inside, vacant⟩ := wired.vacant
  obtain ⟨stop, stopIn, stops, before⟩ := exists_first (fun i =>
    unsafeGet i slots = .empty ∨ ∃ k v, unsafeGet i slots = .full k v ∧ keys.eq key k = true)
    inside (.inl vacant) (wired.home_lt key)
  refine ⟨stop, stopIn, stops, ?_⟩
  intro x xIn between
  have other := before x xIn between
  cases held : unsafeGet x slots with
  | empty => exact absurd (.inl held) other
  | full k v =>
    refine ⟨k, v, rfl, ?_⟩
    rw [← Bool.not_eq_true]
    exact fun same => other (.inr ⟨k, v, held, same⟩)

/-- A probe that ends at an empty slot leaves the key in no slot. -/
theorem absent (wired : Wired keys slots) {key : κ} {i : Nat} (spot : Spot keys slots key i)
    (vacant : unsafeGet i slots = .empty) {j : Nat} {k : κ} {v : ν}
    (full : unsafeGet j slots = .full k v) : keys.eq key k = false := by
  rw [← Bool.not_eq_true]
  intro same
  have home := indexFor_eq same slots.length
  have differ : j ≠ i := by
    intro equal
    rw [equal, vacant] at full
    cases full
  rcases between_or_between (indexFor keys slots.length key) differ with before | after
  · obtain ⟨k', v', full', other⟩ := spot.passes j (lt_of_full full) before
    rw [full] at full'
    cases full'
    rw [same] at other
    cases other
  · rw [home] at after
    exact wired.reached j k v full i spot.inside after vacant

end Wired

namespace Spot

variable {key : κ} {i fuel : Nat}

/-- The fuel that a probe needs. -/
theorem enough (spot : Spot keys slots key i) (power : ∃ p, slots.length = 2 ^ p)
    (fueled : slots.length ≤ fuel) :
    distance slots.length (indexFor keys slots.length key) i < fuel :=
  Nat.lt_of_lt_of_le (distance_lt (indexOf_lt power _) spot.inside) fueled

/-- A probe for an absent key. -/
theorem probe_absent (spot : Spot keys slots key i) (power : ∃ p, slots.length = 2 ^ p)
    (fueled : slots.length ≤ fuel) (vacant : unsafeGet i slots = .empty) (absent : Nat → α)
    (found : Nat → ν → α) :
    probe (seeking keys key absent found) slots slots.length fuel
      (indexFor keys slots.length key) = some (absent i) := by
  refine probe_eq power spot.inside ?_ _ (indexOf_lt power _) ?_ fuel (spot.enough power fueled)
  · rw [vacant, seeking]
  · intro x xIn between
    obtain ⟨k, v, full, other⟩ := spot.passes x xIn between
    rw [full, seeking, other]
    rfl

/-- A probe for a present key. -/
theorem probe_found (spot : Spot keys slots key i) (power : ∃ p, slots.length = 2 ^ p)
    (fueled : slots.length ≤ fuel) {k : κ} {v : ν} (full : unsafeGet i slots = .full k v)
    (same : keys.eq key k = true) (absent : Nat → α) (found : Nat → ν → α) :
    probe (seeking keys key absent found) slots slots.length fuel
      (indexFor keys slots.length key) = some (found i v) := by
  refine probe_eq power spot.inside ?_ _ (indexOf_lt power _) ?_ fuel (spot.enough power fueled)
  · rw [full, seeking, same]
    rfl
  · intro x xIn between
    obtain ⟨k, v, full, other⟩ := spot.passes x xIn between
    rw [full, seeking, other]
    rfl

/-- A probe for a free slot. -/
theorem probe_vacant (spot : Spot keys slots key i) (power : ∃ p, slots.length = 2 ^ p)
    (fueled : slots.length ≤ fuel) (vacant : unsafeGet i slots = .empty) (absent : Nat → α) :
    probe (vacating absent) slots slots.length fuel (indexFor keys slots.length key) =
      some (absent i) := by
  refine probe_eq power spot.inside ?_ _ (indexOf_lt power _) ?_ fuel (spot.enough power fueled)
  · rw [vacant, vacating]
  · intro x xIn between
    obtain ⟨k, v, full, other⟩ := spot.passes x xIn between
    rw [full, vacating]

end Spot

/-- Writing a key where its probe ends keeps the table wired and overrides the key's entry. -/
theorem Wired.write (wired : Wired keys slots) {key : κ} {i : Nat}
    (spot : Spot keys slots key i) (value : ν)
    (room : ∃ q < slots.length, q ≠ i ∧ unsafeGet q slots = .empty) :
    Wired keys (unsafeSet i (.full key value) slots) ∧
      ∀ k v, Holds (unsafeSet i (.full key value) slots) k v ↔
        k = key ∧ v = value ∨ Holds slots k v ∧ keys.eq key k = false := by
  have here : unsafeGet i (unsafeSet i (.full key value) slots) = .full key value :=
    unsafeGet_unsafeSet_same spot.inside _
  have elsewhere : ∀ j, j ≠ i →
      unsafeGet j (unsafeSet i (.full key value) slots) = unsafeGet j slots := fun j other =>
    unsafeGet_unsafeSet_other other _
  -- no other slot has the key: the probe would have met it, or it would not be reached
  have others : ∀ j k v, j ≠ i → unsafeGet j slots = .full k v → keys.eq key k = false := by
    intro j k v other full
    rcases spot.stops with vacant | ⟨k', v', full', same⟩
    · exact wired.absent spot vacant full
    · rw [← Bool.not_eq_true]
      intro equal
      exact other (wired.distinct j i k v k' v' full full'
        (keys.trans k key k' (keys.symm key k equal) same))
  have kept : ∀ x, unsafeGet x slots ≠ .empty →
      unsafeGet x (unsafeSet i (.full key value) slots) ≠ .empty := by
    intro x full
    by_cases at_ : x = i
    · rw [at_, here]
      exact nofun
    · rw [elsewhere x at_]
      exact full
  refine ⟨⟨?_, ?_, ?_, ?_⟩, ?_⟩
  · rw [length_unsafeSet]
    exact wired.power
  · obtain ⟨q, inside, other, vacant⟩ := room
    refine ⟨q, ?_, ?_⟩
    · rw [length_unsafeSet]
      exact inside
    · rw [elsewhere q other]
      exact vacant
  · intro a b k v k' v' first second same
    by_cases atA : a = i
    · by_cases atB : b = i
      · rw [atA, atB]
      · rw [atA, here] at first
        rw [elsewhere b atB] at second
        cases first
        have other := others b k' v' atB second
        rw [same] at other
        cases other
    · rw [elsewhere a atA] at first
      by_cases atB : b = i
      · rw [atB, here] at second
        cases second
        have other := others a k v atA first
        rw [keys.symm _ _ same] at other
        cases other
      · rw [elsewhere b atB] at second
        exact wired.distinct a b k v k' v' first second same
  · intro j k v full x xIn between
    rw [length_unsafeSet] at xIn between
    apply kept
    by_cases at_ : j = i
    · rw [at_] at full between
      rw [here] at full
      cases full
      obtain ⟨k', v', full', -⟩ := spot.passes x xIn between
      rw [full']
      exact nofun
    · rw [elsewhere j at_] at full
      exact wired.reached j k v full x xIn between
  · intro k v
    constructor
    · rintro ⟨j, full⟩
      by_cases at_ : j = i
      · rw [at_, here] at full
        cases full
        exact .inl ⟨rfl, rfl⟩
      · rw [elsewhere j at_] at full
        exact .inr ⟨⟨j, full⟩, others j k v at_ full⟩
    · rintro (⟨rfl, rfl⟩ | ⟨⟨j, full⟩, other⟩)
      · exact ⟨i, here⟩
      · refine ⟨j, ?_⟩
        by_cases at_ : j = i
        · rcases spot.stops with vacant | ⟨k', v', full', same⟩
          · rw [at_, vacant] at full
            cases full
          · rw [at_, full'] at full
            cases full
            rw [same] at other
            cases other
        · rw [elsewhere j at_]
          exact full

/-- Where a key is already present there is room to write it. -/
theorem Wired.room_found (wired : Wired keys slots) {i : Nat} {k : κ} {v : ν}
    (full : unsafeGet i slots = .full k v) :
    ∃ q < slots.length, q ≠ i ∧ unsafeGet q slots = .empty := by
  obtain ⟨q, inside, vacant⟩ := wired.vacant
  refine ⟨q, inside, ?_, vacant⟩
  intro same
  rw [same, full] at vacant
  cases vacant

/-- Where an entry leaves a slot free there is room to write it. -/
theorem room_vacant {i : Nat} (inside : i < slots.length) (vacant : unsafeGet i slots = .empty)
    (key : κ) (value : ν) (room : slots.countP isFull + 1 < slots.length) :
    ∃ q < slots.length, q ≠ i ∧ unsafeGet q slots = .empty := by
  have claimed : (unsafeSet i (.full key value) slots).countP isFull <
      (unsafeSet i (.full key value) slots).length := by
    rw [countP_claim inside vacant, length_unsafeSet]
    exact room
  obtain ⟨q, qIn, left⟩ := exists_vacant claimed
  rw [length_unsafeSet] at qIn
  have other : q ≠ i := by
    intro same
    rw [same, unsafeGet_unsafeSet_same inside] at left
    cases left
  rw [unsafeGet_unsafeSet_other other] at left
  exact ⟨q, qIn, other, left⟩

/-- A fresh table is wired. -/
theorem wired_replicate {cap : Nat} (power : ∃ p, cap = 2 ^ p) :
    Wired keys (List.replicate cap (Slot.empty : Slot κ ν)) := by
  have length : (List.replicate cap (Slot.empty : Slot κ ν)).length = cap := List.length_replicate
  refine ⟨?_, ?_, ?_, ?_⟩
  · rw [length]
    exact power
  · refine ⟨0, ?_, unsafeGet_replicate cap 0⟩
    obtain ⟨p, rfl⟩ := power
    rw [length]
    exact Nat.two_pow_pos p
  · intro i j k v k' v' full
    rw [unsafeGet_replicate] at full
    cases full
  · intro i k v full
    rw [unsafeGet_replicate] at full
    cases full

/-- The entries of one more slot. -/
theorem countP_take_succ {i : Nat} (inside : i < slots.length) :
    (slots.take (i + 1)).countP isFull =
      (slots.take i).countP isFull + if isFull (unsafeGet i slots) then 1 else 0 := by
  have held : unsafeGet i slots = slots[i] := List.getD_eq_getElem _ _ inside
  rw [List.take_add_one, List.getElem?_eq_getElem inside, List.countP_append, held]
  simp [List.countP_cons]

/-- What has been copied into a larger table after the first slots. -/
structure Copied (keys : HashedKey κ) (old : List (Slot κ ν)) (i : Nat)
    (newSlots : List (Slot κ ν)) (newCap : Nat) : Prop where
  /-- The new table is wired. -/
  wired : Wired keys newSlots
  /-- The new table has the new capacity. -/
  capacity : newSlots.length = newCap
  /-- It holds the entries of the slots so far. -/
  holds : ∀ k v, Holds newSlots k v ↔ ∃ j < i, unsafeGet j old = .full k v
  /-- It holds as many as they do. -/
  count : newSlots.countP isFull = (old.take i).countP isFull

/-- Placing one more entry. -/
theorem Copied.place {old newSlots : List (Slot κ ν)} {i newCap : Nat}
    (copied : Copied keys old i newSlots newCap) (wired : Wired keys old)
    (larger : old.length < newCap) {k : κ} {v : ν} (full : unsafeGet i old = .full k v) :
    ∃ placed, (∀ fuel ≥ newCap, placeEntry fuel (.full k v) newSlots newCap
        (indexFor keys newCap k) = some placed) ∧ Copied keys old (i + 1) placed newCap := by
  obtain ⟨spotIndex, spot⟩ := copied.wired.exists_spot k
  have inside := lt_of_full full
  have vacant : unsafeGet spotIndex newSlots = .empty := by
    rcases spot.stops with vacant | ⟨k', v', full', same⟩
    · exact vacant
    · obtain ⟨j, less, earlier⟩ := (copied.holds k' v').mp ⟨spotIndex, full'⟩
      have equal := wired.distinct i j k v k' v' full earlier same
      omega
  have few : (old.take i).countP isFull ≤ i :=
    Nat.le_trans (List.countP_le_length) (by rw [List.length_take]; omega)
  have room : newSlots.countP isFull + 1 < newSlots.length := by
    rw [copied.count, copied.capacity]
    omega
  obtain ⟨written, holds⟩ := copied.wired.write spot v (room_vacant spot.inside vacant k v room)
  refine ⟨unsafeSet spotIndex (.full k v) newSlots, ?_, written, ?_, ?_, ?_⟩
  · intro fuel enough
    have fueled : newSlots.length ≤ fuel := by
      rw [copied.capacity]
      exact enough
    have probed := spot.probe_vacant copied.wired.power fueled vacant
      (fun i => unsafeSet i (.full k v) newSlots)
    rw [copied.capacity] at probed
    exact probed
  · rw [length_unsafeSet]
    exact copied.capacity
  · intro k' v'
    rw [holds, copied.holds]
    constructor
    · rintro (⟨rfl, rfl⟩ | ⟨⟨j, less, earlier⟩, -⟩)
      · exact ⟨i, Nat.lt_succ_self i, full⟩
      · exact ⟨j, by omega, earlier⟩
    · rintro ⟨j, less, held⟩
      by_cases same : j = i
      · rw [same, full] at held
        cases held
        exact .inl ⟨rfl, rfl⟩
      · refine .inr ⟨⟨j, by omega, held⟩, ?_⟩
        rw [← Bool.not_eq_true]
        intro equal
        exact same (wired.distinct i j k v k' v' full held equal).symm
  · rw [countP_claim spot.inside vacant, copied.count, countP_take_succ inside, full]
    rfl

/-- Rehashing copies the remaining slots. -/
theorem rehash_spec {old : List (Slot κ ν)} {newCap : Nat} (wired : Wired keys old)
    (larger : old.length < newCap) : ∀ left i newSlots, old.length - i = left → i ≤ old.length →
    Copied keys old i newSlots newCap → ∃ placed,
      (∀ fuel ≥ newCap, rehash keys fuel old old.length i newSlots newCap = some placed) ∧
        Copied keys old old.length placed newCap := by
  intro left
  induction left with
  | zero =>
    intro i newSlots leftover within copied
    have done : i = old.length := by omega
    refine ⟨newSlots, ?_, done ▸ copied⟩
    intro fuel _
    rw [rehash, if_pos (by omega)]
  | succ left induct =>
    intro i newSlots leftover within copied
    have inside : i < old.length := by omega
    cases held : unsafeGet i old with
    | empty =>
      have skipped : Copied keys old (i + 1) newSlots newCap := by
        refine ⟨copied.wired, copied.capacity, ?_, ?_⟩
        · intro k v
          rw [copied.holds]
          constructor
          · rintro ⟨j, less, full⟩
            exact ⟨j, by omega, full⟩
          · rintro ⟨j, less, full⟩
            have other : j ≠ i := by
              intro same
              rw [same, held] at full
              cases full
            exact ⟨j, by omega, full⟩
        · rw [copied.count, countP_take_succ inside, held]
          rfl
      obtain ⟨placed, runs, whole⟩ := induct (i + 1) newSlots (by omega) (by omega) skipped
      refine ⟨placed, ?_, whole⟩
      intro fuel enough
      rw [rehash, if_neg (by omega), held]
      exact runs fuel enough
    | full k v =>
      obtain ⟨middle, places, more⟩ := copied.place wired larger held
      obtain ⟨placed, runs, whole⟩ := induct (i + 1) middle (by omega) (by omega) more
      refine ⟨placed, ?_, whole⟩
      intro fuel enough
      rw [rehash, if_neg (by omega), held]
      simp only [places fuel enough]
      exact runs fuel enough

/-- Growing a table keeps its entries. -/
theorem grow_spec (wired : Wired keys slots) : ∃ bigger,
    (∀ fuel ≥ slots.length * growthFactor, grow keys fuel slots slots.length = some bigger) ∧
      Wired keys bigger ∧ bigger.length = slots.length * growthFactor ∧
      (∀ k v, Holds bigger k v ↔ Holds slots k v) ∧
      bigger.countP isFull = slots.countP isFull := by
  obtain ⟨p, power⟩ := wired.power
  have positive := Nat.two_pow_pos p
  have larger : slots.length < slots.length * growthFactor := by
    unfold growthFactor
    omega
  have powerful : ∃ p, slots.length * growthFactor = 2 ^ p := by
    refine ⟨p + 2, ?_⟩
    rw [power, growthFactor, Nat.pow_add]
  have start : Copied keys slots 0
      (List.replicate (slots.length * growthFactor) (Slot.empty : Slot κ ν))
      (slots.length * growthFactor) := by
    refine ⟨wired_replicate powerful, List.length_replicate, ?_, ?_⟩
    · intro k v
      constructor
      · rintro ⟨j, full⟩
        rw [unsafeGet_replicate] at full
        cases full
      · rintro ⟨j, less, -⟩
        exact absurd less (Nat.not_lt_zero j)
    · rw [List.take_zero, List.countP_nil, List.countP_replicate]
      rfl
  obtain ⟨bigger, runs, copied⟩ := rehash_spec wired larger _ 0 _ rfl (Nat.zero_le _) start
  refine ⟨bigger, runs, copied.wired, copied.capacity, ?_, ?_⟩
  · intro k v
    rw [copied.holds]
    constructor
    · rintro ⟨j, -, full⟩
      exact ⟨j, full⟩
    · rintro ⟨j, full⟩
      exact ⟨j, lt_of_full full, full⟩
  · rw [copied.count, List.take_length]

end HashDict

end Fai.Collections
