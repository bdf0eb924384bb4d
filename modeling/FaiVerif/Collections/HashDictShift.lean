import FaiVerif.Collections.HashDictProbe

/-!
# Backward-shift deletion

While a hole is carried forward, every entry but the one in the hole is still reached from its home
bucket when the hole counts as full, and the entries between the hole and the scan have their homes
after the hole. So when the scan meets an empty slot no probe chain crosses the hole any more.
-/

namespace Fai.Collections

namespace HashDict

open Cyclic

variable {κ ν : Type} {keys : HashedKey κ} {slots : List (Slot κ ν)} {cap hole j : Nat}

/-- A table with a hole, whose slots up to the scan have been settled. -/
structure Holed (keys : HashedKey κ) (cap : Nat) (slots : List (Slot κ ν)) (hole j : Nat) :
    Prop where
  /-- The capacity is the one the probes use. -/
  capacity : slots.length = cap
  /-- The capacity is a power of two. -/
  power : ∃ p, cap = 2 ^ p
  /-- The hole still holds the entry that has left it. -/
  stale : unsafeGet hole slots ≠ .empty
  /-- The scan is within the table. -/
  scanned : j < cap
  /-- The scan is ahead of the hole. -/
  ahead : j ≠ hole
  /-- No two other slots hold equal keys. -/
  distinct : ∀ a b k v k' v', a ≠ hole → b ≠ hole → unsafeGet a slots = .full k v →
    unsafeGet b slots = .full k' v' → keys.eq k k' = true → a = b
  /-- Every other entry is reached when the hole counts as full. -/
  reached : ∀ i k v, i ≠ hole → unsafeGet i slots = .full k v → ∀ x < cap,
    Between (indexFor keys cap k) x i → unsafeGet x slots ≠ .empty
  /-- The entries between the hole and the scan stay where they are. -/
  kept : ∀ x < cap, x ≠ hole → Between hole x j → ∃ k v, unsafeGet x slots = .full k v ∧
    keepInPlace hole (indexFor keys cap k) x = true

/-- Some slot other than the hole holds the entry. -/
def HoldsBut (slots : List (Slot κ ν)) (hole : Nat) (k : κ) (v : ν) : Prop :=
  ∃ i, i ≠ hole ∧ unsafeGet i slots = .full k v

/-- A slot that is not empty is within the table. -/
theorem lt_of_ne_empty {i : Nat} (full : unsafeGet i slots ≠ .empty) : i < slots.length := by
  cases held : unsafeGet i slots with
  | empty => exact absurd held full
  | full => exact lt_of_full held

/-- An entry whose chain crosses the hole may be moved into it. -/
theorem keepInPlace_of_between {home i : Nat} (crosses : Between home hole i) :
    keepInPlace hole home i = false := by
  unfold Between at crosses
  unfold keepInPlace
  split at crosses
  · split
    · simp
      omega
    · simp
      omega
  · split
    · simp
      omega
    · simp
      omega

/-- What follows the hole in a chain that crosses it belongs to the chain. -/
theorem between_of_crosses {home i x : Nat} (crosses : Between home hole i)
    (after : Between hole x i) : Between home x i := by
  unfold Between at *
  by_cases plain : home ≤ i
  · rw [if_pos plain] at crosses ⊢
    split at after
    · omega
    · omega
  · rw [if_neg plain] at crosses ⊢
    split at after
    · omega
    · omega

/-- The chain of a moved entry up to the hole is part of its chain. -/
theorem between_of_moved {home x : Nat} (moved : keepInPlace hole home j = false)
    (before : Between home x hole) : Between home x j := by
  unfold keepInPlace at moved
  unfold Between at *
  split at moved
  · simp at moved
    split at before
    · split
      · omega
      · omega
    · split
      · omega
      · omega
  · simp at moved
    split at before
    · split
      · omega
      · omega
    · split
      · omega
      · omega

/-- A scan that has come round to the hole has passed every other slot. -/
theorem between_of_round {q : Nat} (inside : q < cap)
    (round : succ cap j = hole) (other : q ≠ j) : Between hole q j := by
  unfold succ at round
  unfold Between
  split at round
  · split
    · omega
    · omega
  · split
    · omega
    · omega

namespace Holed

/-- The hole is within the table. -/
theorem hole_lt (holed : Holed keys cap slots hole j) : hole < cap := by
  have inside := lt_of_ne_empty holed.stale
  rw [holed.capacity] at inside
  exact inside

/-- Closing the hole at an empty slot leaves a wired table. -/
theorem close (holed : Holed keys cap slots hole j) (vacant : unsafeGet j slots = .empty) :
    Wired keys (unsafeSet hole .empty slots) ∧
      ∀ k v, Holds (unsafeSet hole .empty slots) k v ↔ HoldsBut slots hole k v := by
  have inside : hole < slots.length := lt_of_ne_empty holed.stale
  have here : unsafeGet hole (unsafeSet hole .empty slots) = (.empty : Slot κ ν) :=
    unsafeGet_unsafeSet_same inside _
  have elsewhere : ∀ i, i ≠ hole →
      unsafeGet i (unsafeSet hole .empty slots) = unsafeGet i slots := fun i other =>
    unsafeGet_unsafeSet_other other _
  have another : ∀ i k v, unsafeGet i (unsafeSet hole .empty slots) = .full k v →
      i ≠ hole ∧ unsafeGet i slots = .full k v := by
    intro i k v full
    by_cases same : i = hole
    · rw [same, here] at full
      cases full
    · rw [elsewhere i same] at full
      exact ⟨same, full⟩
  refine ⟨⟨?_, ?_, ?_, ?_⟩, ?_⟩
  · rw [length_unsafeSet, holed.capacity]
    exact holed.power
  · refine ⟨hole, ?_, here⟩
    rw [length_unsafeSet]
    exact inside
  · intro a b k v k' v' first second same
    obtain ⟨otherA, fullA⟩ := another a k v first
    obtain ⟨otherB, fullB⟩ := another b k' v' second
    exact holed.distinct a b k v k' v' otherA otherB fullA fullB same
  · intro i k v full x xIn between
    rw [length_unsafeSet, holed.capacity] at xIn between
    obtain ⟨other, held⟩ := another i k v full
    by_cases same : x = hole
    · -- the chain crosses the hole, so the entry lies before the scan and should have moved
      rw [same] at between
      have differ : i ≠ j := by
        intro equal
        rw [equal, vacant] at held
        cases held
      have beyond : ¬ Between hole j i := by
        intro after
        exact holed.reached i k v other held j holed.scanned
          (between_of_crosses between after) vacant
      have before := (between_or_between hole differ).resolve_right beyond
      have bound := lt_of_full held
      rw [holed.capacity] at bound
      obtain ⟨k', v', held', stays⟩ := holed.kept i bound other before
      rw [held] at held'
      cases held'
      rw [keepInPlace_of_between between] at stays
      cases stays
    · rw [elsewhere x same]
      exact holed.reached i k v other held x xIn between
  · intro k v
    constructor
    · rintro ⟨i, full⟩
      exact ⟨i, another i k v full⟩
    · rintro ⟨i, other, full⟩
      refine ⟨i, ?_⟩
      rw [elsewhere i other]
      exact full

/-- While some slot is empty the scan does not come round to the hole. -/
theorem not_round (holed : Holed keys cap slots hole j) {q : Nat} (inside : q < cap)
    (empty : unsafeGet q slots = .empty) {k : κ} {v : ν} (full : unsafeGet j slots = .full k v) :
    succ cap j ≠ hole := by
  intro round
  have otherScan : q ≠ j := by
    intro same
    rw [same, full] at empty
    cases empty
  have otherHole : q ≠ hole := by
    intro same
    rw [same] at empty
    exact holed.stale empty
  obtain ⟨k', v', held, -⟩ := holed.kept q inside otherHole
    (between_of_round inside round otherScan)
  rw [empty] at held
  cases held

/-- An entry with its home after the hole stays, and the scan goes on. -/
theorem keep (holed : Holed keys cap slots hole j) {q : Nat} (inside : q < cap)
    (empty : unsafeGet q slots = .empty) {k : κ} {v : ν} (full : unsafeGet j slots = .full k v)
    (stays : keepInPlace hole (indexFor keys cap k) j = true) :
    Holed keys cap slots hole (succ cap j) := by
  have unclosed := holed.not_round inside empty full
  refine ⟨holed.capacity, holed.power, holed.stale, succ_lt holed.scanned, unclosed,
    holed.distinct, holed.reached, ?_⟩
  intro x xIn other between
  rcases (between_succ_iff unclosed holed.hole_lt xIn).mp between with before | same
  · exact holed.kept x xIn other before
  · rw [same]
    exact ⟨k, v, full, stays⟩

/-- An entry whose chain crosses the hole fills it, and leaves a hole of its own. -/
theorem move (holed : Holed keys cap slots hole j) {q : Nat} (inside : q < cap)
    (empty : unsafeGet q slots = .empty) {k : κ} {v : ν} (full : unsafeGet j slots = .full k v)
    (moved : keepInPlace hole (indexFor keys cap k) j = false) :
    Holed keys cap (unsafeSet hole (.full k v) slots) j (succ cap j) ∧
      ∀ k' v', HoldsBut (unsafeSet hole (.full k v) slots) j k' v' ↔
        HoldsBut slots hole k' v' := by
  have holeIn : hole < slots.length := lt_of_ne_empty holed.stale
  have here : unsafeGet hole (unsafeSet hole (.full k v) slots) = .full k v :=
    unsafeGet_unsafeSet_same holeIn _
  have elsewhere : ∀ i, i ≠ hole →
      unsafeGet i (unsafeSet hole (.full k v) slots) = unsafeGet i slots := fun i other =>
    unsafeGet_unsafeSet_other other _
  -- the slot an entry had before the move
  have origin : ∀ i k' v', i ≠ j → unsafeGet i (unsafeSet hole (.full k v) slots) = .full k' v' →
      ∃ before, before ≠ hole ∧ unsafeGet before slots = .full k' v' ∧
        (i = hole ∧ before = j ∨ i = before) := by
    intro i k' v' other held
    by_cases same : i = hole
    · rw [same, here] at held
      cases held
      exact ⟨j, holed.ahead, full, .inl ⟨same, rfl⟩⟩
    · rw [elsewhere i same] at held
      exact ⟨i, same, held, .inr rfl⟩
  have fullness : ∀ x, unsafeGet x slots ≠ .empty →
      unsafeGet x (unsafeSet hole (.full k v) slots) ≠ .empty := by
    intro x held
    by_cases same : x = hole
    · rw [same, here]
      exact nofun
    · rw [elsewhere x same]
      exact held
  have onward : succ cap j ≠ j := by
    intro round
    unfold succ at round
    split at round
    · -- a table of one slot would have no empty slot
      have only : q = hole := by
        have holeBound := holed.hole_lt
        omega
      rw [only] at empty
      exact holed.stale empty
    · omega
  refine ⟨⟨?_, holed.power, ?_, succ_lt holed.scanned, onward, ?_, ?_, ?_⟩, ?_⟩
  · rw [length_unsafeSet]
    exact holed.capacity
  · rw [elsewhere j holed.ahead, full]
    exact nofun
  · intro a b ka va kb vb otherA otherB heldA heldB same
    obtain ⟨fromA, notHoleA, fullA, placeA⟩ := origin a ka va otherA heldA
    obtain ⟨fromB, notHoleB, fullB, placeB⟩ := origin b kb vb otherB heldB
    have equal := holed.distinct fromA fromB ka va kb vb notHoleA notHoleB fullA fullB same
    omega
  · intro i k' v' other held x xIn between
    apply fullness
    by_cases same : i = hole
    · rw [same] at held between
      rw [here] at held
      cases held
      exact holed.reached j k v holed.ahead full x xIn (between_of_moved moved between)
    · rw [elsewhere i same] at held
      exact holed.reached i k' v' same held x xIn between
  · intro x xIn other between
    have unclosed : succ cap j ≠ j := onward
    rcases (between_succ_iff unclosed holed.scanned xIn).mp between with before | same
    · exact absurd before not_between_self
    · exact absurd same other
  · intro k' v'
    constructor
    · rintro ⟨i, other, held⟩
      obtain ⟨before, notHole, fullBefore, -⟩ := origin i k' v' other held
      exact ⟨before, notHole, fullBefore⟩
    · rintro ⟨i, other, held⟩
      by_cases same : i = j
      · rw [same, full] at held
        cases held
        exact ⟨hole, holed.ahead.symm, here⟩
      · refine ⟨i, same, ?_⟩
        rw [elsewhere i other]
        exact held

end Holed

/-- The backward shift ends, and leaves a wired table of the other entries. -/
theorem shiftBack_spec {q : Nat} (inside : q < cap) : ∀ j < cap, ∀ (slots : List (Slot κ ν)) hole,
    Holed keys cap slots hole j → unsafeGet q slots = .empty → ∃ shifted,
      (∀ fuel, distance cap j q < fuel → shiftBack keys cap fuel slots hole j = some shifted) ∧
        Wired keys shifted ∧ shifted.length = cap ∧
        (∀ k v, Holds shifted k v ↔ HoldsBut slots hole k v) ∧
        shifted.countP isFull + 1 = slots.countP isFull := by
  have closes : ∀ j (slots : List (Slot κ ν)) hole, Holed keys cap slots hole j →
      unsafeGet j slots = .empty → ∃ shifted,
      (∀ fuel, distance cap j q < fuel → shiftBack keys cap fuel slots hole j = some shifted) ∧
        Wired keys shifted ∧ shifted.length = cap ∧
        (∀ k v, Holds shifted k v ↔ HoldsBut slots hole k v) ∧
        shifted.countP isFull + 1 = slots.countP isFull := by
    intro j slots hole holed vacant
    obtain ⟨wired, holds⟩ := holed.close vacant
    refine ⟨unsafeSet hole .empty slots, ?_, wired, ?_, holds, ?_⟩
    · intro fuel enough
      obtain ⟨more, rfl⟩ : ∃ more, fuel = more + 1 := ⟨fuel - 1, by omega⟩
      simp only [shiftBack, vacant]
    · rw [length_unsafeSet]
      exact holed.capacity
    · cases held : unsafeGet hole slots with
      | empty => exact absurd held holed.stale
      | full k v => exact countP_vacate held
  refine run_induction inside ?_ ?_
  · intro slots hole holed empty
    exact closes q slots hole holed empty
  · intro j jIn differ induct slots hole holed empty
    cases held : unsafeGet j slots with
    | empty => exact closes j slots hole holed held
    | full k v =>
      have nearer := distance_succ differ jIn inside
      cases stays : keepInPlace hole (indexFor keys cap k) j with
      | true =>
        obtain ⟨shifted, runs, rest⟩ := induct slots hole (holed.keep inside empty held stays) empty
        refine ⟨shifted, ?_, rest⟩
        intro fuel enough
        obtain ⟨more, rfl⟩ : ∃ more, fuel = more + 1 := ⟨fuel - 1, by omega⟩
        simp only [shiftBack, held, stays, if_true]
        rw [next_eq holed.power jIn]
        exact runs more (by omega)
      | false =>
        obtain ⟨again, entries⟩ := holed.move inside empty held stays
        have stillEmpty : unsafeGet q (unsafeSet hole (.full k v) slots) = .empty := by
          rw [unsafeGet_unsafeSet_other]
          · exact empty
          · intro same
            rw [same] at empty
            exact holed.stale empty
        obtain ⟨shifted, runs, wired, length, holds, count⟩ := induct _ j again stillEmpty
        refine ⟨shifted, ?_, wired, length, ?_, ?_⟩
        · intro fuel enough
          obtain ⟨more, rfl⟩ : ∃ more, fuel = more + 1 := ⟨fuel - 1, by omega⟩
          simp only [shiftBack, held, stays]
          rw [next_eq holed.power jIn]
          exact runs more (by omega)
        · intro k' v'
          rw [holds, entries]
        · rw [count]
          cases stale : unsafeGet hole slots with
          | empty => exact absurd stale holed.stale
          | full k' v' => exact countP_overwrite stale k v

/-- Removing the entry of a slot. -/
theorem Wired.shift (wired : Wired keys slots) {i : Nat} {k : κ} {v : ν}
    (full : unsafeGet i slots = .full k v) : ∃ shifted,
      (∀ fuel ≥ slots.length, shiftBack keys slots.length fuel slots i (next slots.length i) =
        some shifted) ∧ Wired keys shifted ∧ shifted.length = slots.length ∧
        (∀ k' v', Holds shifted k' v' ↔ Holds slots k' v' ∧ keys.eq k k' = false) ∧
        shifted.countP isFull + 1 = slots.countP isFull := by
  have inside := lt_of_full full
  obtain ⟨q, qIn, empty⟩ := wired.vacant
  have onward : succ slots.length i ≠ i := by
    intro round
    unfold succ at round
    split at round
    · have only : q = i := by omega
      rw [only, full] at empty
      cases empty
    · omega
  have holed : Holed keys slots.length slots i (succ slots.length i) := by
    refine ⟨rfl, wired.power, ?_, succ_lt inside, onward, ?_, ?_, ?_⟩
    · rw [full]
      exact nofun
    · intro a b ka va kb vb _ _ heldA heldB same
      exact wired.distinct a b ka va kb vb heldA heldB same
    · intro a ka va _ held x xIn between
      exact wired.reached a ka va held x xIn between
    · intro x xIn other between
      rcases (between_succ_iff onward inside xIn).mp between with before | same
      · exact absurd before not_between_self
      · exact absurd same other
  obtain ⟨shifted, runs, again, length, holds, count⟩ :=
    shiftBack_spec qIn _ (succ_lt inside) slots i holed empty
  refine ⟨shifted, ?_, again, length, ?_, count⟩
  · intro fuel enough
    rw [next_eq wired.power inside]
    have near := distance_lt (succ_lt inside) qIn
    exact runs fuel (by omega)
  · intro k' v'
    rw [holds]
    constructor
    · rintro ⟨a, other, held⟩
      refine ⟨⟨a, held⟩, ?_⟩
      rw [← Bool.not_eq_true]
      intro same
      exact other (wired.distinct i a k v k' v' full held same).symm
    · rintro ⟨⟨a, held⟩, differs⟩
      refine ⟨a, ?_, held⟩
      intro same
      rw [same, full] at held
      cases held
      rw [keys.refl] at differs
      cases differs

end HashDict

end Fai.Collections
