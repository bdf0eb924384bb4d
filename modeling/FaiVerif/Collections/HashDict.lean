import Mathlib.Algebra.Group.Nat.Defs
import Mathlib.Data.List.Basic
import Mathlib.Tactic.Common

/-!
# The hash dictionary

The open-addressing table of `std/collections/HashDict.fai`: a power-of-two array of slots, linear
probing and backward-shift deletion. A probe has no bound of its own in the source, so each of its
loops takes fuel here and gives no answer when the fuel is used up.
-/

namespace Fai.Collections

/-- A key type with its equality and its structural hash. -/
structure HashedKey (κ : Type) where
  /-- The equality of keys. -/
  eq : κ → κ → Bool
  /-- The structural hash, which is never negative. -/
  hash : κ → Nat
  /-- Every key equals itself. -/
  refl : ∀ a, eq a a = true
  /-- Equality does not depend on the order. -/
  symm : ∀ a b, eq a b = true → eq b a = true
  /-- Equality is transitive. -/
  trans : ∀ a b c, eq a b = true → eq b c = true → eq a c = true
  /-- Equal keys hash alike. -/
  hash_eq : ∀ a b, eq a b = true → hash a = hash b

/-- A table slot: empty, or one entry. -/
inductive Slot (κ ν : Type) where
  | empty
  | full (key : κ) (value : ν)

/-- The hash dictionary: the entry count and the slots. -/
structure HashDict (κ ν : Type) where
  /-- The number of entries. -/
  count : Nat
  /-- The buckets. -/
  slots : List (Slot κ ν)

namespace HashDict

variable {κ ν ω α : Type}

/-- The bucket count a non-empty table starts at. -/
def initialCapacity : Nat := 8

/-- The growth of a full table. -/
def growthFactor : Nat := 4

/-- The load factor's numerator. -/
def loadNumerator : Nat := 3

/-- The load factor's denominator. -/
def loadDenominator : Nat := 4

/-- The slot at an index. -/
def unsafeGet (i : Nat) (slots : List (Slot κ ν)) : Slot κ ν := slots.getD i .empty

/-- The slots with one replaced. -/
def unsafeSet (i : Nat) (slot : Slot κ ν) (slots : List (Slot κ ν)) : List (Slot κ ν) :=
  slots.set i slot

/-- The bucket of a hash in a table of `cap` buckets. -/
def indexOf (cap hash : Nat) : Nat := hash &&& (cap - 1)

/-- The next bucket in the probe sequence, wrapping at `cap`. -/
def next (cap i : Nat) : Nat := (i + 1) &&& (cap - 1)

/-- The empty dictionary. -/
def empty : HashDict κ ν := ⟨0, []⟩

/-- The number of entries. -/
def size (d : HashDict κ ν) : Nat := d.count

/-- Walk the probe sequence from a bucket until a slot settles the search. -/
def probe (settle : Nat → Slot κ ν → Option α) (slots : List (Slot κ ν)) (cap : Nat) :
    Nat → Nat → Option α
  | 0, _ => none
  | fuel + 1, i =>
    match settle i (unsafeGet i slots) with
    | some answer => some answer
    | none => probe settle slots cap fuel (next cap i)

/-- A probe for a key: what to answer at an empty slot and at the key's own. -/
def seeking (keys : HashedKey κ) (key : κ) (absent : Nat → α) (found : Nat → ν → α) :
    Nat → Slot κ ν → Option α
  | i, .empty => some (absent i)
  | i, .full k v => if keys.eq key k then some (found i v) else none

/-- A probe for a free slot. -/
def vacating (absent : Nat → α) : Nat → Slot κ ν → Option α
  | i, .empty => some (absent i)
  | _, .full _ _ => none

/-- Place an entry, its key known absent, at the first empty slot. -/
def place (fuel : Nat) (key : κ) (value : ν) (slots : List (Slot κ ν)) (cap i : Nat) :
    Option (List (Slot κ ν)) :=
  probe (vacating fun i => unsafeSet i (.full key value) slots) slots cap fuel i

/-- Place an entry's own cell at the first empty slot. -/
def placeEntry (fuel : Nat) (entry : Slot κ ν) (slots : List (Slot κ ν)) (cap i : Nat) :
    Option (List (Slot κ ν)) :=
  probe (vacating fun i => unsafeSet i entry slots) slots cap fuel i

/-- Collect the live entries onto an accumulator, in slot order. -/
def collectFrom (slots : List (Slot κ ν)) (n i : Nat) (acc : List (κ × ν)) : List (κ × ν) :=
  if i ≥ n then acc
  else
    match unsafeGet i slots with
    | .empty => collectFrom slots n (i + 1) acc
    | .full k v => collectFrom slots n (i + 1) ((k, v) :: acc)
termination_by n - i

/-- The entries, in an unspecified order. -/
def toList (d : HashDict κ ν) : List (κ × ν) := collectFrom d.slots d.slots.length 0 []

/-- Transform the values of the slots from an index on. -/
def mapInto (f : κ → ν → ω) (old : List (Slot κ ν)) (n i : Nat) (acc : List (Slot κ ω)) :
    List (Slot κ ω) :=
  if i ≥ n then acc
  else
    match unsafeGet i old with
    | .empty => mapInto f old n (i + 1) (acc ++ [.empty])
    | .full k v => mapInto f old n (i + 1) (acc ++ [.full k (f k v)])
termination_by n - i

/-- Transform every value, with its key. -/
def map (f : κ → ν → ω) (d : HashDict κ ν) : HashDict κ ω :=
  ⟨d.count, mapInto f d.slots d.slots.length 0 []⟩

/-- Whether a bucket lies cyclically in the run after `hole` up to `j`. -/
def keepInPlace (hole k j : Nat) : Bool :=
  if hole ≤ j then decide (hole < k) && decide (k ≤ j) else decide (hole < k) || decide (k ≤ j)

section Keyed

variable (keys : HashedKey κ)

/-- The home bucket of a key. -/
def indexFor (cap : Nat) (key : κ) : Nat := indexOf cap (keys.hash key)

/-- Probe for a key's value. -/
def getFrom (fuel : Nat) (key : κ) (slots : List (Slot κ ν)) (cap i : Nat) : Option (Option ν) :=
  probe (seeking keys key (fun _ => none) fun _ v => some v) slots cap fuel i

/-- Look up the value of a key. -/
def get (fuel : Nat) (key : κ) (d : HashDict κ ν) : Option (Option ν) :=
  if d.slots.length = 0 then some none
  else getFrom keys fuel key d.slots d.slots.length (indexFor keys d.slots.length key)

/-- Probe for a key's value, or a fallback. -/
def getOrFrom (fuel : Nat) (fallback : ν) (key : κ) (slots : List (Slot κ ν)) (cap i : Nat) :
    Option ν :=
  probe (seeking keys key (fun _ => fallback) fun _ v => v) slots cap fuel i

/-- The value of a key, or a fallback. -/
def getOr (fuel : Nat) (fallback : ν) (key : κ) (d : HashDict κ ν) : Option ν :=
  if d.slots.length = 0 then some fallback
  else getOrFrom keys fuel fallback key d.slots d.slots.length (indexFor keys d.slots.length key)

/-- Probe for the presence of a key. -/
def memberFrom (fuel : Nat) (key : κ) (slots : List (Slot κ ν)) (cap i : Nat) : Option Bool :=
  probe (seeking keys key (fun _ => false) fun _ _ => true) slots cap fuel i

/-- Whether a key is present. -/
def member (fuel : Nat) (key : κ) (d : HashDict κ ν) : Option Bool :=
  if d.slots.length = 0 then some false
  else memberFrom keys fuel key d.slots d.slots.length (indexFor keys d.slots.length key)

/-- Overwrite a key's entry or claim the first empty slot. -/
def insertFrom (fuel : Nat) (key : κ) (value : ν) (slots : List (Slot κ ν)) (cap i count : Nat) :
    Option (HashDict κ ν) :=
  probe (seeking keys key (fun i => ⟨count + 1, unsafeSet i (.full key value) slots⟩)
    fun i _ => ⟨count, unsafeSet i (.full key value) slots⟩) slots cap fuel i

/-- Copy the entries of the old slots, from an index on, into a larger table. -/
def rehash (fuel : Nat) (old : List (Slot κ ν)) (cap i : Nat) (newSlots : List (Slot κ ν))
    (newCap : Nat) : Option (List (Slot κ ν)) :=
  if i ≥ cap then some newSlots
  else
    match unsafeGet i old with
    | .empty => rehash fuel old cap (i + 1) newSlots newCap
    | .full k v =>
      match placeEntry fuel (.full k v) newSlots newCap (indexFor keys newCap k) with
      | none => none
      | some placed => rehash fuel old cap (i + 1) placed newCap
termination_by cap - i

/-- Grow the table and place every entry again. -/
def grow (fuel : Nat) (slots : List (Slot κ ν)) (cap : Nat) : Option (List (Slot κ ν)) :=
  rehash keys fuel slots cap 0 (List.replicate (cap * growthFactor) .empty) (cap * growthFactor)

/-- Insert or replace the value of a key. -/
def insert (fuel : Nat) (key : κ) (value : ν) (d : HashDict κ ν) : Option (HashDict κ ν) :=
  if d.slots.length = 0 then
    insertFrom keys fuel key value (List.replicate initialCapacity .empty) initialCapacity
      (indexFor keys initialCapacity key) 0
  else if d.count * loadDenominator ≥ d.slots.length * loadNumerator then
    match grow keys fuel d.slots d.slots.length with
    | none => none
    | some bigger =>
      insertFrom keys fuel key value bigger (d.slots.length * growthFactor)
        (indexFor keys (d.slots.length * growthFactor) key) d.count
  else
    insertFrom keys fuel key value d.slots d.slots.length (indexFor keys d.slots.length key) d.count

/-- A dictionary of one entry. -/
def singleton (fuel : Nat) (key : κ) (value : ν) : Option (HashDict κ ν) :=
  insert keys fuel key value empty

/-- Close a hole: pull back the entries after it whose probe chains allow it. -/
def shiftBack (cap : Nat) : Nat → List (Slot κ ν) → Nat → Nat → Option (List (Slot κ ν))
  | 0, _, _, _ => none
  | fuel + 1, slots, hole, j =>
    match unsafeGet j slots with
    | .empty => some (unsafeSet hole .empty slots)
    | .full k v =>
      if keepInPlace hole (indexFor keys cap k) j then
        shiftBack cap fuel slots hole (next cap j)
      else
        shiftBack cap fuel (unsafeSet hole (.full k v) slots) j (next cap j)

/-- The bucket that holds a key. -/
def findSlot (fuel : Nat) (key : κ) (slots : List (Slot κ ν)) (cap i : Nat) :
    Option (Option Nat) :=
  probe (seeking keys key (fun _ => none) fun i _ => some i) slots cap fuel i

/-- Remove a key if it is present. -/
def remove (fuel : Nat) (key : κ) (d : HashDict κ ν) : Option (HashDict κ ν) :=
  if d.slots.length = 0 then some d
  else
    match findSlot keys fuel key d.slots d.slots.length (indexFor keys d.slots.length key) with
    | none => none
    | some none => some d
    | some (some i) =>
      match shiftBack keys d.slots.length fuel d.slots i (next d.slots.length i) with
      | none => none
      | some slots => some ⟨d.count - 1, slots⟩

/-- Set or clear the value of a key, by what a function makes of the present one. -/
def update (fuel : Nat) (key : κ) (f : Option ν → Option ν) (d : HashDict κ ν) :
    Option (HashDict κ ν) :=
  match get keys fuel key d with
  | none => none
  | some present =>
    match f present with
    | none => remove keys fuel key d
    | some v => insert keys fuel key v d

/-- The bucket of a key, or the empty one its probe ends at. -/
def updateIndex (fuel : Nat) (key : κ) (slots : List (Slot κ ν)) (cap i : Nat) : Option Nat :=
  probe (seeking keys key (fun i => i) fun i _ => i) slots cap fuel i

/-- Store what a function makes of a key's value, or of the fallback; the function runs in any
monad. -/
def updateOr {m : Type → Type} [Monad m] (fuel : Nat) (fallback : ν) (f : ν → m ν) (key : κ)
    (d : HashDict κ ν) : m (Option (HashDict κ ν)) :=
  if d.slots.length = 0 then do
    let value ← f fallback
    pure (some ⟨1, unsafeSet (indexOf initialCapacity (keys.hash key)) (.full key value)
      (List.replicate initialCapacity .empty)⟩)
  else
    match updateIndex keys fuel key d.slots d.slots.length
        (indexOf d.slots.length (keys.hash key)) with
    | none => pure none
    | some i =>
      match unsafeGet i d.slots with
      | .full _ present => do
        let value ← f present
        pure (some ⟨d.count, unsafeSet i (.full key value) d.slots⟩)
      | .empty => do
        let value ← f fallback
        if d.count * loadDenominator ≥ d.slots.length * loadNumerator then
          match grow keys fuel d.slots d.slots.length with
          | none => pure none
          | some bigger =>
            match place fuel key value bigger (d.slots.length * growthFactor)
                (indexOf (d.slots.length * growthFactor) (keys.hash key)) with
            | none => pure none
            | some placed => pure (some ⟨d.count + 1, placed⟩)
        else
          pure (some ⟨d.count + 1, unsafeSet i (.full key value) d.slots⟩)

/-- Store what a function without effects makes of a key's value, or of the fallback. -/
def updateOrPure (fuel : Nat) (fallback : ν) (f : ν → ν) (key : κ) (d : HashDict κ ν) :
    Option (HashDict κ ν) :=
  Id.run (updateOr keys fuel fallback (fun value => pure (f value)) key d)

/-- Insert a pair. -/
def insertPair (fuel : Nat) (d : HashDict κ ν) (pair : κ × ν) : Option (HashDict κ ν) :=
  insert keys fuel pair.1 pair.2 d

/-- Build a dictionary from pairs, the later ones winning. -/
def fromList (fuel : Nat) (pairs : List (κ × ν)) : Option (HashDict κ ν) :=
  pairs.foldlM (insertPair keys fuel) empty

/-- Keep the entries that satisfy a test. -/
def filter (fuel : Nat) (keep : κ → ν → Bool) (d : HashDict κ ν) : Option (HashDict κ ν) :=
  d.toList.foldlM
    (fun acc pair => if keep pair.1 pair.2 then insertPair keys fuel acc pair else some acc) empty

/-- Every key of either map, with the left map's value where both have one. -/
def union (fuel : Nat) (a b : HashDict κ ν) : Option (HashDict κ ν) :=
  b.toList.foldlM
    (fun d pair => do
      if ← member keys fuel pair.1 d then pure d else insertPair keys fuel d pair) a

/-- The keys of both maps, with the left map's value. -/
def intersection (fuel : Nat) (a b : HashDict κ ν) : Option (HashDict κ ν) :=
  a.toList.foldlM
    (fun d pair => do
      if ← member keys fuel pair.1 b then insertPair keys fuel d pair else pure d) empty

/-- The left map's entries whose keys the right map does not have. -/
def difference (fuel : Nat) (a b : HashDict κ ν) : Option (HashDict κ ν) :=
  a.toList.foldlM
    (fun d pair => do
      if ← member keys fuel pair.1 b then pure d else insertPair keys fuel d pair) empty

end Keyed

end HashDict

end Fai.Collections
