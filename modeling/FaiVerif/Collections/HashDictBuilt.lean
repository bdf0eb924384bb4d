import FaiVerif.Collections.HashDictRuns

/-!
# The hash dictionary over every sequence of operations

The tables that the public operations build, with the finite maps they stand for. An entry keeps
the key it was stored under, which the operations that visit entries are given.
-/

namespace Fai.Collections

open Fueled

variable {κ ν ω : Type}

namespace HashDict

/-- What a table answers when it stands for a map. -/
structure Faithful (keys : HashedKey κ) (d : HashDict κ ν) (m : κ → Option (κ × ν)) : Prop where
  /-- The table is empty, or wired with an exact count. -/
  sound : Sound keys d
  /-- A lookup returns the map's value. -/
  get : ∀ key, Returns (fun fuel => get keys fuel key d) ((m key).map Prod.snd)
  /-- A membership test returns whether the map has the key. -/
  member : ∀ key, Returns (fun fuel => member keys fuel key d) (m key).isSome
  /-- A lookup with a fallback returns the map's value or the fallback. -/
  getOr : ∀ fallback key, Returns (fun fuel => getOr keys fuel fallback key d)
    (((m key).map Prod.snd).getD fallback)
  /-- The listing has exactly the stored entries. -/
  listed : ∀ k v, (k, v) ∈ d.toList ↔ m k = some (k, v)
  /-- No two entries of the listing have equal keys. -/
  distinct : d.toList.Pairwise fun a b => keys.eq a.1 b.1 = false
  /-- The size is the number of the entries. -/
  size : d.size = d.toList.length

/-- The operations on a table return. -/
structure Total (keys : HashedKey κ) (d : HashDict κ ν) : Prop where
  /-- Inserting. -/
  insert : ∀ key value, ∃ after, Returns (fun fuel => insert keys fuel key value d) after
  /-- Removing. -/
  remove : ∀ key, ∃ after, Returns (fun fuel => remove keys fuel key d) after
  /-- Updating. -/
  update : ∀ key f, ∃ after, Returns (fun fuel => update keys fuel key f d) after
  /-- Updating a value or a fallback. -/
  updateOr : ∀ fallback f key, ∃ after,
    Returns (fun fuel => updateOrPure keys fuel fallback f key d) after
  /-- Filtering. -/
  filter : ∀ keep, ∃ after, Returns (fun fuel => filter keys fuel keep d) after

/-- The operations on two tables return. -/
structure TotalWith (keys : HashedKey κ) (a b : HashDict κ ν) : Prop where
  /-- Uniting. -/
  union : ∃ after, Returns (fun fuel => union keys fuel a b) after
  /-- Intersecting. -/
  intersection : ∃ after, Returns (fun fuel => intersection keys fuel a b) after
  /-- Subtracting. -/
  difference : ∃ after, Returns (fun fuel => difference keys fuel a b) after

/-- A value is stored under a key as inserting it would store it. -/
structure StoresAsInsert (d : HashDict κ ν) (m : κ → Option (κ × ν)) (key : κ)
    (stored inserted : HashDict κ ν) : Prop where
  /-- The entries are the same. -/
  entries : stored.toList.Perm inserted.toList
  /-- The sizes are the same. -/
  sizes : stored.size = inserted.size
  /-- Unless the key is present in a loaded table, the tables are the same. -/
  tables : m key = none ∨ ¬ Loaded d → stored = inserted

end HashDict

open HashDict

/-- The tables that the public operations build, with the maps from keys to entries that they stand
for. -/
inductive HashBuilt (keys : HashedKey κ) :
    {ν : Type} → HashDict κ ν → (κ → Option (κ × ν)) → Prop
  | empty {ν : Type} : HashBuilt keys (HashDict.empty : HashDict κ ν) FiniteMap.none
  | insert {ν : Type} {d after : HashDict κ ν} {m : κ → Option (κ × ν)} (key : κ) (value : ν) :
    HashBuilt keys d m → Returns (fun fuel => HashDict.insert keys fuel key value d) after →
      HashBuilt keys after (FiniteMap.put (Same keys) m key (some (key, value)))
  | remove {ν : Type} {d after : HashDict κ ν} {m : κ → Option (κ × ν)} (key : κ) :
    HashBuilt keys d m → Returns (fun fuel => HashDict.remove keys fuel key d) after →
      HashBuilt keys after (FiniteMap.put (Same keys) m key none)
  | update {ν : Type} {d after : HashDict κ ν} {m : κ → Option (κ × ν)} (key : κ)
    (f : Option ν → Option ν) :
    HashBuilt keys d m → Returns (fun fuel => HashDict.update keys fuel key f d) after →
      HashBuilt keys after (FiniteMap.put (Same keys) m key
        ((f ((m key).map Prod.snd)).map fun value => (key, value)))
  | updateOr {ν : Type} {d after : HashDict κ ν} {m : κ → Option (κ × ν)} (fallback : ν)
    (f : ν → ν) (key : κ) :
    HashBuilt keys d m →
      Returns (fun fuel => HashDict.updateOrPure keys fuel fallback f key d) after →
      HashBuilt keys after (FiniteMap.put (Same keys) m key
        (some (key, f (((m key).map Prod.snd).getD fallback))))
  | union {ν : Type} {a b after : HashDict κ ν} {m n : κ → Option (κ × ν)} :
    HashBuilt keys a m → HashBuilt keys b n →
      Returns (fun fuel => HashDict.union keys fuel a b) after →
      HashBuilt keys after (FiniteMap.union m n)
  | intersection {ν : Type} {a b after : HashDict κ ν} {m n : κ → Option (κ × ν)} :
    HashBuilt keys a m → HashBuilt keys b n →
      Returns (fun fuel => HashDict.intersection keys fuel a b) after →
      HashBuilt keys after (FiniteMap.intersection m n)
  | difference {ν : Type} {a b after : HashDict κ ν} {m n : κ → Option (κ × ν)} :
    HashBuilt keys a m → HashBuilt keys b n →
      Returns (fun fuel => HashDict.difference keys fuel a b) after →
      HashBuilt keys after (FiniteMap.difference m n)
  | fromList {ν : Type} {after : HashDict κ ν} (pairs : List (κ × ν)) :
    Returns (fun fuel => HashDict.fromList keys fuel pairs) after →
      HashBuilt keys after (writes keys FiniteMap.none pairs)
  | map {ν ω : Type} {d : HashDict κ ν} {m : κ → Option (κ × ν)} (f : κ → ν → ω) :
    HashBuilt keys d m →
      HashBuilt keys (d.map f) (FiniteMap.map (fun _ entry => (entry.1, f entry.1 entry.2)) m)
  | filter {ν : Type} {d after : HashDict κ ν} {m : κ → Option (κ × ν)} (keep : κ → ν → Bool) :
    HashBuilt keys d m → Returns (fun fuel => HashDict.filter keys fuel keep d) after →
      HashBuilt keys after (FiniteMap.filter (fun _ entry => keep entry.1 entry.2) m)

/-- Where an operation returns some table of a map, the table it returns is of that map. -/
theorem represents_of_returns {keys : HashedKey κ} {run : Nat → Option (HashDict κ ν)}
    {after : HashDict κ ν} {m : κ → Option (κ × ν)}
    (spec : ∃ after, Returns run after ∧ Represents keys after m) (returns : Returns run after) :
    Represents keys after m := by
  obtain ⟨other, returnsOther, represents⟩ := spec
  rw [returns.unique returnsOther]
  exact represents

/-- Every table that is built represents its map. -/
theorem HashBuilt.represents {keys : HashedKey κ} {d : HashDict κ ν} {m : κ → Option (κ × ν)}
    (built : HashBuilt keys d m) : Represents keys d m := by
  induction built with
  | empty => exact represents_empty
  | insert key value _ returns induct =>
    exact represents_of_returns (insert_spec induct key value) returns
  | remove key _ returns induct => exact represents_of_returns (remove_spec induct key) returns
  | update key f _ returns induct => exact represents_of_returns (update_spec induct key f) returns
  | updateOr fallback f key _ returns induct =>
    obtain ⟨after, stored⟩ := updateOr_spec induct fallback key
    rw [returns.unique (stored.updateOrPure f)]
    exact stored.represents _
  | union _ _ returns first second =>
    exact represents_of_returns (union_spec first second) returns
  | intersection _ _ returns first second =>
    exact represents_of_returns (intersection_spec first second) returns
  | difference _ _ returns first second =>
    exact represents_of_returns (difference_spec first second) returns
  | fromList pairs returns => exact represents_of_returns (fromList_spec keys pairs) returns
  | map f _ induct => exact map_spec induct f
  | filter keep _ returns induct =>
    exact represents_of_returns (filter_spec induct keep) returns

namespace HashDict

variable {keys : HashedKey κ} {d : HashDict κ ν} {m : κ → Option (κ × ν)}

/-- A table answers for the map it represents. -/
theorem Represents.faithful (represents : Represents keys d m) : Faithful keys d m := by
  refine ⟨represents.sound, fun key => (lookup_spec represents key).1,
    fun key => (lookup_spec represents key).2.1,
    fun fallback key => (lookup_spec represents key).2.2 fallback, ?_, represents.sound.distinct,
    represents.sound.size⟩
  intro k v
  rw [mem_toList, represents.meaning.holds_iff]

/-- The operations on a table that represents a map return. -/
theorem Represents.total (represents : Represents keys d m) : Total keys d := by
  refine ⟨?_, ?_, ?_, ?_, ?_⟩
  · intro key value
    obtain ⟨after, returns, -⟩ := insert_spec represents key value
    exact ⟨after, returns⟩
  · intro key
    obtain ⟨after, returns, -⟩ := remove_spec represents key
    exact ⟨after, returns⟩
  · intro key f
    obtain ⟨after, returns, -⟩ := update_spec represents key f
    exact ⟨after, returns⟩
  · intro fallback f key
    obtain ⟨after, stored⟩ := updateOr_spec represents fallback key
    exact ⟨_, stored.updateOrPure f⟩
  · intro keep
    obtain ⟨after, returns, -⟩ := filter_spec represents keep
    exact ⟨after, returns⟩

/-- The operations on two tables that represent maps return. -/
theorem Represents.totalWith {e : HashDict κ ν} {n : κ → Option (κ × ν)}
    (first : Represents keys d m) (second : Represents keys e n) : TotalWith keys d e := by
  refine ⟨?_, ?_, ?_⟩
  · obtain ⟨after, returns, -⟩ := union_spec first second
    exact ⟨after, returns⟩
  · obtain ⟨after, returns, -⟩ := intersection_spec first second
    exact ⟨after, returns⟩
  · obtain ⟨after, returns, -⟩ := difference_spec first second
    exact ⟨after, returns⟩

/-- Storing what a function makes of a key's value: the function runs once, on the value looked up,
and what it gives is stored as inserting it would store it. -/
theorem Represents.storesAsInsert (represents : Represents keys d m) {fallback looked : ν} {key : κ}
    (looks : Returns (fun fuel => getOr keys fuel fallback key d) looked) :
    ∃ (bound : Nat) (after : ν → HashDict κ ν),
      (∀ (M : Type → Type) [Monad M] (f : ν → M ν), ∀ fuel ≥ bound,
        updateOr keys fuel fallback f key d = f looked >>= fun value => pure (some (after value))) ∧
      ∀ value inserted, Returns (fun fuel => insert keys fuel key value d) inserted →
        StoresAsInsert d m key (after value) inserted := by
  obtain ⟨after, stored⟩ := updateOr_spec represents fallback key
  obtain ⟨bound, runs⟩ := stored.returns
  rw [looks.unique ((lookup_spec represents key).2.2 fallback)]
  refine ⟨bound, after, runs, fun value inserted inserts => ?_⟩
  have written := represents_of_returns (insert_spec represents key value) inserts
  have entries := (stored.represents value).perm written
  refine ⟨entries, ?_, fun plain => (stored.inserted plain value).unique inserts⟩
  rw [(stored.represents value).sound.size, written.sound.size]
  exact entries.length_eq

end HashDict

/-- Over every sequence of operations the table is sound and answers as the finite map, every
operation on it returns, and storing what a function makes of a key's value runs the function once,
on the value looked up, and stores what inserting its result stores. -/
theorem hash_dict_runs (κ ν : Type) (keys : HashedKey κ) (d : HashDict κ ν)
    (m : κ → Option (κ × ν)) (built : HashBuilt keys d m) :
    Faithful keys d m ∧ Total keys d ∧
      (∀ (e : HashDict κ ν) (n : κ → Option (κ × ν)), HashBuilt keys e n → TotalWith keys d e) ∧
      ∀ fallback key looked, Returns (fun fuel => HashDict.getOr keys fuel fallback key d) looked →
        ∃ (bound : Nat) (after : ν → HashDict κ ν),
          (∀ (M : Type → Type) [Monad M] (f : ν → M ν), ∀ fuel ≥ bound,
            HashDict.updateOr keys fuel fallback f key d =
              f looked >>= fun value => pure (some (after value))) ∧
          ∀ value inserted, Returns (fun fuel => HashDict.insert keys fuel key value d) inserted →
            StoresAsInsert d m key (after value) inserted := by
  have represents := built.represents
  refine ⟨represents.faithful, represents.total, ?_, ?_⟩
  · intro e n other
    exact represents.totalWith other.represents
  · intro fallback key looked looks
    exact represents.storesAsInsert looks

/-- A sound table that has slots is wired. -/
theorem HashDict.Sound.wired {keys : HashedKey κ} {d : HashDict κ ν} (sound : Sound keys d)
    (nonempty : d.slots ≠ []) : Wired keys d.slots := by
  cases sound with
  | empty => exact absurd rfl nonempty
  | table wired => exact wired

/-- The natural numbers as their own hashes. -/
def natKey : HashedKey Nat where
  eq a b := a == b
  hash a := a
  refl a := by simp
  symm a b := by
    simp only [beq_iff_eq]
    exact Eq.symm
  trans a b c := by
    intro first second
    simp only [beq_iff_eq] at *
    rw [first, second]
  hash_eq a b := by simp

/-- A run that gives its answer with some fuel on, whatever more it is given. -/
theorem returns_of_runs {α : Type} {run : Nat → Option α} {a : α} (steps : Nat)
    (runs : ∀ more, run (more + steps) = some a) : Returns run a := by
  refine ⟨steps, fun fuel enough => ?_⟩
  obtain ⟨more, rfl⟩ := Nat.exists_eq_add_of_le' enough
  exact runs more

/-- The table of six entries in eight slots that is left of the keys 7, 15 and 23, which have one
bucket, the last one, once 7 is removed and 1 to 4 are inserted: 15 is back in that bucket, and 23
in the first slot, where the probe wraps to. -/
def wrapped : HashDict Nat Char :=
  ⟨6, [.full 23 'c', .full 1 'd', .full 2 'e', .full 3 'f', .full 4 'g', .empty, .empty,
    .full 15 'b']⟩

/-- The entries of the table. -/
noncomputable def wrappedMap : Nat → Option (Nat × Char) :=
  let put := FiniteMap.put (Same natKey)
  put (put (put (put (put (put (put (put FiniteMap.none 7 (some (7, 'a'))) 15 (some (15, 'b'))) 23
    (some (23, 'c'))) 7 none) 1 (some (1, 'd'))) 2 (some (2, 'e'))) 3 (some (3, 'f'))) 4
    (some (4, 'g'))

/-- The table is built by these operations. -/
theorem wrapped_built : HashBuilt natKey wrapped wrappedMap := by
  have start : HashBuilt natKey (HashDict.empty : HashDict Nat Char) FiniteMap.none := .empty
  have collided := HashBuilt.insert 23 'c' (.insert 15 'b' (.insert 7 'a' start
    (returns_of_runs 1 fun _ => rfl)) (returns_of_runs 2 fun _ => rfl))
    (returns_of_runs 3 fun _ => rfl)
  have shifted := HashBuilt.remove 7 collided (returns_of_runs 3 fun _ => rfl)
  exact .insert 4 'g' (.insert 3 'f' (.insert 2 'e' (.insert 1 'd' shifted
    (returns_of_runs 1 fun _ => rfl)) (returns_of_runs 1 fun _ => rfl))
    (returns_of_runs 1 fun _ => rfl)) (returns_of_runs 1 fun _ => rfl)

/-- The table answers for its entries. Storing under the absent key 5 runs the function once, on the
fallback, and stores what inserting would; the table grows then and answers for the new entry. -/
theorem hash_dict_runs_wrapped : Faithful natKey wrapped wrappedMap ∧
    (∃ (bound : Nat) (after : Char → HashDict Nat Char),
      (∀ (M : Type → Type) [Monad M] (f : Char → M Char), ∀ fuel ≥ bound,
        HashDict.updateOr natKey fuel 'z' f 5 wrapped =
          f 'z' >>= fun value => pure (some (after value))) ∧
      ∀ value inserted, Returns (fun fuel => HashDict.insert natKey fuel 5 value wrapped) inserted →
        StoresAsInsert wrapped wrappedMap 5 (after value) inserted) ∧
    ∃ grown : HashDict Nat Char, grown.slots.length = 32 ∧
      Returns (fun fuel => HashDict.insert natKey fuel 5 'h' wrapped) grown ∧
      Faithful natKey grown (FiniteMap.put (Same natKey) wrappedMap 5 (some (5, 'h'))) := by
  obtain ⟨faithful, _, _, stores⟩ := hash_dict_runs Nat Char natKey wrapped wrappedMap wrapped_built
  obtain ⟨sound, meaning⟩ := wrapped_built.represents
  have wired := sound.wired (by decide)
  obtain ⟨after, inserts, _, length, _⟩ :=
    insert_loaded wired (by decide) meaning (by decide) 5 'h'
  have again := hash_dict_runs Nat Char natKey _ _ (.insert 5 'h' wrapped_built inserts)
  refine ⟨faithful, stores 'z' 5 'z' (returns_of_runs 2 fun _ => rfl), _, length, inserts, again.1⟩

/-- Six entries in the eight slots of a first table. -/
def sixEntries : HashDict Nat Nat :=
  ⟨6, [.full 0 0, .full 1 0, .full 2 0, .full 3 0, .full 4 0, .full 5 0, .empty, .empty]⟩

/-- The six entries are built by inserting them. -/
theorem sixEntries_built : ∃ m, HashBuilt natKey sixEntries m := by
  have step {d after : HashDict Nat Nat} {key : Nat}
      (runs : ∀ more, HashDict.insert natKey (more + 1) key 0 d = some after) :
      Returns (fun fuel => HashDict.insert natKey fuel key 0 d) after := returns_of_runs 1 runs
  have start : HashBuilt natKey (HashDict.empty : HashDict Nat Nat) FiniteMap.none := .empty
  exact ⟨_, .insert 5 0 (.insert 4 0 (.insert 3 0 (.insert 2 0 (.insert 1 0 (.insert 0 0 start
    (step fun _ => rfl)) (step fun _ => rfl)) (step fun _ => rfl)) (step fun _ => rfl))
    (step fun _ => rfl)) (step fun _ => rfl)⟩

/-- Where the key is present in a loaded table, inserting grows the table and storing does not. -/
theorem updateOr_ne_insert_loaded :
    ∃ (d : HashDict Nat Nat) (m : Nat → Option (Nat × Nat)) (stored inserted : HashDict Nat Nat),
      HashBuilt natKey d m ∧ Returns (fun fuel => HashDict.getOr natKey fuel 0 0 d) 0 ∧
        Returns (fun fuel => HashDict.updateOrPure natKey fuel 0 (· + 1) 0 d) stored ∧
        Returns (fun fuel => HashDict.insert natKey fuel 0 (0 + 1) d) inserted ∧
        stored ≠ inserted := by
  obtain ⟨m, built⟩ := sixEntries_built
  obtain ⟨sound, meaning⟩ := built.represents
  have wired := sound.wired (by decide)
  obtain ⟨after, inserts, -, length, -⟩ := insert_loaded wired (by decide) meaning (by decide) 0 1
  refine ⟨sixEntries, m,
    ⟨6, [.full 0 1, .full 1 0, .full 2 0, .full 3 0, .full 4 0, .full 5 0, .empty, .empty]⟩,
    ⟨after.countP isFull, after⟩, built, returns_of_runs 1 fun _ => rfl,
    returns_of_runs 1 fun _ => rfl, inserts, fun same => ?_⟩
  have slots := congrArg (fun d : HashDict Nat Nat => d.slots.length) same
  simp only [length] at slots
  revert slots
  decide

end Fai.Collections
