import Mathlib.Data.List.Basic
import Mathlib.Tactic.Common

/-!
# The ordered dictionary

The weight-balanced search tree of `std/collections/Dict.fai`, over any key type whose `compare`
is a total order. Every node caches the number of its entries; `balance` restores the bound between
two sides that one change has upset, and `join` links trees of any two sizes.
-/

namespace Fai.Collections

/-- A key type's `compare`, when it is a total order. -/
structure KeyOrder (κ : Type) where
  /-- Negative when the first key comes first, zero when the keys are equal. -/
  compare : κ → κ → Int
  /-- Only equal keys compare as zero. -/
  compare_eq_zero : ∀ a b, compare a b = 0 ↔ a = b
  /-- The order of two keys does not depend on which is asked about first. -/
  compare_swap : ∀ a b, compare a b < 0 ↔ 0 < compare b a
  /-- The order is transitive. -/
  compare_trans : ∀ a b c, compare a b < 0 → compare b c < 0 → compare a c < 0

/-- The ordered map `Dict`. -/
inductive Dict (κ ν : Type) where
  | empty
  | node (size : Nat) (left : Dict κ ν) (key : κ) (value : ν) (right : Dict κ ν)

namespace Dict

variable {κ ν ω : Type}

/-- The balance bound. -/
def delta : Nat := 3

/-- The threshold between a single and a double rotation. -/
def ratio : Nat := 2

/-- A subtree's cached entry count. -/
def size : Dict κ ν → Nat
  | empty => 0
  | node s _ _ _ _ => s

/-- A node whose size is its children's plus one. -/
def bin (l : Dict κ ν) (k : κ) (v : ν) (r : Dict κ ν) : Dict κ ν :=
  node (size l + size r + 1) l k v r

/-- Rotate the heavy side, choosing a single or double rotation by the inner subtree's weight. -/
def balance (l : Dict κ ν) (k : κ) (v : ν) (r : Dict κ ν) : Dict κ ν :=
  if size l + size r ≤ 1 then
    bin l k v r
  else if size r > delta * size l then
    match r with
    | empty => bin l k v r
    | node _ rl rk rv rr =>
      if size rl < ratio * size rr then
        bin (bin l k v rl) rk rv rr
      else
        match rl with
        | empty => bin (bin l k v rl) rk rv rr
        | node _ rll rlk rlv rlr => bin (bin l k v rll) rlk rlv (bin rlr rk rv rr)
  else if size l > delta * size r then
    match l with
    | empty => bin l k v r
    | node _ ll lk lv lr =>
      if size lr < ratio * size ll then
        bin ll lk lv (bin lr k v r)
      else
        match lr with
        | empty => bin ll lk lv (bin lr k v r)
        | node _ lrl lrk lrv lrr => bin (bin ll lk lv lrl) lrk lrv (bin lrr k v r)
  else
    bin l k v r

/-- A dictionary of one entry. -/
def singleton (k : κ) (v : ν) : Dict κ ν := node 1 empty k v empty

/-- Detach the smallest entry of a tree given by its parts: the rest, and the entry. -/
def takeMin : Dict κ ν → κ → ν → Dict κ ν → Dict κ ν × κ × ν
  | empty, k, v, r => (r, k, v)
  | node _ ll lk lv lr, k, v, r =>
    match takeMin ll lk lv lr with
    | (l2, mk, mv) =>
      (if size r > delta * size l2 then balance l2 k v r else bin l2 k v r, mk, mv)

/-- The left part of a node is smaller. -/
theorem sizeOf_left_lt (n : Nat) (l : Dict κ ν) (k : κ) (v : ν) (r : Dict κ ν) :
    sizeOf l < sizeOf (node n l k v r) := by
  simp only [node.sizeOf_spec]
  omega

/-- The right part of a node is smaller. -/
theorem sizeOf_right_lt (n : Nat) (l : Dict κ ν) (k : κ) (v : ν) (r : Dict κ ν) :
    sizeOf r < sizeOf (node n l k v r) := by
  simp only [node.sizeOf_spec]
  omega

/-- Link two trees and the entry between them into one tree, whatever their sizes. -/
def join (l : Dict κ ν) (k : κ) (v : ν) (r : Dict κ ν) : Dict κ ν :=
  if delta * size l < size r then
    match r with
    | empty => bin l k v r
    | node _ rl rk rv rr => balance (join l k v rl) rk rv rr
  else if delta * size r < size l then
    match l with
    | empty => bin l k v r
    | node _ ll lk lv lr => balance ll lk lv (join lr k v r)
  else
    bin l k v r
termination_by sizeOf l + sizeOf r
decreasing_by
  · exact Nat.add_lt_add_left (sizeOf_left_lt _ rl rk rv rr) _
  · exact Nat.add_lt_add_right (sizeOf_right_lt _ ll lk lv lr) _

/-- Link two trees without an entry between them, promoting the least entry of the right one. -/
def join2 (l r : Dict κ ν) : Dict κ ν :=
  match l with
  | empty => r
  | node _ _ _ _ _ =>
    match r with
    | empty => l
    | node _ rl rk rv rr =>
      match takeMin rl rk rv rr with
      | (r2, mk, mv) => join l mk mv r2

/-- The entries onto an accumulator, in ascending key order. -/
def toListOnto : Dict κ ν → List (κ × ν) → List (κ × ν)
  | empty, acc => acc
  | node _ l k v r, acc => toListOnto l ((k, v) :: toListOnto r acc)

/-- The entries in ascending key order. -/
def toList (d : Dict κ ν) : List (κ × ν) := toListOnto d []

/-- Transform every value, with its key. -/
def map (f : κ → ν → ω) : Dict κ ν → Dict κ ω
  | empty => empty
  | node s l k v r => node s (map f l) k (f k v) (map f r)

/-- Keep the entries that satisfy a test. -/
def filter (keep : κ → ν → Bool) : Dict κ ν → Dict κ ν
  | empty => empty
  | node _ l k v r =>
    if keep k v then join (filter keep l) k v (filter keep r)
    else join2 (filter keep l) (filter keep r)

section Keyed

variable (order : KeyOrder κ)

/-- Insert or replace the value of a key. -/
def insert (key : κ) (value : ν) : Dict κ ν → Dict κ ν
  | empty => singleton key value
  | node s l k v r =>
    if order.compare key k < 0 then
      let l2 := insert key value l
      if size l2 > delta * size r then balance l2 k v r else bin l2 k v r
    else if order.compare key k > 0 then
      let r2 := insert key value r
      if size r2 > delta * size l then balance l k v r2 else bin l k v r2
    else
      node s l key value r

/-- Look up the value of a key. -/
def get (key : κ) : Dict κ ν → Option ν
  | empty => none
  | node _ l k v r =>
    if order.compare key k < 0 then get key l
    else if order.compare key k > 0 then get key r
    else some v

/-- Whether a key is present. -/
def member (key : κ) : Dict κ ν → Bool
  | empty => false
  | node _ l k _ r =>
    if order.compare key k < 0 then member key l
    else if order.compare key k > 0 then member key r
    else true

/-- Remove a key if it is present. -/
def remove (key : κ) : Dict κ ν → Dict κ ν
  | empty => empty
  | node _ l k v r =>
    if order.compare key k < 0 then
      let l2 := remove key l
      if size r > delta * size l2 then balance l2 k v r else bin l2 k v r
    else if order.compare key k > 0 then
      let r2 := remove key r
      if size l > delta * size r2 then balance l k v r2 else bin l k v r2
    else
      join2 l r

/-- Set or clear the value of a key, by what a function makes of the present one. -/
def update (key : κ) (f : Option ν → Option ν) (d : Dict κ ν) : Dict κ ν :=
  match f (get order key d) with
  | none => remove order key d
  | some v => insert order key v d

/-- The entries below a key, whether it is present, and the entries above it. -/
def splitMember (key : κ) : Dict κ ν → Dict κ ν × Bool × Dict κ ν
  | empty => (empty, false, empty)
  | node _ l k v r =>
    if order.compare key k < 0 then
      match splitMember key l with
      | (ll, present, lr) => (ll, present, join lr k v r)
    else if order.compare key k > 0 then
      match splitMember key r with
      | (rl, present, rr) => (join l k v rl, present, rr)
    else
      (l, true, r)

/-- Every key of either map, with the left map's value where both have one. -/
def union : Dict κ ν → Dict κ ν → Dict κ ν
  | empty, b => b
  | node s la ka va ra, b =>
    match b with
    | empty => node s la ka va ra
    | node _ _ _ _ _ =>
      match splitMember order ka b with
      | (lb, _, rb) => join (union la lb) ka va (union ra rb)

/-- The keys of both maps, with the left map's value. -/
def intersection : Dict κ ν → Dict κ ν → Dict κ ν
  | empty, _ => empty
  | node _ la ka va ra, b =>
    match splitMember order ka b with
    | (lb, present, rb) =>
      if present then join (intersection la lb) ka va (intersection ra rb)
      else join2 (intersection la lb) (intersection ra rb)

/-- The left map's entries whose keys the right map does not have. -/
def difference (a : Dict κ ν) : Dict κ ν → Dict κ ν
  | empty => a
  | node _ lb kb _ rb =>
    match splitMember order kb a with
    | (la, _, ra) => join2 (difference la lb) (difference ra rb)

/-- Insert a pair. -/
def insertPair (d : Dict κ ν) (pair : κ × ν) : Dict κ ν := insert order pair.1 pair.2 d

/-- Build a dictionary from pairs, the later ones winning. -/
def fromList (pairs : List (κ × ν)) : Dict κ ν := pairs.foldl (insertPair order) empty

end Keyed

end Dict

end Fai.Collections
