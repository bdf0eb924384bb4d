import FaiVerif.Collections.Dict

/-!
# The ordered set

The weight-balanced search tree of `std/collections/Set.fai`. It is the dictionary's tree without
values; only `insert` differs, which keeps the element it finds, and `map`, which rebuilds.
-/

namespace Fai.Collections

/-- The ordered set `Set`. -/
inductive SetTree (α : Type) where
  | empty
  | node (size : Nat) (left : SetTree α) (element : α) (right : SetTree α)

namespace SetTree

variable {α β : Type}

/-- The balance bound. -/
def delta : Nat := 3

/-- The threshold between a single and a double rotation. -/
def ratio : Nat := 2

/-- A subtree's cached element count. -/
def size : SetTree α → Nat
  | empty => 0
  | node n _ _ _ => n

/-- A node whose size is its children's plus one. -/
def bin (l : SetTree α) (x : α) (r : SetTree α) : SetTree α := node (size l + size r + 1) l x r

/-- Rotate the heavy side, choosing a single or double rotation by the inner subtree's weight. -/
def balance (l : SetTree α) (x : α) (r : SetTree α) : SetTree α :=
  if size l + size r ≤ 1 then
    bin l x r
  else if size r > delta * size l then
    match r with
    | empty => bin l x r
    | node _ rl ry rr =>
      if size rl < ratio * size rr then
        bin (bin l x rl) ry rr
      else
        match rl with
        | empty => bin (bin l x rl) ry rr
        | node _ rll rly rlr => bin (bin l x rll) rly (bin rlr ry rr)
  else if size l > delta * size r then
    match l with
    | empty => bin l x r
    | node _ ll ly lr =>
      if size lr < ratio * size ll then
        bin ll ly (bin lr x r)
      else
        match lr with
        | empty => bin ll ly (bin lr x r)
        | node _ lrl lry lrr => bin (bin ll ly lrl) lry (bin lrr x r)
  else
    bin l x r

/-- A set of one element. -/
def singleton (x : α) : SetTree α := node 1 empty x empty

/-- Detach the smallest element of a tree given by its parts: the rest, and the element. -/
def takeMin : SetTree α → α → SetTree α → SetTree α × α
  | empty, x, r => (r, x)
  | node _ ll ly lr, x, r =>
    match takeMin ll ly lr with
    | (l2, m) => (if size r > delta * size l2 then balance l2 x r else bin l2 x r, m)

/-- The left part of a node is smaller. -/
theorem sizeOf_left_lt (n : Nat) (l : SetTree α) (x : α) (r : SetTree α) :
    sizeOf l < sizeOf (node n l x r) := by
  simp only [node.sizeOf_spec]
  omega

/-- The right part of a node is smaller. -/
theorem sizeOf_right_lt (n : Nat) (l : SetTree α) (x : α) (r : SetTree α) :
    sizeOf r < sizeOf (node n l x r) := by
  simp only [node.sizeOf_spec]
  omega

/-- Link two trees and the element between them into one tree, whatever their sizes. -/
def join (l : SetTree α) (x : α) (r : SetTree α) : SetTree α :=
  if delta * size l < size r then
    match r with
    | empty => bin l x r
    | node _ rl ry rr => balance (join l x rl) ry rr
  else if delta * size r < size l then
    match l with
    | empty => bin l x r
    | node _ ll ly lr => balance ll ly (join lr x r)
  else
    bin l x r
termination_by sizeOf l + sizeOf r
decreasing_by
  · exact Nat.add_lt_add_left (sizeOf_left_lt _ rl ry rr) _
  · exact Nat.add_lt_add_right (sizeOf_right_lt _ ll ly lr) _

/-- Link two trees without an element between them, promoting the least element of the right
one. -/
def join2 (l r : SetTree α) : SetTree α :=
  match l with
  | empty => r
  | node _ _ _ _ =>
    match r with
    | empty => l
    | node _ rl ry rr =>
      match takeMin rl ry rr with
      | (r2, m) => join l m r2

/-- The elements onto an accumulator, in ascending order. -/
def toListOnto : SetTree α → List α → List α
  | empty, acc => acc
  | node _ l x r, acc => toListOnto l (x :: toListOnto r acc)

/-- The elements in ascending order. -/
def toList (s : SetTree α) : List α := toListOnto s []

/-- Keep the elements that satisfy a test. -/
def filter (keep : α → Bool) : SetTree α → SetTree α
  | empty => empty
  | node _ l x r =>
    if keep x then join (filter keep l) x (filter keep r)
    else join2 (filter keep l) (filter keep r)

section Keyed

variable (order : KeyOrder α)

/-- Add an element. -/
def insert (x : α) : SetTree α → SetTree α
  | empty => singleton x
  | node n l y r =>
    if order.compare x y < 0 then
      let l2 := insert x l
      if size l2 > delta * size r then balance l2 y r else bin l2 y r
    else if order.compare x y > 0 then
      let r2 := insert x r
      if size r2 > delta * size l then balance l y r2 else bin l y r2
    else
      node n l y r

/-- Whether an element is present. -/
def member (x : α) : SetTree α → Bool
  | empty => false
  | node _ l y r =>
    if order.compare x y < 0 then member x l
    else if order.compare x y > 0 then member x r
    else true

/-- Remove an element if it is present. -/
def remove (x : α) : SetTree α → SetTree α
  | empty => empty
  | node _ l y r =>
    if order.compare x y < 0 then
      let l2 := remove x l
      if size r > delta * size l2 then balance l2 y r else bin l2 y r
    else if order.compare x y > 0 then
      let r2 := remove x r
      if size l > delta * size r2 then balance l y r2 else bin l y r2
    else
      join2 l r

/-- The elements below one, whether it is present, and the elements above it. -/
def splitMember (x : α) : SetTree α → SetTree α × Bool × SetTree α
  | empty => (empty, false, empty)
  | node _ l y r =>
    if order.compare x y < 0 then
      match splitMember x l with
      | (ll, present, lr) => (ll, present, join lr y r)
    else if order.compare x y > 0 then
      match splitMember x r with
      | (rl, present, rr) => (join l y rl, present, rr)
    else
      (l, true, r)

/-- Every element of either set. -/
def union : SetTree α → SetTree α → SetTree α
  | empty, b => b
  | node n la xa ra, b =>
    match b with
    | empty => node n la xa ra
    | node _ _ _ _ =>
      match splitMember order xa b with
      | (lb, _, rb) => join (union la lb) xa (union ra rb)

/-- The elements of both sets. -/
def intersection : SetTree α → SetTree α → SetTree α
  | empty, _ => empty
  | node _ la xa ra, b =>
    match splitMember order xa b with
    | (lb, present, rb) =>
      if present then join (intersection la lb) xa (intersection ra rb)
      else join2 (intersection la lb) (intersection ra rb)

/-- The left set's elements that the right set does not have. -/
def difference (a : SetTree α) : SetTree α → SetTree α
  | empty => a
  | node _ lb xb rb =>
    match splitMember order xb a with
    | (la, _, ra) => join2 (difference la lb) (difference ra rb)

/-- Build a set from a list, duplicates collapsing. -/
def fromList (xs : List α) : SetTree α := xs.foldl (fun s x => insert order x s) empty

end Keyed

/-- Map a function over the elements, rebuilding the tree. -/
def map (order : KeyOrder β) (f : α → β) (s : SetTree α) : SetTree β :=
  fromList order ((toList s).map f)

end SetTree

end Fai.Collections
