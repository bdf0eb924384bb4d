import Mathlib.Data.List.Basic
import Mathlib.Tactic.Common

/-!
# Scanning a text

A scanner stands before what is left of its text, and knows how many bytes it has left behind. A
step of it takes characters off the front of what is left.
-/

namespace Fai.Scan

/-- The bytes of a text. -/
def size : List Char → Nat
  | [] => 0
  | c :: text => c.utf8Size + size text

@[simp] theorem size_nil : size [] = 0 := rfl

@[simp] theorem size_cons (c : Char) (text : List Char) :
    size (c :: text) = c.utf8Size + size text := rfl

/-- The bytes of two texts. -/
@[simp] theorem size_append (front back : List Char) :
    size (front ++ back) = size front + size back := by
  induction front with
  | nil => simp
  | cons c front ih => simp [ih, Nat.add_assoc]

/-- What is left of a text past so many bytes. -/
def dropBytes : Nat → List Char → List Char
  | 0, text => text
  | _ + 1, [] => []
  | n + 1, c :: text => dropBytes (n + 1 - c.utf8Size) text

/-- The front of a text of so many bytes. -/
def takeBytes : Nat → List Char → List Char
  | 0, _ => []
  | _ + 1, [] => []
  | n + 1, c :: text => c :: takeBytes (n + 1 - c.utf8Size) text

/-- The text between two offsets. -/
def slice (start finish : Nat) (text : List Char) : List Char :=
  takeBytes (finish - start) (dropBytes start text)

/-- Past the bytes of the front is the back. -/
theorem dropBytes_append (front back : List Char) :
    dropBytes (size front) (front ++ back) = back := by
  induction front with
  | nil => simp [dropBytes]
  | cons c front ih =>
    have width := c.utf8Size_pos
    obtain ⟨n, more⟩ := Nat.exists_eq_add_of_lt width
    rw [size_cons, more, show 0 + n + 1 + size front = (n + size front) + 1 by omega,
      List.cons_append, dropBytes, more]
    rw [show n + size front + 1 - (0 + n + 1) = size front by omega, ih]

/-- The bytes of the front are the front. -/
theorem takeBytes_append (front back : List Char) :
    takeBytes (size front) (front ++ back) = front := by
  induction front with
  | nil => simp [takeBytes]
  | cons c front ih =>
    have width := c.utf8Size_pos
    obtain ⟨n, more⟩ := Nat.exists_eq_add_of_lt width
    rw [size_cons, more, show 0 + n + 1 + size front = (n + size front) + 1 by omega,
      List.cons_append, takeBytes, more]
    rw [show n + size front + 1 - (0 + n + 1) = size front by omega, ih]

/-- The text between the two ends of a part of it. -/
theorem slice_part (front part back : List Char) :
    slice (size front) (size front + size part) (front ++ part ++ back) = part := by
  rw [slice, List.append_assoc, dropBytes_append, Nat.add_sub_cancel_left, takeBytes_append]

/-- A place in a text: the bytes left behind, and the text that is left. -/
structure Cursor where
  pos : Nat
  rest : List Char
  deriving DecidableEq

namespace Cursor

/-- Takes the next character. -/
def next (place : Cursor) : Cursor :=
  match place.rest with
  | [] => place
  | c :: rest => ⟨place.pos + c.utf8Size, rest⟩

/-- Takes the characters that pass a test, from a place. -/
def skipFrom (test : Char → Bool) (pos : Nat) : List Char → Cursor
  | [] => ⟨pos, []⟩
  | c :: rest => if test c then skipFrom test (pos + c.utf8Size) rest else ⟨pos, c :: rest⟩

/-- Takes the characters that pass a test. -/
def skipWhile (test : Char → Bool) (place : Cursor) : Cursor := skipFrom test place.pos place.rest

/-- One place is further than another by a text. -/
structure Takes (before after : Cursor) (front : List Char) : Prop where
  rest : before.rest = front ++ after.rest
  pos : after.pos = before.pos + size front

namespace Takes

variable {a b c : Cursor} {first second front : List Char}

/-- A place is where it is. -/
theorem refl (a : Cursor) : Takes a a [] := ⟨rfl, rfl⟩

/-- One text is taken after another. -/
theorem trans (one : Takes a b first) (two : Takes b c second) : Takes a c (first ++ second) := by
  refine ⟨by rw [one.rest, two.rest, List.append_assoc], ?_⟩
  rw [two.pos, one.pos, size_append, Nat.add_assoc]

/-- What is left is no longer than it was. -/
theorem length (taken : Takes a b front) : b.rest.length + front.length = a.rest.length := by
  rw [taken.rest, List.length_append]
  omega

end Takes

/-- The next character is taken. -/
theorem takes_next {a : Cursor} {c : Char} {rest : List Char} (left : a.rest = c :: rest) :
    Takes a a.next [c] ∧ a.next.rest = rest := by
  have same : a.next = ⟨a.pos + c.utf8Size, rest⟩ := by rw [next, left]
  rw [same]
  exact ⟨⟨left, by simp⟩, rfl⟩

/-- The characters that pass the test are taken, and they end before one that fails it. -/
theorem takes_skipFrom (test : Char → Bool) (pos : Nat) (rest : List Char) :
    Takes ⟨pos, rest⟩ (skipFrom test pos rest) (rest.takeWhile test) ∧
      (skipFrom test pos rest).rest = rest.dropWhile test := by
  induction rest generalizing pos with
  | nil => exact ⟨.refl _, rfl⟩
  | cons c rest ih =>
    by_cases pass : test c
    · have taken : Takes ⟨pos, c :: rest⟩ ⟨pos + c.utf8Size, rest⟩ [c] := ⟨rfl, by simp⟩
      obtain ⟨more, left⟩ := ih (pos + c.utf8Size)
      rw [skipFrom, if_pos pass, List.takeWhile_cons_of_pos pass, List.dropWhile_cons_of_pos pass]
      exact ⟨taken.trans more, left⟩
    · rw [skipFrom, if_neg pass, List.takeWhile_cons_of_neg pass, List.dropWhile_cons_of_neg pass]
      exact ⟨.refl _, rfl⟩

/-- The characters that pass the test are taken. -/
theorem takes_skipWhile (test : Char → Bool) (a : Cursor) :
    Takes a (a.skipWhile test) (a.rest.takeWhile test) ∧
      (a.skipWhile test).rest = a.rest.dropWhile test :=
  takes_skipFrom test a.pos a.rest

end Cursor

end Fai.Scan
