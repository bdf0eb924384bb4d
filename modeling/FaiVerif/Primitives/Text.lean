import Mathlib.Data.Int.Notation
import Mathlib.Data.List.Basic
import Mathlib.Tactic.Common

/-!
# Strings

A string is its Unicode scalar values, which `std/primitives/String.fai` counts, cuts and pads.
-/

namespace Fai.Text

/-- The number of characters. -/
def length (s : List Char) : Int := s.length

/-- The characters from an index on, so many of them. -/
def substring (start len : Int) (s : List Char) : List Char :=
  if len ≤ 0 then [] else (s.take (start + len).toNat).drop start.toNat

/-- The first characters. -/
def take (n : Int) (s : List Char) : List Char := s.take n.toNat

/-- All but the first characters. -/
def drop (n : Int) (s : List Char) : List Char := s.drop n.toNat

/-- The pieces between the occurrences of a character. -/
def split (sep : Char) (s : List Char) : List (List Char) := s.splitOn sep

/-- Puts copies of a character in front until a string is long enough, so many times at most. -/
def padFrom (width : Int) (pad : Char) : Nat → List Char → List Char
  | 0, s => s
  | more + 1, s => if length s ≥ width then s else padFrom width pad more (pad :: s)

/-- Puts copies of a character in front until a string is long enough. -/
def padStart (width : Int) (pad : Char) (s : List Char) : List Char :=
  padFrom width pad (width - length s).toNat s

/-- Padding is so many copies in front. -/
theorem padStart_eq (width : Nat) (pad : Char) (s : List Char) :
    padStart width pad s = List.replicate (width - s.length) pad ++ s := by
  have steps (more : Nat) : ∀ s : List Char, width - s.length = more →
      padFrom width pad more s = List.replicate more pad ++ s := by
    induction more with
    | zero => exact fun s _ => rfl
    | succ more hypothesis =>
      intro s missing
      have short : ¬ length s ≥ width := by
        show ¬ (width : Int) ≤ (s.length : Int)
        omega
      rw [padFrom, if_neg short, hypothesis (pad :: s) (by rw [List.length_cons]; omega),
        List.replicate_succ', List.append_assoc]
      rfl
  have count : ((width : Int) - length s).toNat = width - s.length := by
    show ((width : Int) - (s.length : Int)).toNat = _
    omega
  rw [padStart, count, steps _ s rfl]

/-- A piece between two others. -/
theorem substring_eq {s front piece back : List Char} {start len : Int}
    (parts : s = front ++ piece ++ back) (first : start = front.length)
    (size : len = piece.length) : substring start len s = piece := by
  subst parts first size
  cases piece with
  | nil => rfl
  | cons char piece =>
    have present : ¬ ((char :: piece).length : Int) ≤ 0 := by simp only [List.length_cons]; omega
    have finish : ((front.length : Int) + ((char :: piece).length : Int)).toNat =
        (front ++ char :: piece).length := by
      rw [List.length_append]
      omega
    rw [substring, if_neg present, finish, List.take_left', Int.toNat_natCast, List.drop_left']
    · rfl
    · rfl

/-- A piece of the end of a string. -/
theorem substring_append {start : Int} (front tail : List Char) (k len : Nat)
    (first : start = front.length + k) :
    substring start len (front ++ tail) = (tail.drop k).take len := by
  unfold substring
  split_ifs with empty
  · have zero : len = 0 := by omega
    rw [zero, List.take_zero]
  · have finish : (start + len).toNat = front.length + (k + len) := by omega
    have begins : start.toNat = front.length + k := by omega
    rw [finish, begins, List.take_length_add_append, List.drop_length_add_append, List.drop_take,
      Nat.add_sub_cancel_left]

end Fai.Text
