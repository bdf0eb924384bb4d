import Mathlib.Algebra.Group.Int.Defs
import Mathlib.Algebra.Group.Nat.Defs
import Mathlib.Data.Int.Notation
import Mathlib.Tactic.Common

/-!
# Expressions over 64-bit integers

An integer expression is written once, over any arithmetic. Over `Int64` it is what the machine
computes. Over `Checked` it is computed in the integers, with a mark of whether every value on the
way fits a machine word; then both arithmetics agree.
-/

namespace Fai.Machine64

/-- The operations that integer expressions are written with. -/
class Arithmetic (α : Type) extends Add α, Sub α, Mul α, Div α, Mod α where
  literal : Nat → α
  /-- Whether a number is at most another. -/
  atMost : α → α → Bool
  /-- Whether two numbers are the same. -/
  same : α → α → Bool

export Arithmetic (atMost same)

scoped instance (priority := low) {α : Type} [Arithmetic α] (n : Nat) : OfNat α n :=
  ⟨Arithmetic.literal n⟩

/-- Whether a number is below another. -/
def below {α : Type} [Arithmetic α] (a b : α) : Bool := !atMost b a

instance : Arithmetic Int64 where
  literal := Int64.ofNat
  atMost a b := decide (a ≤ b)
  same a b := decide (a = b)

/-- Whether a number fits a machine word. -/
def Fits (value : ℤ) : Prop := -2 ^ 63 ≤ value ∧ value < 2 ^ 63

instance (value : ℤ) : Decidable (Fits value) := inferInstanceAs (Decidable (_ ∧ _))

/-- An integer, and whether it and all that it was computed from fit a machine word. -/
structure Checked where
  value : ℤ
  exact : Bool

/-- An integer as the input of a computation. -/
def Checked.of (value : ℤ) (exact : Bool) : Checked := ⟨value, exact && decide (Fits value)⟩

instance : Arithmetic Checked where
  add a b := .of (a.value + b.value) (a.exact && b.exact)
  sub a b := .of (a.value - b.value) (a.exact && b.exact)
  mul a b := .of (a.value * b.value) (a.exact && b.exact)
  div a b := .of (a.value.tdiv b.value) (a.exact && b.exact)
  mod a b := .of (a.value.tmod b.value) (a.exact && b.exact)
  literal n := .of n true
  atMost a b := decide (a.value ≤ b.value)
  same a b := decide (a.value = b.value)

/-- Both arithmetics have come to a number, without leaving the machine words on the way. -/
structure Computes (x : Int64) (c : Checked) (value : ℤ) : Prop where
  machine : x.toInt = value
  ideal : c.value = value
  exact : c.exact = true

/-- A machine word fits. -/
theorem fits_toInt (word : Int64) : Fits word.toInt :=
  ⟨Int64.le_toInt word, Int64.toInt_lt word⟩

/-- A number that fits is its own wrapped residue. -/
theorem bmod_of_fits {value : ℤ} (fits : Fits value) : value.bmod (2 ^ 64) = value :=
  Int.bmod_eq_of_le (by have := fits.1; omega) (by have := fits.2; omega)

/-- The number of the word of a number that fits. -/
theorem toInt_ofInt {value : ℤ} (fits : Fits value) : (Int64.ofInt value).toInt = value := by
  rw [Int64.toInt_ofInt]
  exact bmod_of_fits fits

/-- An input that fits is exact when those before it are. -/
theorem Checked.of_exact {value : ℤ} {exact : Bool} (fits : Fits value) (before : exact = true) :
    (Checked.of value exact).exact = true := by
  rw [before]
  exact decide_eq_true fits

namespace Computes

variable {x y : Int64} {c d : Checked} {v w : ℤ}

/-- A computation starts at a word. -/
theorem start (word : Int64) : Computes word (.of word.toInt true) word.toInt :=
  ⟨rfl, rfl, Checked.of_exact (fits_toInt word) rfl⟩

/-- A value of a computation fits. -/
theorem fits (left : Computes x c v) : Fits v := left.machine ▸ fits_toInt x

/-- A computation of a number that is written in another way. -/
theorem cast (left : Computes x c v) (same : v = w) : Computes x c w := same ▸ left

/-- A literal. -/
theorem literal (n : Nat) (fits : Fits n) :
    Computes (Arithmetic.literal n) (Arithmetic.literal n) n := by
  refine ⟨?_, rfl, Checked.of_exact fits rfl⟩
  have small : n < 2 ^ 63 := by have := fits.2; omega
  exact Int64.toInt_ofNat_of_lt small

/-- An operation on two numbers, whose result fits. -/
theorem operation {z : Int64} {a : ℤ} (left : Computes x c v) (right : Computes y d w)
    (machine : z.toInt = a.bmod (2 ^ 64)) (fits : Fits a) :
    Computes z (.of a (c.exact && d.exact)) a :=
  ⟨machine.trans (bmod_of_fits fits), rfl,
    Checked.of_exact fits (by rw [left.exact, right.exact]; rfl)⟩

/-- A sum that fits. -/
theorem add (left : Computes x c v) (right : Computes y d w) (fits : Fits (v + w)) :
    Computes (x + y) (c + d) (v + w) := by
  obtain rfl := left.ideal
  obtain rfl := right.ideal
  exact operation left right (by rw [Int64.toInt_add, left.machine, right.machine]) fits

/-- A difference that fits. -/
theorem sub (left : Computes x c v) (right : Computes y d w) (fits : Fits (v - w)) :
    Computes (x - y) (c - d) (v - w) := by
  obtain rfl := left.ideal
  obtain rfl := right.ideal
  exact operation left right (by rw [Int64.toInt_sub, left.machine, right.machine]) fits

/-- A product that fits. -/
theorem mul (left : Computes x c v) (right : Computes y d w) (fits : Fits (v * w)) :
    Computes (x * y) (c * d) (v * w) := by
  obtain rfl := left.ideal
  obtain rfl := right.ideal
  exact operation left right (by rw [Int64.toInt_mul, left.machine, right.machine]) fits

/-- A quotient by a positive number, rounded towards zero. -/
theorem div (left : Computes x c v) (right : Computes y d w) (positive : 0 < w) :
    Computes (x / y) (c / d) (v.tdiv w) := by
  obtain rfl := left.ideal
  obtain rfl := right.ideal
  have fits : Fits (c.value.tdiv d.value) := by
    have inside := left.fits
    have smaller := Int.natAbs_tdiv_le_natAbs c.value d.value
    have sign : c.value ≤ 0 → c.value.tdiv d.value ≤ 0 := fun negative => by
      simpa using Int.tdiv_le_tdiv positive negative
    exact ⟨by have := inside.1; have := inside.2; omega,
      by have := inside.1; have := inside.2; omega⟩
  exact operation left right (by rw [Int64.toInt_div, left.machine, right.machine]) fits

/-- A remainder of a quotient rounded towards zero. -/
theorem mod (left : Computes x c v) (right : Computes y d w) (positive : 0 < w) :
    Computes (x % y) (c % d) (v.tmod w) := by
  obtain rfl := left.ideal
  obtain rfl := right.ideal
  have fits : Fits (c.value.tmod d.value) := by
    have inside := right.fits
    have size := Int.natAbs_tmod c.value d.value
    have bound : c.value.natAbs % d.value.natAbs < d.value.natAbs := Nat.mod_lt _ (by omega)
    exact ⟨by have := inside.2; omega, by have := inside.2; omega⟩
  exact operation left right
    (by rw [Int64.toInt_mod, left.machine, right.machine, bmod_of_fits fits]) fits

/-- A quotient of numbers that are not negative. -/
theorem divide (left : Computes x c v) (right : Computes y d w) (nonneg : 0 ≤ v)
    (positive : 0 < w) : Computes (x / y) (c / d) (v / w) :=
  (left.div right positive).cast (Int.tdiv_eq_ediv_of_nonneg nonneg)

/-- A remainder of numbers that are not negative. -/
theorem remainder (left : Computes x c v) (right : Computes y d w) (nonneg : 0 ≤ v)
    (positive : 0 < w) : Computes (x % y) (c % d) (v % w) :=
  (left.mod right positive).cast (Int.tmod_eq_emod_of_nonneg nonneg)

/-- Both arithmetics compare alike. -/
theorem atMost (left : Computes x c v) (right : Computes y d w) :
    atMost x y = decide (v ≤ w) ∧ atMost c d = decide (v ≤ w) := by
  refine ⟨?_, ?_⟩
  · show decide (x ≤ y) = decide (v ≤ w)
    rw [decide_eq_decide, Int64.le_iff_toInt_le, left.machine, right.machine]
  · show decide (c.value ≤ d.value) = decide (v ≤ w)
    rw [left.ideal, right.ideal]

/-- Both arithmetics compare alike. -/
theorem below (left : Computes x c v) (right : Computes y d w) :
    below x y = decide (v < w) ∧ below c d = decide (v < w) := by
  have swapped := right.atMost left
  have negated : (!decide (w ≤ v)) = decide (v < w) := by
    rw [← decide_not, decide_eq_decide, Int.not_le]
  exact ⟨(congrArg not swapped.1).trans negated, (congrArg not swapped.2).trans negated⟩

/-- Both arithmetics compare alike. -/
theorem same (left : Computes x c v) (right : Computes y d w) :
    same x y = decide (v = w) ∧ same c d = decide (v = w) := by
  refine ⟨?_, ?_⟩
  · show decide (x = y) = decide (v = w)
    rw [decide_eq_decide, ← Int64.toInt_inj, left.machine, right.machine]
  · show decide (c.value = d.value) = decide (v = w)
    rw [left.ideal, right.ideal]

/-- Both arithmetics take the same branch. -/
theorem branch {test other : Bool} {p : Prop} [Decidable p]
    (tests : test = decide p ∧ other = decide p) (yes : p → Computes x c v)
    (no : ¬ p → Computes y d w) :
    Computes (if test then x else y) (if other then c else d) (if p then v else w) := by
  rw [tests.1, tests.2]
  by_cases holds : p
  · simpa [holds] using yes holds
  · simpa [holds] using no holds

end Computes

end Fai.Machine64
