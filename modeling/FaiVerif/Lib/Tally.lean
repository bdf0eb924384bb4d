import Mathlib.Algebra.BigOperators.Intervals
import Mathlib.Algebra.Order.BigOperators.Group.Finset

/-!
# Sums over numbered parts

A total over the parts `0 … n - 1` of a system, and how it moves when one or two parts change. The
statements have no subtraction, so they hold in every commutative additive monoid.
-/

namespace Fai.Tally

variable {M : Type} [AddCommMonoid M]

/-- When one part changes, its old and new contributions balance the totals. -/
theorem sum_replace {n i : Nat} {f g : Nat → M} (inside : i < n)
    (same : ∀ j, j < n → j ≠ i → g j = f j) :
    (∑ j ∈ Finset.range n, g j) + f i = (∑ j ∈ Finset.range n, f j) + g i := by
  have member : i ∈ Finset.range n := Finset.mem_range.mpr inside
  have others : ∑ j ∈ (Finset.range n).erase i, g j = ∑ j ∈ (Finset.range n).erase i, f j := by
    apply Finset.sum_congr rfl
    intro j there
    exact same j (Finset.mem_range.mp (Finset.mem_of_mem_erase there))
      (Finset.ne_of_mem_erase there)
  rw [← Finset.add_sum_erase _ g member, ← Finset.add_sum_erase _ f member, others,
    add_right_comm, add_comm (f i + _), add_assoc]

/-- A total does not fall when one part gives up one and another gains one. -/
theorem sum_le_of_transfer {n a b : Nat} {f g : Nat → Nat} (insideA : a < n) (insideB : b < n)
    (different : a ≠ b) (lost : f a ≤ g a + 1) (won : f b + 1 ≤ g b)
    (others : ∀ j, j ≠ a → j ≠ b → f j ≤ g j) :
    ∑ j ∈ Finset.range n, f j ≤ ∑ j ∈ Finset.range n, g j := by
  have raised := sum_replace (g := Function.update f b (f b + 1)) insideB
    (fun j _ away => Function.update_of_ne away _ f)
  have repaid := sum_replace (g := Function.update g a (g a + 1)) insideA
    (fun j _ away => Function.update_of_ne away _ g)
  have pointwise : ∑ j ∈ Finset.range n, Function.update f b (f b + 1) j ≤
      ∑ j ∈ Finset.range n, Function.update g a (g a + 1) j := by
    apply Finset.sum_le_sum
    intro j _
    by_cases atA : j = a
    · subst atA
      rw [Function.update_of_ne different, Function.update_self]
      exact lost
    · rw [Function.update_of_ne atA]
      by_cases atB : j = b
      · subst atB
        rw [Function.update_self]
        exact won
      · rw [Function.update_of_ne atB]
        exact others j atA atB
  simp only [Function.update_self] at raised repaid
  omega

/-- A total over more parts, each at least as large, is at least as large. -/
theorem sum_le_of_grow {m n : Nat} {f g : Nat → Nat} (more : m ≤ n)
    (each : ∀ j, j < m → f j ≤ g j) :
    ∑ j ∈ Finset.range m, f j ≤ ∑ j ∈ Finset.range n, g j := by
  calc ∑ j ∈ Finset.range m, f j ≤ ∑ j ∈ Finset.range m, g j := by
        apply Finset.sum_le_sum
        intro j inside
        exact each j (Finset.mem_range.mp inside)
    _ ≤ ∑ j ∈ Finset.range n, g j := by
        apply Finset.sum_le_sum_of_subset
        exact Finset.range_subset_range.mpr more

end Fai.Tally
