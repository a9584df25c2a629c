import Mathlib.Algebra.Order.BigOperators.Group.List

/-!
# Largest first

Sums over the first elements of a descending list. No choice of as many elements has a greater sum,
so the shortest of the first parts that reaches a bound is a shortest choice that does.
-/

namespace LargestFirst

open List

variable {M : Type*} [AddCommMonoid M] [LinearOrder M] [IsOrderedAddMonoid M]
  [CanonicallyOrderedAdd M] {a : M} {values other : List M}

/-- An element in front that is not below the others makes no first part smaller. -/
theorem sum_take_le_sum_take_cons (h : (a :: values).Pairwise (· ≥ ·)) (count : Nat) :
    (values.take count).sum ≤ ((a :: values).take count).sum := by
  induction values generalizing a count with
  | nil => simp
  | cons b values ih =>
    cases count with
    | zero => simp
    | succ count =>
      rw [take_succ_cons, take_succ_cons, sum_cons, sum_cons]
      have hba : b ≤ a := rel_of_pairwise_cons h mem_cons_self
      exact add_le_add hba (ih h.of_cons count)

theorem sum_sublist_le_sum_take (h : values.Pairwise (· ≥ ·)) (hsub : other.Sublist values) :
    other.sum ≤ (values.take other.length).sum := by
  induction hsub with
  | slnil => simp
  | cons a hsub ih =>
    exact (ih h.of_cons).trans (sum_take_le_sum_take_cons h _)
  | cons_cons a hsub ih =>
    rw [length_cons, take_succ_cons, sum_cons, sum_cons]
    exact add_le_add le_rfl (ih h.of_cons)

/-- No choice of elements has a greater sum than the first part of its length. -/
theorem sum_le_sum_take (h : values.Pairwise (· ≥ ·)) (hsub : other.Subperm values) :
    other.sum ≤ (values.take other.length).sum := by
  obtain ⟨sorted, hperm, hsublist⟩ := hsub
  calc other.sum = sorted.sum := hperm.symm.sum_eq
    _ ≤ (values.take sorted.length).sum := sum_sublist_le_sum_take h hsublist
    _ = (values.take other.length).sum := by rw [hperm.length_eq]

/-- A choice that reaches a bound is at least as long as the first part where the shorter ones do
not reach it. -/
theorem le_length_of_le_sum {bound : M} {count : Nat} (h : values.Pairwise (· ≥ ·))
    (hshorter : ∀ n < count, (values.take n).sum < bound) (hsub : other.Subperm values)
    (hbound : bound ≤ other.sum) : count ≤ other.length := by
  by_contra hlt
  have hsum := hshorter other.length (not_le.mp hlt)
  exact absurd (hbound.trans (sum_le_sum_take h hsub)) (not_le.mpr hsum)

end LargestFirst
