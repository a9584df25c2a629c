import Mathlib.Algebra.GroupWithZero.Nat
import Mathlib.Order.Lattice
import Mathlib.Algebra.BigOperators.Group.List.Basic

/-!
# Saturating arithmetic

Addition of bounded numbers that stops at the bound. A list that is added up in this way gives its
true sum, cut off at the bound, so a result below the bound is the true sum.
-/

namespace Saturating

variable {limit : Nat} {values : List Nat}

/-- Addition that stops at the limit. -/
def add (limit l r : Nat) : Nat :=
  if l > limit - r then limit else l + r

/-- The values added up from the left, each addition stopping at the limit. -/
def sum (limit : Nat) (values : List Nat) : Nat := values.foldl (add limit) 0

theorem add_eq_min {l r : Nat} (hr : r ≤ limit) : add limit l r = min limit (l + r) := by
  unfold add
  split <;> omega

section

variable (hvals : ∀ v ∈ values, v ≤ limit)

include hvals

theorem foldl_add_eq_min {start : Nat} (hstart : start ≤ limit) :
    values.foldl (add limit) start = min limit (start + values.sum) := by
  induction values generalizing start with
  | nil => simp [hstart]
  | cons v values ih =>
    rw [List.forall_mem_cons] at hvals
    rw [List.foldl_cons, add_eq_min hvals.1, ih hvals.2 (min_le_left _ _), List.sum_cons]
    omega

/-- The saturated sum is the true sum cut off at the limit. -/
theorem sum_eq_min : sum limit values = min limit values.sum := by
  rw [sum, foldl_add_eq_min hvals (Nat.zero_le limit), zero_add]

theorem sum_le : sum limit values ≤ values.sum := by
  rw [sum_eq_min hvals]
  exact min_le_right _ _

theorem sum_le_limit : sum limit values ≤ limit := by
  rw [sum_eq_min hvals]
  exact min_le_left _ _

/-- A saturated sum below the limit is the true sum. -/
theorem sum_eq_of_lt (h : sum limit values < limit) : sum limit values = values.sum := by
  rw [sum_eq_min hvals] at h ⊢
  omega

end

end Saturating
