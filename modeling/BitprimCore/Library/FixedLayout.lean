import Mathlib.Algebra.GroupWithZero.Nat
import Mathlib.Data.List.Basic

/-!
# Fixed layouts

A record of fields of fixed widths is written by putting the fields behind each other, and read by
cutting the bytes at the widths. Each of the two undoes the other.
-/

namespace FixedLayout

open List

variable {α : Type*}

/-- The fields of some widths, from the front. -/
def cut : List Nat → List α → List (List α)
  | [], _ => []
  | width :: widths, items => items.take width :: cut widths (items.drop width)

theorem cut_flatten (fields : List (List α)) : cut (fields.map length) fields.flatten = fields := by
  induction fields with
  | nil => rfl
  | cons field fields ih =>
    rw [map_cons, flatten_cons, cut, take_left, drop_left, ih]

theorem flatten_cut {widths : List Nat} {items : List α} (h : items.length = widths.sum) :
    (cut widths items).flatten = items := by
  induction widths generalizing items with
  | nil => exact (eq_nil_of_length_eq_zero h).symm
  | cons width widths ih =>
    rw [sum_cons] at h
    rw [cut, flatten_cons, ih, take_append_drop]
    rw [length_drop]
    omega

end FixedLayout
