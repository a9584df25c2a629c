import BitprimCore.Library.SlidingWindow
import Mathlib.Data.List.Sort

/-!
# Order statistics of lists

The element at a position of the sorted list, and the median of a list. An element is at most the
one at position `k` just when at most `k` elements of the list are below it, so order statistics are
compared by counting. A queue that takes a value not below its median has a median not below it.
-/

namespace OrderStatistic

open SlidingWindow List

variable {α : Type*} (r : α → α → Prop) [DecidableRel r]

/-- The element at a position of the sorted list. -/
def select (l : List α) (position : Nat) : Option α := (l.insertionSort r)[position]?

/-- The element in the middle, the higher of two. -/
def median (l : List α) : Option α := select r l (l.length / 2)

/-- The number of elements below a value. -/
def below (l : List α) (value : α) : Nat := l.countP fun x => !decide (r value x)

theorem below_append (l l' : List α) (value : α) :
    below r (l ++ l') value = below r l value + below r l' value :=
  countP_append

theorem below_tail_le (l : List α) (value : α) : below r l.tail value ≤ below r l value :=
  (tail_sublist l).countP_le

variable {r} {l l' queue : List α} {value m m' : α} {position position' : Nat}

theorem exists_select (h : position < l.length) : ∃ m, select r l position = some m :=
  ⟨_, getElem?_eq_getElem (by rwa [length_insertionSort])⟩

theorem exists_median (h : l ≠ []) : ∃ m, median r l = some m :=
  exists_select (Nat.div_lt_self (length_pos_iff.mpr h) (by decide))

section

variable [IsTrans α r]

theorem below_eq_zero_of_sorted {x : α} {s : List α} (hsorted : (x :: s).Pairwise r)
    (hx : r value x) : below r (x :: s) value = 0 := by
  rw [below, countP_eq_zero]
  intro y hy
  rcases mem_cons.mp hy with rfl | hy
  · simp [hx]
  · have hle : r value y := trans_of r hx (rel_of_pairwise_cons hsorted hy)
    simp [hle]

/-- In a sorted list the elements below a value come first. -/
theorem below_le_iff_of_sorted {s : List α} (hsorted : s.Pairwise r) (h : s[position]? = some m) :
    below r s value ≤ position ↔ r value m := by
  induction s generalizing position with
  | nil => simp at h
  | cons x s ih =>
    by_cases hx : r value x
    · have hzero := below_eq_zero_of_sorted hsorted hx
      rw [hzero]
      refine iff_of_true (Nat.zero_le _) ?_
      rcases mem_cons.mp (mem_of_getElem? h) with rfl | hm
      · exact hx
      · exact trans_of r hx (rel_of_pairwise_cons hsorted hm)
    · have hcount : below r (x :: s) value = below r s value + 1 := by simp [below, hx]
      cases position with
      | zero =>
        obtain rfl : x = m := by simpa using h
        rw [hcount]
        exact iff_of_false (by omega) hx
      | succ position =>
        rw [hcount, ← ih hsorted.of_cons (by simpa using h)]
        exact Nat.succ_le_succ_iff

variable [Std.Total r]

/-- A value is at most the one at a position when no more elements are below it. -/
theorem below_le_iff (h : select r l position = some m) :
    below r l value ≤ position ↔ r value m := by
  rw [← below_le_iff_of_sorted (pairwise_insertionSort r l) h, below, below,
    (perm_insertionSort r l).countP_eq]

/-- Fewer elements below and a higher position give an element not below. -/
theorem select_le_select (h : select r l position = some m) (h' : select r l' position' = some m')
    (hbelow : below r l' m ≤ below r l m) (hposition : position ≤ position') : r m m' := by
  have hself : below r l m ≤ position := (below_le_iff h).mpr (refl_of r m)
  exact (below_le_iff h').mp ((hbelow.trans hself).trans hposition)

/-- A queue that takes a value not below its median has a median not below it. -/
theorem median_le_median_enqueue {limit : Nat} (h : median r queue = some m)
    (h' : median r (enqueue queue value limit) = some m') (hval : r m value) : r m m' := by
  have happend : below r (queue ++ [value]) m = below r queue m := by
    rw [below_append]
    simp [below, hval]
  have hbelow : below r (enqueue queue value limit) m ≤ below r queue m := by
    rw [← happend, enqueue]
    split
    · exact below_tail_le r _ m
    · exact le_refl _
  have hlen : queue.length ≤ (enqueue queue value limit).length := by
    rw [enqueue]
    split <;> simp
  exact select_le_select h h' hbelow (Nat.div_le_div_right hlen)

end

end OrderStatistic
