import Mathlib.Data.List.Basic

/-!
# Sliding windows

The values of a sequence below an index, and a queue that takes values at the back and drops at
most one at the front when it holds more than a limit. A queue that holds a window holds a window
again after it takes the next value; how long the window is depends on the limit, and the limit may
change from step to step.
-/

namespace SlidingWindow

variable {α : Type*}

/-- The values of the `count` indices below `stop`, lowest first. -/
def window (f : Nat → α) (stop count : Nat) : List α := (List.range' (stop - count) count).map f

/-- Add a value at the back and drop one at the front if there are more than the limit. -/
def enqueue (queue : List α) (value : α) (limit : Nat) : List α :=
  let queue := queue ++ [value]
  if queue.length > limit then queue.tail else queue

variable (f : Nat → α) {stop count : Nat}

@[simp] theorem length_window (stop count : Nat) : (window f stop count).length = count := by
  simp [window]

@[simp] theorem window_zero (stop : Nat) : window f stop 0 = [] := rfl

theorem window_append (h : count ≤ stop) :
    window f stop count ++ [f stop] = window f (stop + 1) (count + 1) := by
  have hstart : stop + 1 - (count + 1) = stop - count := by omega
  have hlast : stop - count + count = stop := by omega
  simp [window, hstart, List.range'_1_concat, hlast]

theorem tail_window (h : count + 1 ≤ stop) :
    (window f stop (count + 1)).tail = window f stop count := by
  have hstart : stop - (count + 1) + 1 = stop - count := by omega
  simp [window, List.range'_succ, hstart]

theorem drop_window (h : count ≤ stop) (dropped : Nat) :
    (window f stop count).drop dropped = window f stop (count - dropped) := by
  induction dropped generalizing count with
  | zero => rfl
  | succ dropped ih =>
    cases count with
    | zero => simp
    | succ count =>
      rw [← List.drop_tail, tail_window f h, ih (Nat.le_of_succ_le h), Nat.succ_sub_succ]

theorem window_succ_eq (h : count + 1 ≤ stop) :
    window f stop (count + 1) = window f (stop - 1) count ++ [f (stop - 1)] := by
  obtain ⟨stop, rfl⟩ : ∃ n, stop = n + 1 := ⟨stop - 1, by omega⟩
  rw [Nat.add_sub_cancel, window_append f (by omega)]

theorem getLast?_window (hpos : 0 < count) (h : count ≤ stop) :
    (window f stop count).getLast? = some (f (stop - 1)) := by
  obtain ⟨count, rfl⟩ : ∃ n, count = n + 1 := ⟨count - 1, by omega⟩
  rw [window_succ_eq f h, List.getLast?_concat]

theorem reverse_window_succ (h : count + 1 ≤ stop) :
    (window f stop (count + 1)).reverse = f (stop - 1) :: (window f (stop - 1) count).reverse := by
  rw [window_succ_eq f h, List.reverse_concat]

/-- A window takes its next value and drops its first only at the limit. -/
theorem enqueue_window (limit : Nat) (h : count ≤ stop) :
    enqueue (window f stop count) (f stop) limit =
      window f (stop + 1) (if limit ≤ count then count else count + 1) := by
  simp only [enqueue, window_append f h, length_window, gt_iff_lt]
  by_cases hlimit : limit ≤ count
  · rw [if_pos (Nat.lt_succ_of_le hlimit), if_pos hlimit, tail_window f (by omega)]
  · rw [if_neg (by omega), if_neg hlimit]

end SlidingWindow
