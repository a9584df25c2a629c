import Mathlib.Tactic.Ring

/-!
# Numbers by their leading digits

A floating point form keeps the leading digits of a number and drops as many of the others as it
must to stay below a bound. What is kept is at most the number, grows with the number, and is
positive for a positive number.
-/

namespace LeadingDigits

variable {base bound x y k l : Nat}

/-- So many low digits are dropped, and not more, that the others are below the bound. -/
structure Drops (base bound x k : Nat) : Prop where
  lt : x / base ^ k < bound
  least : ∀ j < k, bound ≤ x / base ^ j

/-- The number with its dropped digits replaced by zeros. -/
def kept (base x k : Nat) : Nat := x / base ^ k * base ^ k

theorem kept_le (base x k : Nat) : kept base x k ≤ x := Nat.div_mul_le_self x (base ^ k)

/-- When digits are dropped, those that are kept still fill all places but one. -/
theorem Drops.le_kept (h : Drops base (base * bound) x (k + 1)) (hbase : 0 < base) :
    base * bound * base ^ k ≤ kept base x (k + 1) := by
  have hleast : base * bound ≤ x / base ^ k := h.least k (Nat.lt_succ_self k)
  have hdigits : bound ≤ x / base ^ (k + 1) := by
    rw [pow_succ, ← Nat.div_div_eq_div_mul, Nat.le_div_iff_mul_le hbase, Nat.mul_comm]
    exact hleast
  calc base * bound * base ^ k = bound * base ^ (k + 1) := by ring
    _ ≤ kept base x (k + 1) := Nat.mul_le_mul_right _ hdigits

/-- A number does not drop more digits than a greater one. -/
theorem Drops.le_of_le (hx : Drops base bound x k) (hy : Drops base bound y l) (hxy : x ≤ y) :
    k ≤ l := by
  by_contra hlt
  have hleast : bound ≤ x / base ^ l := hx.least l (not_le.mp hlt)
  have hle : x / base ^ l ≤ y / base ^ l := Nat.div_le_div_right hxy
  exact absurd hy.lt (not_lt.mpr (hleast.trans hle))

theorem Drops.kept_mono (hbase : 0 < base) (hx : Drops base (base * bound) x k)
    (hy : Drops base (base * bound) y l) (hxy : x ≤ y) : kept base x k ≤ kept base y l := by
  obtain rfl | hlt := (hx.le_of_le hy hxy).eq_or_lt
  · exact Nat.mul_le_mul_right _ (Nat.div_le_div_right hxy)
  · obtain ⟨l, rfl⟩ : ∃ l', l = l' + 1 := ⟨l - 1, by omega⟩
    have hbelow : x < base * bound * base ^ k :=
      (Nat.div_lt_iff_lt_mul (Nat.pow_pos hbase)).mp hx.lt
    calc kept base x k ≤ x := kept_le base x k
      _ ≤ base * bound * base ^ k := hbelow.le
      _ ≤ base * bound * base ^ l :=
        Nat.mul_le_mul_left _ (Nat.pow_le_pow_right hbase (Nat.le_of_lt_succ hlt))
      _ ≤ kept base y (l + 1) := hy.le_kept hbase

theorem Drops.kept_pos (hbase : 0 < base) (hx : Drops base (base * bound) x k) (h : 0 < x) :
    0 < kept base x k := by
  cases k with
  | zero => simpa [kept] using h
  | succ k =>
    have hbound : 0 < base * bound := (Nat.zero_le _).trans_lt hx.lt
    exact (mul_pos hbound (Nat.pow_pos hbase)).trans_le (hx.le_kept hbase)

/-- No number with as few digits in front of its zeros lies between what is kept and the number. -/
theorem Drops.mul_pow_le_kept (hbase : 0 < base) (hx : Drops base (base * bound) x k)
    {digits places : Nat} (hdigits : digits < base * bound) (hle : digits * base ^ places ≤ x) :
    digits * base ^ places ≤ kept base x k := by
  rcases Nat.lt_or_ge places k with hlt | hge
  · obtain ⟨k, rfl⟩ : ∃ k', k = k' + 1 := ⟨k - 1, by omega⟩
    calc digits * base ^ places ≤ base * bound * base ^ k :=
          Nat.mul_le_mul hdigits.le (Nat.pow_le_pow_right hbase (Nat.le_of_lt_succ hlt))
      _ ≤ kept base x (k + 1) := hx.le_kept hbase
  · -- the number is a multiple of the place of the last kept digit
    obtain ⟨more, rfl⟩ := Nat.exists_eq_add_of_le hge
    have hmult : digits * base ^ (k + more) = digits * base ^ more * base ^ k := by ring
    rw [hmult] at hle ⊢
    exact Nat.mul_le_mul_right _ ((Nat.le_div_iff_mul_le (Nat.pow_pos hbase)).mpr hle)

/-- It is enough that one digit less is too few. -/
theorem Drops.of_pred (hlt : x / base ^ (k + 1) < bound) (hpred : bound ≤ x / base ^ k)
    (hbase : 0 < base) : Drops base bound x (k + 1) where
  lt := hlt
  least := by
    intro j hj
    have hpow : base ^ j ≤ base ^ k := Nat.pow_le_pow_right hbase (Nat.le_of_lt_succ hj)
    exact hpred.trans (Nat.div_le_div_left hpow (Nat.pow_pos hbase))

theorem Drops.zero (h : x < bound) : Drops base bound x 0 where
  lt := by simpa using h
  least := by
    intro j hj
    exact absurd hj (Nat.not_lt_zero j)

end LeadingDigits
