import BitprimCore.Library.Positional
import Mathlib.Data.List.TakeWhile
import Mathlib.Data.Nat.Digits.Lemmas

/-!
# Conversion between bases

A string of digits is converted to another base with its leading zeros kept: as many zeros stand in
front of the digits of the same number. The conversion is its own inverse with the bases exchanged.
It is computed in place, by multiplying a string of digits of fixed width and adding to it, and the
width suffices if it is estimated by a ratio of the logarithms.
-/

namespace Positional

open List

variable {digits : List Nat}

/-- The number of zeros in front. -/
def zeros (digits : List Nat) : Nat := (digits.takeWhile (· == 0)).length

/-- The digits of a number without zeros in front. -/
def significant (base n : Nat) : List Nat := (Nat.digits base n).reverse

/-- The same number in another base, behind the same number of zeros. -/
def convert (source target : Nat) (digits : List Nat) : List Nat :=
  List.replicate (zeros digits) 0 ++ significant target (value source digits)

section

variable {base n : Nat}

@[simp] theorem value_significant : value base (significant base n) = n := by
  rw [value, significant, reverse_reverse, Nat.ofDigits_digits]

variable {digit : Nat} (count : Nat)

theorem lt_of_mem_significant (hbase : 1 < base) (h : digit ∈ significant base n) : digit < base :=
  Nat.digits_lt_base hbase (mem_reverse.mp h)

theorem value_replicate_zero_append (digits : List Nat) :
    value base (replicate count 0 ++ digits) = value base digits := by
  induction count with
  | zero => rfl
  | succ count ih => rw [replicate_succ, cons_append, value_cons, ih, zero_mul, zero_add]

theorem value_replicate_zero : value base (replicate count 0) = 0 := by
  have hzero : value base (replicate count 0 ++ []) = value base [] :=
    value_replicate_zero_append count []
  rwa [append_nil] at hzero

theorem value_eq_zero_iff (hbase : 0 < base) :
    value base digits = 0 ↔ ∀ digit ∈ digits, digit = 0 := by
  induction digits with
  | nil => simp
  | cons digit digits ih =>
    have hpow : base ^ digits.length ≠ 0 := (Nat.pow_pos hbase).ne'
    rw [value_cons, Nat.add_eq_zero_iff, Nat.mul_eq_zero, ih, forall_mem_cons, or_iff_left hpow]

theorem takeWhile_zero_eq (digits : List Nat) :
    digits.takeWhile (· == 0) = replicate (zeros digits) 0 := by
  apply eq_replicate_of_mem
  intro digit hdigit
  have hzero := mem_takeWhile_imp hdigit
  exact beq_iff_eq.mp hzero

theorem replicate_zeros_append (digits : List Nat) :
    replicate (zeros digits) 0 ++ digits.dropWhile (· == 0) = digits := by
  rw [← takeWhile_zero_eq, takeWhile_append_dropWhile]

theorem value_drop_zeros (digits : List Nat) :
    value base (digits.drop (zeros digits)) = value base digits := by
  have hdrop : digits.drop (zeros digits) = digits.dropWhile (· == 0) :=
    calc digits.drop (zeros digits)
        = (replicate (zeros digits) 0 ++ digits.dropWhile (· == 0)).drop (zeros digits) := by
          rw [replicate_zeros_append]
      _ = digits.dropWhile (· == 0) := drop_left' length_replicate
  conv_rhs => rw [← replicate_zeros_append digits]
  rw [hdrop, value_replicate_zero_append]

/-- Without the zeros in front the digits of a number are left. -/
theorem dropWhile_zero_eq (hbase : 1 < base) (h : ∀ digit ∈ digits, digit < base) :
    digits.dropWhile (· == 0) = significant base (value base digits) := by
  set rest := digits.dropWhile (· == 0) with hrest
  have hval : value base digits = value base rest := by
    conv_lhs => rw [← replicate_zeros_append digits]
    exact value_replicate_zero_append _ _
  have hlast : ∀ hne : rest.reverse ≠ [], rest.reverse.getLast hne ≠ 0 := by
    intro hne
    have hne' : rest ≠ [] := by simpa using hne
    rw [getLast_reverse]
    have hhead := head_dropWhile_not (· == 0) hne'
    simpa using hhead
  have hdigits : ∀ digit ∈ rest.reverse, digit < base := by
    intro digit hdigit
    exact h digit ((dropWhile_suffix _).subset (mem_reverse.mp hdigit))
  rw [hval, value, significant, Nat.digits_ofDigits base hbase rest.reverse hdigits hlast,
    reverse_reverse]

/-- A string of digits is its zeros and the digits of its number. -/
theorem replicate_zeros_significant (hbase : 1 < base) (h : ∀ digit ∈ digits, digit < base) :
    replicate (zeros digits) 0 ++ significant base (value base digits) = digits := by
  rw [← dropWhile_zero_eq hbase h, replicate_zeros_append]

theorem zeros_replicate_append (h : digits.head? ≠ some 0) :
    zeros (replicate count 0 ++ digits) = count := by
  have hfront : ∀ digit ∈ replicate count 0, (digit == 0) := by
    intro digit hdigit
    rw [(mem_replicate.mp hdigit).2]
    rfl
  have hback : digits.takeWhile (· == 0) = [] := by
    cases digits with
    | nil => rfl
    | cons digit digits =>
      have hne : digit ≠ 0 := by simpa using h
      simp [hne]
  rw [zeros, takeWhile_append_of_pos hfront, hback, append_nil, length_replicate]

theorem head_significant : (significant base n).head? ≠ some 0 := by
  intro hhead
  rw [significant, head?_reverse, getLast?_eq_some_iff] at hhead
  obtain ⟨front, hdigits⟩ := hhead
  have hne : Nat.digits base n ≠ [] := by simp [hdigits]
  have hn : n ≠ 0 := by
    rintro rfl
    exact hne (Nat.digits_zero base)
  apply Nat.getLast_digit_ne_zero base hn
  simp [hdigits]

variable {source target : Nat}

/-- The two conversions are inverse to each other. -/
theorem convert_convert (hsource : 1 < source) (h : ∀ digit ∈ digits, digit < source) :
    convert target source (convert source target digits) = digits := by
  rw [convert, convert, zeros_replicate_append _ head_significant,
    value_replicate_zero_append, value_significant, replicate_zeros_significant hsource h]

theorem lt_of_mem_convert (htarget : 1 < target) (h : digit ∈ convert source target digits) :
    digit < target := by
  rcases mem_append.mp h with hzero | hdigit
  · rw [(mem_replicate.mp hzero).2]
    exact lt_trans zero_lt_one htarget
  · exact lt_of_mem_significant htarget hdigit

end

section

/-- Multiply by a factor and add a carry, from the last digit to the first. What is carried out of
the first digit comes with the result. -/
def mulAdd (base factor : Nat) (digits : List Nat) (carry : Nat) : List Nat × Nat :=
  digits.foldr
    (fun digit state =>
      ((state.2 + factor * digit) % base :: state.1, (state.2 + factor * digit) / base))
    ([], carry)

variable {base factor : Nat}

theorem mulAdd_cons (digit : Nat) (digits : List Nat) (carry : Nat) :
    mulAdd base factor (digit :: digits) carry =
      (((mulAdd base factor digits carry).2 + factor * digit) % base ::
          (mulAdd base factor digits carry).1,
        ((mulAdd base factor digits carry).2 + factor * digit) / base) := rfl

theorem length_mulAdd (digits : List Nat) (carry : Nat) :
    (mulAdd base factor digits carry).1.length = digits.length := by
  induction digits with
  | nil => rfl
  | cons digit digits ih => rw [mulAdd_cons, length_cons, ih, length_cons]

theorem lt_of_mem_mulAdd (hbase : 0 < base) {carry digit : Nat}
    (h : digit ∈ (mulAdd base factor digits carry).1) : digit < base := by
  induction digits with
  | nil => cases h
  | cons first digits ih =>
    rw [mulAdd_cons, mem_cons] at h
    obtain rfl | h := h
    · exact Nat.mod_lt _ hbase
    · exact ih h

theorem value_mulAdd (digits : List Nat) (carry : Nat) :
    value base (mulAdd base factor digits carry).1 +
        base ^ digits.length * (mulAdd base factor digits carry).2 =
      factor * value base digits + carry := by
  induction digits with
  | nil => simp [mulAdd]
  | cons digit digits ih =>
    rw [mulAdd_cons, value_cons, value_cons, length_mulAdd, length_cons]
    set total := (mulAdd base factor digits carry).2 + factor * digit with htotal
    have hdiv := Nat.mod_add_div total base
    calc total % base * base ^ digits.length + value base (mulAdd base factor digits carry).1 +
          base ^ (digits.length + 1) * (total / base)
        = (total % base + base * (total / base)) * base ^ digits.length +
          value base (mulAdd base factor digits carry).1 := by ring
      _ = (value base (mulAdd base factor digits carry).1 +
          base ^ digits.length * (mulAdd base factor digits carry).2) +
          factor * (digit * base ^ digits.length) := by rw [hdiv, htotal]; ring
      _ = factor * (digit * base ^ digits.length + value base digits) + carry := by rw [ih]; ring

/-- If the number fits nothing is carried out. -/
theorem carry_mulAdd_of_lt {carry : Nat}
    (h : factor * value base digits + carry < base ^ digits.length) :
    (mulAdd base factor digits carry).2 = 0 := by
  have hval : value base (mulAdd base factor digits carry).1 +
      base ^ digits.length * (mulAdd base factor digits carry).2 = factor * value base digits + carry :=
    value_mulAdd digits carry
  by_contra hne
  have hle : base ^ digits.length * 1 ≤ base ^ digits.length * (mulAdd base factor digits carry).2 :=
    Nat.mul_le_mul_left _ (Nat.one_le_iff_ne_zero.mpr hne)
  omega

theorem value_mulAdd_of_lt {carry : Nat}
    (h : factor * value base digits + carry < base ^ digits.length) :
    value base (mulAdd base factor digits carry).1 = factor * value base digits + carry := by
  rw [← value_mulAdd digits carry, carry_mulAdd_of_lt h, mul_zero, add_zero]

/-- Digits taken in one by one, in a width that holds the number. -/
theorem foldl_mulAdd (hbase : 0 < base) (hfactor : 0 < factor) {width : Nat}
    (h : value factor digits < base ^ width) :
    let result := digits.foldl (fun out digit => (mulAdd base factor out digit).1)
      (replicate width 0)
    result.length = width ∧ (∀ digit ∈ result, digit < base) ∧
      value base result = value factor digits := by
  induction digits using reverseRecOn with
  | nil =>
    refine ⟨length_replicate, ?_, ?_⟩
    · intro digit hdigit
      rw [(mem_replicate.mp hdigit).2]
      exact hbase
    · exact value_replicate_zero width
  | append_singleton digits digit ih =>
    rw [value_concat] at h
    have hless : value factor digits < base ^ width :=
      calc value factor digits ≤ value factor digits * factor := Nat.le_mul_of_pos_right _ hfactor
        _ ≤ value factor digits * factor + digit := Nat.le_add_right _ _
        _ < base ^ width := h
    obtain ⟨hlen, -, hval⟩ := ih hless
    simp only [foldl_append, foldl_cons, foldl_nil]
    set out := digits.foldl (fun out digit => (mulAdd base factor out digit).1) (replicate width 0)
    refine ⟨(length_mulAdd out digit).trans hlen, fun d hd => lt_of_mem_mulAdd hbase hd, ?_⟩
    rw [value_mulAdd_of_lt, hval, value_concat, mul_comm]
    rw [hval, hlen, mul_comm]
    exact h

/-- A width by a ratio that is not below that of the logarithms is enough. -/
theorem pow_le_pow_ratio {a b p q num den : Nat} (hb : 0 < b) (hq : 0 < q) (hden : 0 < den)
    (hpow : a ^ q ≤ b ^ p) (hratio : p * den ≤ num * q) (count : Nat) :
    a ^ count ≤ b ^ (count * num / den + 1) := by
  have hwidth : p * count ≤ (count * num / den + 1) * q := by
    have hlt : count * num < (count * num / den + 1) * den := by
      rw [← Nat.div_lt_iff_lt_mul hden]
      exact Nat.lt_succ_self _
    apply Nat.le_of_mul_le_mul_right _ hden
    calc p * count * den = p * den * count := by ring
      _ ≤ num * q * count := Nat.mul_le_mul_right _ hratio
      _ = count * num * q := by ring
      _ ≤ (count * num / den + 1) * den * q := Nat.mul_le_mul_right _ hlt.le
      _ = (count * num / den + 1) * q * den := by ring
  rw [← Nat.pow_le_pow_iff_left hq.ne']
  calc (a ^ count) ^ q = (a ^ q) ^ count := by rw [← pow_mul, ← pow_mul, Nat.mul_comm]
    _ ≤ (b ^ p) ^ count := Nat.pow_le_pow_left hpow count
    _ = b ^ (p * count) := (pow_mul b p count).symm
    _ ≤ b ^ ((count * num / den + 1) * q) := Nat.pow_le_pow_right hb hwidth
    _ = (b ^ (count * num / den + 1)) ^ q := pow_mul _ _ _

end

end Positional
