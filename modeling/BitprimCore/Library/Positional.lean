import Mathlib.Data.Nat.Digits.Defs

/-!
# Positional numerals

Strings of digits, most significant first, over an arbitrary base. A string of a given length is
determined by its value, and every value below the power of the base has one.
-/

namespace Positional

open List

/-- The number that a string of digits spells. -/
def value (base : Nat) (digits : List Nat) : Nat := Nat.ofDigits base digits.reverse

/-- The digits of a number, in a given width. -/
def digits (base width n : Nat) : List Nat :=
  (List.range width).map fun index => n / base ^ (width - 1 - index) % base

section

variable {base : Nat}

@[simp] theorem value_nil : value base [] = 0 := rfl

theorem value_append (front back : List Nat) :
    value base (front ++ back) = value base front * base ^ back.length + value base back := by
  unfold value
  rw [reverse_append, Nat.ofDigits_append, length_reverse]
  ring

theorem value_cons (digit : Nat) (digits : List Nat) :
    value base (digit :: digits) = digit * base ^ digits.length + value base digits := by
  have hdigit : value base [digit] = digit := Nat.ofDigits_singleton
  rw [← singleton_append, value_append, hdigit]

theorem value_concat (digits : List Nat) (digit : Nat) :
    value base (digits ++ [digit]) = value base digits * base + digit := by
  rw [value_append, length_singleton, pow_one, value_cons]
  simp

theorem value_lt (hbase : 1 < base) {digits : List Nat} (h : ∀ digit ∈ digits, digit < base) :
    value base digits < base ^ digits.length := by
  have hlt : Nat.ofDigits base digits.reverse < base ^ digits.reverse.length :=
    Nat.ofDigits_lt_base_pow_length hbase fun digit hdigit => h digit (mem_reverse.mp hdigit)
  rwa [length_reverse] at hlt

theorem eq_of_value_eq (hbase : 1 < base) {digits digits' : List Nat}
    (hlen : digits.length = digits'.length) (h : ∀ digit ∈ digits, digit < base)
    (h' : ∀ digit ∈ digits', digit < base) (hval : value base digits = value base digits') :
    digits = digits' := by
  apply reverse_inj.mp
  apply Nat.ofDigits_inj_of_len_eq hbase _ _ _ hval
  · rw [length_reverse, length_reverse, hlen]
  · exact fun digit hdigit => h digit (mem_reverse.mp hdigit)
  · exact fun digit hdigit => h' digit (mem_reverse.mp hdigit)

variable (width n : Nat)

@[simp] theorem length_digits : (digits base width n).length = width := by
  simp [digits]

theorem lt_of_mem_digits (hbase : 0 < base) {width n digit : Nat}
    (h : digit ∈ digits base width n) : digit < base := by
  obtain ⟨index, -, rfl⟩ := mem_map.mp h
  exact Nat.mod_lt _ hbase

theorem digits_succ :
    digits base (width + 1) n = n / base ^ width % base :: digits base width n := by
  unfold digits
  rw [range_succ_eq_map, map_cons, map_map]
  congr 1
  apply map_congr_left
  intro index _
  rw [Function.comp_apply]
  congr 3
  omega

theorem value_digits : value base (digits base width n) = n % base ^ width := by
  induction width with
  | zero => simp [digits, Nat.mod_one]
  | succ width ih =>
    rw [digits_succ, value_cons, length_digits, ih, pow_succ, Nat.mod_mul]
    ring

theorem digits_value (hbase : 1 < base) {string : List Nat} (h : ∀ digit ∈ string, digit < base) :
    digits base string.length (value base string) = string := by
  apply eq_of_value_eq hbase (length_digits _ _) _ h
  · rw [value_digits, Nat.mod_eq_of_lt (value_lt hbase h)]
  · exact fun digit hdigit => lt_of_mem_digits (Nat.lt_of_succ_lt hbase) hdigit

theorem digits_concat : digits base (width + 1) n = digits base width (n / base) ++ [n % base] := by
  induction width generalizing n with
  | zero => simp [digits]
  | succ width ih =>
    rw [digits_succ, ih, digits_succ, Nat.div_div_eq_div_mul, ← Nat.pow_succ']
    rfl

end

/-! ### Regrouping

A string of digits of some bits is cut into digits of other bits. The last digit is filled with
zeros, or what does not fill a digit is dropped. -/

section

variable {values : List Nat}

/-- Digits of `target` bits, without the bits that do not fill one. -/
def regroup (source target : Nat) (values : List Nat) : List Nat :=
  digits (2 ^ target) (values.length * source / target)
    (value (2 ^ source) values / 2 ^ (values.length * source % target))

/-- The number of digits of `target` bits that hold a number of bits. -/
def paddedWidth (target bits : Nat) : Nat := (bits + target - 1) / target

/-- Digits of `target` bits, the last of them filled with zeros. -/
def regroupPadded (source target : Nat) (values : List Nat) : List Nat :=
  digits (2 ^ target) (paddedWidth target (values.length * source))
    (value (2 ^ source) values * 2 ^ (paddedWidth target (values.length * source) * target -
      values.length * source))

variable {source target : Nat}

theorem value_two_pow_lt (hsource : 0 < source) (h : ∀ v ∈ values, v < 2 ^ source) :
    value (2 ^ source) values < 2 ^ (values.length * source) := by
  have hlt := value_lt (Nat.one_lt_two_pow hsource.ne') h
  rwa [← Nat.pow_mul, mul_comm] at hlt

variable {narrow wide : Nat}

/-- Fewer bits than a narrow digit has are filled in. -/
theorem exists_padding (hnarrow : 0 < narrow) (bits : Nat) :
    ∃ padding < narrow, paddedWidth narrow bits * narrow = bits + padding := by
  refine ⟨paddedWidth narrow bits * narrow - bits, ?_, ?_⟩
  · have hle := Nat.div_mul_le_self (bits + narrow - 1) narrow
    unfold paddedWidth
    omega
  · have hdiv := Nat.div_add_mod (bits + narrow - 1) narrow
    have hmod := Nat.mod_lt (bits + narrow - 1) hnarrow
    unfold paddedWidth
    rw [mul_comm] at hdiv
    omega

/-- Only a last digit that is not full is filled with zeros. -/
theorem regroupPadded_eq (htarget : 0 < target) (values : List Nat) :
    regroupPadded source target values =
      if values.length * source % target = 0 then regroup source target values
      else regroup source target values ++
        [value (2 ^ source) values * 2 ^ (target - values.length * source % target) % 2 ^ target] := by
  unfold regroupPadded regroup
  set bits := values.length * source
  have hdiv : target * (bits / target) + bits % target = bits := Nat.div_add_mod bits target
  have hmod : bits % target < target := Nat.mod_lt bits htarget
  split_ifs with hfull
  · have hwidth : paddedWidth target bits = bits / target := by
      apply Nat.div_eq_of_lt_le
      · rw [mul_comm]
        omega
      · rw [Nat.succ_mul, mul_comm]
        omega
    have hfill : bits / target * target - bits = 0 := by
      rw [mul_comm]
      omega
    rw [hwidth, hfill, hfull, pow_zero, mul_one, Nat.div_one]
  · have hwidth : paddedWidth target bits = bits / target + 1 := by
      apply Nat.div_eq_of_lt_le
      · rw [Nat.succ_mul, mul_comm]
        omega
      · rw [Nat.succ_mul, Nat.succ_mul, mul_comm]
        omega
    have hfill : (bits / target + 1) * target - bits = target - bits % target := by
      rw [Nat.succ_mul, mul_comm]
      omega
    have hpow : 2 ^ target = 2 ^ (bits % target) * 2 ^ (target - bits % target) := by
      rw [← pow_add]
      congr 1
      omega
    have hshift : value (2 ^ source) values * 2 ^ (target - bits % target) / 2 ^ target =
        value (2 ^ source) values / 2 ^ (bits % target) := by
      rw [hpow, Nat.mul_div_mul_right _ _ (Nat.two_pow_pos _)]
    rw [hwidth, hfill, digits_concat, hshift]

/-- The zeros that are filled in move the number up. -/
theorem value_regroupPadded (hnarrow : 0 < narrow) (hwide : 0 < wide)
    (h : ∀ v ∈ values, v < 2 ^ wide) :
    ∃ padding < narrow,
      (regroupPadded wide narrow values).length * narrow = values.length * wide + padding ∧
      value (2 ^ narrow) (regroupPadded wide narrow values) =
        value (2 ^ wide) values * 2 ^ padding := by
  obtain ⟨padding, hpadding, htotal⟩ := exists_padding hnarrow (values.length * wide)
  have hval : value (2 ^ wide) values * 2 ^ padding <
      (2 ^ narrow) ^ paddedWidth narrow (values.length * wide) := by
    rw [← Nat.pow_mul, mul_comm narrow, htotal, pow_add]
    exact Nat.mul_lt_mul_of_pos_right (value_two_pow_lt hwide h) (Nat.two_pow_pos padding)
  refine ⟨padding, hpadding, ?_, ?_⟩
  · rw [regroupPadded, length_digits, htotal]
  · rw [regroupPadded, htotal, Nat.add_sub_cancel_left, value_digits, Nat.mod_eq_of_lt hval]

theorem lt_of_mem_regroupPadded {digit : Nat} (h : digit ∈ regroupPadded source target values) :
    digit < 2 ^ target :=
  lt_of_mem_digits (Nat.two_pow_pos target) h

/-- Wide digits that were cut into narrow ones are found back. -/
theorem regroup_regroupPadded (hnarrow : 0 < narrow) (hle : narrow ≤ wide)
    (h : ∀ v ∈ values, v < 2 ^ wide) :
    regroup narrow wide (regroupPadded wide narrow values) = values := by
  have hwide : 0 < wide := lt_of_lt_of_le hnarrow hle
  obtain ⟨padding, hpadding, hlen, hval⟩ := value_regroupPadded hnarrow hwide h
  have hdiv : (values.length * wide + padding) / wide = values.length := by
    rw [mul_comm, Nat.mul_add_div hwide, Nat.div_eq_of_lt (by omega), add_zero]
  have hrest : (values.length * wide + padding) % wide = padding := by
    rw [mul_comm, Nat.mul_add_mod, Nat.mod_eq_of_lt (by omega)]
  rw [regroup, hlen, hval, hdiv, hrest, Nat.mul_div_cancel _ (Nat.two_pow_pos padding),
    digits_value (Nat.one_lt_two_pow hwide.ne') h]

/-- What does not fill a wide digit again is less than a narrow one, and zero. -/
theorem rest_regroupPadded (hnarrow : 0 < narrow) (hle : narrow ≤ wide)
    (h : ∀ v ∈ values, v < 2 ^ wide) :
    (regroupPadded wide narrow values).length * narrow % wide < narrow ∧
      value (2 ^ narrow) (regroupPadded wide narrow values) %
        2 ^ ((regroupPadded wide narrow values).length * narrow % wide) = 0 := by
  have hwide : 0 < wide := lt_of_lt_of_le hnarrow hle
  obtain ⟨padding, hpadding, hlen, hval⟩ := value_regroupPadded hnarrow hwide h
  have hrest : (values.length * wide + padding) % wide = padding := by
    rw [mul_comm, Nat.mul_add_mod, Nat.mod_eq_of_lt (by omega)]
  rw [hlen, hval, hrest]
  exact ⟨hpadding, Nat.mul_mod_left _ _⟩

/-- Narrow digits whose rest is less than a digit and zero are found back from the wide ones. -/
theorem regroupPadded_regroup (hnarrow : 0 < narrow) (hle : narrow ≤ wide)
    (h : ∀ v ∈ values, v < 2 ^ narrow) (hrest : values.length * narrow % wide < narrow)
    (hzero : value (2 ^ narrow) values % 2 ^ (values.length * narrow % wide) = 0) :
    regroupPadded wide narrow (regroup narrow wide values) = values := by
  have hwide : 0 < wide := lt_of_lt_of_le hnarrow hle
  set rest := values.length * narrow % wide with hrestDef
  have htotal : values.length * narrow / wide * wide + rest = values.length * narrow := by
    rw [mul_comm (_ / _)]
    exact Nat.div_add_mod _ _
  have hwidth : paddedWidth narrow (values.length * narrow / wide * wide) = values.length := by
    apply Nat.div_eq_of_lt_le
    · omega
    · rw [Nat.succ_mul]
      omega
  have hval : value (2 ^ narrow) values / 2 ^ rest <
      (2 ^ wide) ^ (values.length * narrow / wide) := by
    rw [Nat.div_lt_iff_lt_mul (Nat.two_pow_pos rest), ← Nat.pow_mul, ← pow_add,
      mul_comm wide, htotal]
    exact value_two_pow_lt hnarrow h
  have hfill : values.length * narrow - values.length * narrow / wide * wide = rest := by omega
  unfold regroupPadded regroup
  rw [length_digits, ← hrestDef, hwidth, hfill, value_digits, Nat.mod_eq_of_lt hval,
    Nat.div_mul_cancel (Nat.dvd_of_mod_eq_zero hzero),
    digits_value (Nat.one_lt_two_pow hnarrow.ne') h]

end

end Positional
