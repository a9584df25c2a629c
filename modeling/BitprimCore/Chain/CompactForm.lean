import BitprimCore.Chain.Compact
import BitprimCore.Library.LeadingDigits
import Mathlib.Data.Nat.Bitwise

/-!
# Compact numbers as leading digits

The normal form of a 256-bit number expands to the number with its low bytes replaced by zeros,
where as few bytes are dropped as the 23 bits of the mantissa allow. So the expansion is at most the
number and grows with it.
-/

namespace BitprimCore.Compact

open LeadingDigits

variable {exponent : Nat} {mantissa : UInt32}

theorem logicalSizeLoop_le (fuel value : Nat) : logicalSizeLoop fuel value ≤ fuel := by
  induction fuel generalizing value with
  | zero => exact le_refl 0
  | succ fuel ih =>
    rw [logicalSizeLoop]
    split
    · exact Nat.zero_le _
    · exact Nat.succ_le_succ (ih _)

variable {value size fuel : Nat}

theorem lt_pow_logicalSizeLoop (h : value < 256 ^ fuel) :
    value < 256 ^ logicalSizeLoop fuel value := by
  induction fuel generalizing value with
  | zero => exact h
  | succ fuel ih =>
    rw [logicalSizeLoop]
    split
    · next hzero => simp [hzero]
    · have hshift : value >>> 8 = value / 256 := Nat.shiftRight_eq_div_pow value 8
      have hrest := ih (show value >>> 8 < 256 ^ fuel by rw [pow_succ] at h; omega)
      rw [pow_succ]
      omega

theorem pow_le_of_logicalSizeLoop (h : logicalSizeLoop fuel value = size + 1) :
    256 ^ size ≤ value := by
  induction fuel generalizing value size with
  | zero => simp [logicalSizeLoop] at h
  | succ fuel ih =>
    rw [logicalSizeLoop] at h
    split at h
    · simp at h
    · next hval =>
        have hshift : value >>> 8 = value / 256 := Nat.shiftRight_eq_div_pow value 8
        cases size with
        | zero => exact pos_of_ne_zero hval
        | succ size =>
          have hrest := ih (Nat.succ.inj h)
          rw [pow_succ]
          omega

variable {big : Nat}

theorem logicalSize_le (big : Nat) : logicalSize big ≤ 32 := logicalSizeLoop_le 32 big

theorem lt_pow_logicalSize (h : big < 2 ^ 256) : big < 256 ^ logicalSize big :=
  lt_pow_logicalSizeLoop (by rwa [show (256 : Nat) ^ 32 = 2 ^ 256 by norm_num])

theorem pow_le_of_logicalSize (h : logicalSize big = size + 1) : 256 ^ size ≤ big :=
  pow_le_of_logicalSizeLoop h

/-- The number of bytes is the one whose powers enclose the number. -/
theorem logicalSize_eq (hlow : 256 ^ size ≤ big) (hhigh : big < 256 ^ (size + 1))
    (h : big < 2 ^ 256) : logicalSize big = size + 1 := by
  have hlt := lt_pow_logicalSize h
  have hsize : size < logicalSize big :=
    (Nat.pow_lt_pow_iff_right (by decide)).mp (hlow.trans_lt hlt)
  obtain ⟨other, hother⟩ : ∃ other, logicalSize big = other + 1 := ⟨logicalSize big - 1, by omega⟩
  have hle : other < size + 1 :=
    (Nat.pow_lt_pow_iff_right (by decide)).mp ((pow_le_of_logicalSize hother).trans_lt hhigh)
  omega

theorem toNat_pack (hexp : exponent < 256) (hmant : mantissa.toNat < 0x800000) :
    ((UInt32.ofNat exponent <<< mantissaBits) ||| mantissa).toNat =
      exponent * 2 ^ 24 + mantissa.toNat := by
  have hshift : (UInt32.ofNat exponent <<< mantissaBits).toNat = exponent <<< 24 := by
    rw [UInt32.toNat_shiftLeft, UInt32.toNat_ofNat_of_lt' (hexp.trans (by decide)),
      show mantissaBits.toNat % 32 = 24 by decide, Nat.shiftLeft_eq, Nat.mod_eq_of_lt (by omega)]
  rw [UInt32.toNat_or, hshift, ← Nat.shiftLeft_add_eq_or_of_lt (by omega), Nat.shiftLeft_eq]

theorem isNegated_eq (compact : UInt32) :
    isNegated compact = decide (compact.toNat / 2 ^ 23 % 2 = 1) := by
  have hbit : (compact &&& signBit).toNat = (compact.toNat.testBit 23).toNat * 2 ^ 23 := by
    rw [UInt32.toNat_and, ← Nat.and_two_pow]
    rfl
  rw [← Nat.testBit_eq_decide_div_mod_eq, isNegated, Bool.eq_iff_iff, bne_iff_ne, ne_eq,
    ← UInt32.toNat_inj, hbit]
  cases compact.toNat.testBit 23 <;> simp

/-- A mantissa without the sign bit is read back with its exponent. -/
theorem fromCompact_pack (hexp : exponent < 256) (hmant : mantissa.toNat < 0x800000) :
    fromCompact ((UInt32.ofNat exponent <<< mantissaBits) ||| mantissa) =
      if exponent ≤ 3 then some (mantissa.toNat >>> shiftLow exponent)
      else if isOverflow exponent mantissa then none
      else some ((mantissa.toNat <<< shiftHigh exponent) % 2 ^ 256) := by
  have hpack := toNat_pack hexp hmant
  generalize (UInt32.ofNat exponent <<< mantissaBits) ||| mantissa = packed at hpack ⊢
  have hsign : isNegated packed = false := by
    rw [isNegated_eq, hpack, decide_eq_false_iff_not]
    omega
  have hlow : packed &&& mantissaMax = mantissa := by
    rw [← UInt32.toNat_inj, UInt32.toNat_and, show mantissaMax.toNat = 2 ^ 23 - 1 by decide,
      Nat.and_two_pow_sub_one_eq_mod, hpack]
    omega
  have hhigh : (packed >>> mantissaBits).toNat = exponent := by
    rw [UInt32.toNat_shiftRight, show mantissaBits.toNat % 32 = 24 by decide,
      Nat.shiftRight_eq_div_pow, hpack]
    omega
  simp only [fromCompact, hsign, Bool.false_eq_true, if_false, hlow, hhigh]

/-- The mantissa of the normal form before it is moved out of the sign bit. -/
def bigMantissa (big : Nat) : Nat :=
  if logicalSize big ≤ 3 then big * 256 ^ (3 - logicalSize big)
  else big / 256 ^ (logicalSize big - 3)

theorem bigMantissa_lt (h : big < 2 ^ 256) : bigMantissa big < 2 ^ 24 := by
  have hlt := lt_pow_logicalSize h
  unfold bigMantissa
  split
  · next hsize =>
      calc big * 256 ^ (3 - logicalSize big)
          < 256 ^ logicalSize big * 256 ^ (3 - logicalSize big) :=
            Nat.mul_lt_mul_of_pos_right hlt (Nat.pow_pos (by decide))
        _ = 2 ^ 24 := by rw [← pow_add, Nat.add_sub_cancel' hsize]; norm_num
  · next hsize =>
      rw [Nat.div_lt_iff_lt_mul (Nat.pow_pos (by decide))]
      calc big < 256 ^ logicalSize big := hlt
        _ = 2 ^ 24 * 256 ^ (logicalSize big - 3) := by
          rw [show (2 : Nat) ^ 24 = 256 ^ 3 by norm_num, ← pow_add,
            Nat.add_sub_cancel' (Nat.le_of_not_le hsize)]

theorem shift_eq_pow (size : Nat) : 2 ^ (8 * size) = 256 ^ size := by
  rw [pow_mul]
  norm_num

theorem fromBig_eq (h : big < 2 ^ 256) :
    fromBig big =
      if 0x800000 ≤ bigMantissa big then
        (UInt32.ofNat (logicalSize big + 1) <<< mantissaBits) |||
          (UInt32.ofNat (bigMantissa big) >>> 8)
      else (UInt32.ofNat (logicalSize big) <<< mantissaBits) ||| UInt32.ofNat (bigMantissa big) := by
  have hlt := bigMantissa_lt h
  have hmant : (if logicalSize big ≤ 3 then
      (big % 2 ^ 64) <<< shiftLow (logicalSize big) % 2 ^ 64
      else (big >>> shiftHigh (logicalSize big)) % 2 ^ 64) = bigMantissa big := by
    unfold bigMantissa at hlt ⊢
    by_cases hsize : logicalSize big ≤ 3
    · simp only [if_pos hsize] at hlt ⊢
      have hbig : big ≤ big * 256 ^ (3 - logicalSize big) :=
        Nat.le_mul_of_pos_right big (Nat.pow_pos (by decide))
      have hmod : big % 2 ^ 64 = big := Nat.mod_eq_of_lt (by omega)
      rw [shiftLow, hmod, Nat.shiftLeft_eq, shift_eq_pow, Nat.mod_eq_of_lt (by omega)]
    · simp only [if_neg hsize] at hlt ⊢
      rw [shiftHigh, Nat.shiftRight_eq_div_pow, shift_eq_pow, Nat.mod_eq_of_lt (by omega)]
  have hsign : isNegated (UInt32.ofNat (bigMantissa big)) =
      decide (0x800000 ≤ bigMantissa big) := by
    rw [isNegated_eq, UInt32.toNat_ofNat_of_lt' (hlt.trans (by decide))]
    congr 1
    rw [eq_iff_iff]
    omega
  simp only [fromBig, hmant, hsign, decide_eq_true_eq]

/-- An exponent within 32 bytes, or one byte behind with a mantissa of two bytes, is no
overflow. -/
theorem isOverflow_eq_false (h : exponent ≤ 32 ∨ exponent ≤ 33 ∧ mantissa.toNat ≤ 0xffff) :
    isOverflow exponent mantissa = false := by
  have hlog : log256 mantissa ≤ 3 ∧ (mantissa.toNat ≤ 0xffff → log256 mantissa ≤ 2) := by
    unfold log256
    simp only [gt_iff_lt, UInt32.lt_iff_toNat_lt]
    split_ifs with hthree <;> simp
    exact hthree
  simp only [isOverflow, gt_iff_lt, Bool.and_eq_false_iff, decide_eq_false_iff_not]
  right
  omega

theorem bigMantissa_of_le (h : logicalSize big ≤ 3) :
    bigMantissa big = big * 256 ^ (3 - logicalSize big) := if_pos h

theorem bigMantissa_of_ge (h : 3 ≤ logicalSize big) :
    bigMantissa big = big / 256 ^ (logicalSize big - 3) := by
  unfold bigMantissa
  split
  · next hle => simp [le_antisymm hle h]
  · rfl

theorem shiftLeft_kept (h : big < 2 ^ 256) (k : Nat) :
    ((big / 256 ^ k) <<< (8 * k)) % 2 ^ 256 = kept 256 big k := by
  rw [Nat.shiftLeft_eq, shift_eq_pow]
  exact Nat.mod_eq_of_lt ((kept_le 256 big k).trans_lt h)

/-- A number that fits the mantissa drops no byte. -/
theorem drops_zero (h : big < 0x800000) :
    ∃ k, Drops 256 0x800000 big k ∧ some big = some (kept 256 big k) :=
  ⟨0, .zero h, by simp [kept]⟩

/-- The mantissa that leaves the sign bit clear is read back. -/
theorem fromCompact_unmoved (h : big < 2 ^ 256) (hsign : bigMantissa big < 0x800000) :
    ∃ k, Drops 256 0x800000 big k ∧
      fromCompact ((UInt32.ofNat (logicalSize big) <<< mantissaBits) |||
        UInt32.ofNat (bigMantissa big)) = some (kept 256 big k) := by
  have hsize := logicalSize_le big
  have hmant := UInt32.toNat_ofNat_of_lt' (hsign.trans (by decide))
  rw [fromCompact_pack (by omega) (by omega), hmant]
  by_cases hsmall : logicalSize big ≤ 3
  · have hpos : 0 < 256 ^ (3 - logicalSize big) := Nat.pow_pos (by decide)
    rw [if_pos hsmall, bigMantissa_of_le hsmall, shiftLow, Nat.shiftRight_eq_div_pow, shift_eq_pow,
      Nat.mul_div_cancel _ hpos]
    rw [bigMantissa_of_le hsmall] at hsign
    exact drops_zero ((Nat.le_mul_of_pos_right big hpos).trans_lt hsign)
  · obtain ⟨k, hk⟩ : ∃ k, logicalSize big = k + 4 := ⟨logicalSize big - 4, by omega⟩
    rw [bigMantissa_of_ge (by omega), hk] at hsign
    rw [if_neg hsmall, isOverflow_eq_false (.inl hsize), bigMantissa_of_ge (by omega), shiftHigh, hk]
    refine ⟨k + 1, .of_pred hsign ?_ (by decide), congrArg some (shiftLeft_kept h (k + 1))⟩
    -- the bytes in front of the dropped ones are four
    have hle := pow_le_of_logicalSize hk
    rw [Nat.le_div_iff_mul_le (Nat.pow_pos (by decide))]
    calc 0x800000 * 256 ^ k ≤ 256 ^ 3 * 256 ^ k := Nat.mul_le_mul_right _ (by decide)
      _ = 256 ^ (k + 3) := by rw [← pow_add, add_comm]
      _ ≤ big := hle

/-- The mantissa that is moved out of the sign bit is read back. -/
theorem fromCompact_moved (h : big < 2 ^ 256) (hsign : 0x800000 ≤ bigMantissa big) :
    ∃ k, Drops 256 0x800000 big k ∧
      fromCompact ((UInt32.ofNat (logicalSize big + 1) <<< mantissaBits) |||
        (UInt32.ofNat (bigMantissa big) >>> 8)) = some (kept 256 big k) := by
  have hlt := bigMantissa_lt h
  have hsize := logicalSize_le big
  have hmoved : (UInt32.ofNat (bigMantissa big) >>> 8).toNat = bigMantissa big / 256 := by
    rw [UInt32.toNat_shiftRight, UInt32.toNat_ofNat_of_lt' (hlt.trans (by decide))]
    exact Nat.shiftRight_eq_div_pow _ 8
  rw [fromCompact_pack (by omega) (by omega), hmoved]
  by_cases hsmall : logicalSize big + 1 ≤ 3
  · have hpos : 0 < 256 ^ (2 - logicalSize big) := Nat.pow_pos (by decide)
    have hdigits : big * 256 ^ (3 - logicalSize big) / 256 = big * 256 ^ (2 - logicalSize big) := by
      rw [show 3 - logicalSize big = 2 - logicalSize big + 1 by omega, pow_succ, ← mul_assoc,
        Nat.mul_div_cancel _ (by decide)]
    rw [if_pos hsmall, bigMantissa_of_le (by omega), hdigits, shiftLow,
      Nat.shiftRight_eq_div_pow, shift_eq_pow,
      show 3 - (logicalSize big + 1) = 2 - logicalSize big by omega, Nat.mul_div_cancel _ hpos]
    have hbytes : big < 256 ^ 2 := (lt_pow_logicalSize h).trans_le
      (Nat.pow_le_pow_right (by decide) (by omega))
    exact drops_zero (hbytes.trans (by decide))
  · obtain ⟨k, hk⟩ : ∃ k, logicalSize big = k + 3 := ⟨logicalSize big - 3, by omega⟩
    have hbig : bigMantissa big = big / 256 ^ k := by rw [bigMantissa_of_ge (by omega), hk]; rfl
    have hdrop : bigMantissa big / 256 = big / 256 ^ (k + 1) := by
      rw [hbig, Nat.div_div_eq_div_mul, pow_succ]
    rw [if_neg hsmall, isOverflow_eq_false (.inr ⟨by omega, by omega⟩), hdrop, shiftHigh, hk]
    refine ⟨k + 1, .of_pred ?_ ?_ (by decide), congrArg some (shiftLeft_kept h (k + 1))⟩
    · omega
    · rwa [← hbig]

/-- The normal form expands to the leading digits of the number. -/
theorem fromCompact_fromBig (h : big < 2 ^ 256) :
    ∃ k, Drops 256 0x800000 big k ∧ fromCompact (fromBig big) = some (kept 256 big k) := by
  rw [fromBig_eq h]
  split
  · next hsign => exact fromCompact_moved h hsign
  · next hsign => exact fromCompact_unmoved h (not_le.mp hsign)

/-- The target that compact bits stand for. -/
def expand (compact : UInt32) : Nat := (ofUInt32 compact).big

theorem exists_expand_fromBig (h : big < 2 ^ 256) :
    ∃ k, Drops 256 (256 * 0x8000) big k ∧ expand (fromBig big) = kept 256 big k := by
  obtain ⟨k, hdrops, hexpand⟩ := fromCompact_fromBig h
  exact ⟨k, hdrops, by rw [expand, ofUInt32, hexpand]⟩

theorem expand_fromBig_le (h : big < 2 ^ 256) : expand (fromBig big) ≤ big := by
  obtain ⟨k, -, hexpand⟩ := exists_expand_fromBig h
  rw [hexpand]
  exact kept_le 256 big k

theorem expand_fromBig_pos (h : big < 2 ^ 256) (hpos : 0 < big) : 0 < expand (fromBig big) := by
  obtain ⟨k, hdrops, hexpand⟩ := exists_expand_fromBig h
  rw [hexpand]
  exact hdrops.kept_pos (by decide) hpos

theorem expand_fromBig_mono {small : Nat} (hle : small ≤ big) (h : big < 2 ^ 256) :
    expand (fromBig small) ≤ expand (fromBig big) := by
  obtain ⟨k, hsmall, hexpandSmall⟩ := exists_expand_fromBig (hle.trans_lt h)
  obtain ⟨l, hbig, hexpandBig⟩ := exists_expand_fromBig h
  rw [hexpandSmall, hexpandBig]
  exact Drops.kept_mono (by decide) hsmall hbig hle

end BitprimCore.Compact
