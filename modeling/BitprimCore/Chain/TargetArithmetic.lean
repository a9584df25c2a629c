import BitprimCore.Chain.CompactForm
import BitprimCore.Chain.Header
import Mathlib.Order.Bounds.Basic

/-!
# Targets and their proof

Compact bits as a floating point number: `m * 256 ^ (e - 3)` for the exponent `e` and the mantissa
`m`, with the overflow exactly where this leaves 256 bits. The normal form of a number is the best
approximation from below, and the proof of a target is the quotient `2 ^ 256 / (target + 1)` that
256 bits cannot write down.
-/

namespace BitprimCore

namespace Compact

open LeadingDigits

section

variable (compact : UInt32)

/-- The exponent byte of compact bits. -/
def exponentOf : Nat := compact.toNat / 2 ^ 24

/-- The mantissa of compact bits, below the sign bit. -/
def mantissaOf : Nat := compact.toNat % 2 ^ 23

theorem mantissaOf_lt : mantissaOf compact < 0x800000 := Nat.mod_lt _ (by decide)

theorem toNat_shiftRight_mantissaBits : (compact >>> mantissaBits).toNat = exponentOf compact := by
  rw [UInt32.toNat_shiftRight, show mantissaBits.toNat % 32 = 24 by decide,
    Nat.shiftRight_eq_div_pow]
  rfl

theorem toNat_and_mantissaMax : (compact &&& mantissaMax).toNat = mantissaOf compact := by
  rw [UInt32.toNat_and, show mantissaMax.toNat = 2 ^ 23 - 1 by decide,
    Nat.and_two_pow_sub_one_eq_mod]
  rfl

end

/-- The logarithm of a mantissa is its number of bytes. -/
theorem log256_bounds {mantissa : UInt32} (hpos : 0 < mantissa.toNat)
    (hlt : mantissa.toNat < 0x800000) :
    ∃ bytes, log256 mantissa = bytes + 1 ∧ bytes ≤ 2 ∧ 256 ^ bytes ≤ mantissa.toNat ∧
      mantissa.toNat < 256 ^ (bytes + 1) := by
  unfold log256
  simp only [gt_iff_lt, UInt32.lt_iff_toNat_lt, UInt32.reduceToNat]
  split_ifs with hthree htwo
  · exact ⟨2, rfl, by decide, by omega, by omega⟩
  · exact ⟨1, rfl, by decide, by omega, by omega⟩
  · exact ⟨0, rfl, by decide, by omega, by omega⟩

/-- The comparison of byte counts is the comparison with `2 ^ 256`. -/
theorem isOverflow_iff {exponent : Nat} {mantissa : UInt32} (hexp : 3 < exponent)
    (hmant : mantissa.toNat < 0x800000) :
    isOverflow exponent mantissa ↔ 2 ^ 256 ≤ mantissa.toNat * 256 ^ (exponent - 3) := by
  have htop : (2 : Nat) ^ 256 = 256 ^ 32 := by norm_num
  simp only [isOverflow, gt_iff_lt, Bool.and_eq_true, decide_eq_true_eq, UInt32.lt_iff_toNat_lt,
    UInt32.toNat_zero]
  rcases Nat.eq_zero_or_pos mantissa.toNat with hzero | hpos
  · simp [hzero]
  obtain ⟨bytes, hlog, hbytes, hlow, hhigh⟩ := log256_bounds hpos hmant
  rw [hlog, htop]
  constructor
  · rintro ⟨-, hlarge⟩
    calc 256 ^ 32 ≤ 256 ^ (bytes + (exponent - 3)) := Nat.pow_le_pow_right (by decide) (by omega)
      _ = 256 ^ bytes * 256 ^ (exponent - 3) := pow_add _ _ _
      _ ≤ mantissa.toNat * 256 ^ (exponent - 3) := Nat.mul_le_mul_right _ hlow
  · intro hle
    refine ⟨hpos, ?_⟩
    have hbound : 256 ^ 32 < 256 ^ (bytes + 1 + (exponent - 3)) := by
      rw [pow_add]
      exact hle.trans_lt (Nat.mul_lt_mul_of_pos_right hhigh (Nat.pow_pos (by decide)))
    have hexponents := (Nat.pow_lt_pow_iff_right (by decide)).mp hbound
    omega

variable {compact : UInt32}

/-- Compact bits without the sign are read as mantissa and exponent, or overflow. -/
theorem fromCompact_eq (hsign : isNegated compact = false) :
    fromCompact compact =
      if 3 < exponentOf compact ∧
          2 ^ 256 ≤ mantissaOf compact * 256 ^ (exponentOf compact - 3) then none
      else some (mantissaOf compact * 256 ^ exponentOf compact / 256 ^ 3) := by
  have hlt := mantissaOf_lt compact
  have hmant := toNat_and_mantissaMax compact
  simp only [fromCompact, hsign, Bool.false_eq_true, if_false, toNat_shiftRight_mantissaBits, hmant]
  by_cases hsmall : exponentOf compact ≤ 3
  · have hpower : 256 ^ 3 = 256 ^ exponentOf compact * 256 ^ (3 - exponentOf compact) := by
      rw [← pow_add, Nat.add_sub_cancel' hsmall]
    rw [if_pos hsmall, if_neg (by omega), shiftLow, Nat.shiftRight_eq_div_pow, shift_eq_pow, hpower,
      mul_comm (mantissaOf compact), Nat.mul_div_mul_left _ _ (Nat.pow_pos (by decide))]
  · have hlarge : 3 < exponentOf compact := not_le.mp hsmall
    have hover := isOverflow_iff hlarge (hmant.trans_lt hlt)
    rw [hmant] at hover
    rw [if_neg hsmall]
    by_cases htop : 2 ^ 256 ≤ mantissaOf compact * 256 ^ (exponentOf compact - 3)
    · rw [if_pos (hover.mpr htop), if_pos ⟨hlarge, htop⟩]
    · have hpower : 256 ^ exponentOf compact = 256 ^ (exponentOf compact - 3) * 256 ^ 3 := by
        rw [← pow_add, Nat.sub_add_cancel hlarge.le]
      rw [if_neg (mt hover.mp htop), if_neg (fun h => htop h.2), shiftHigh, Nat.shiftLeft_eq,
        shift_eq_pow, Nat.mod_eq_of_lt (not_le.mp htop), hpower, ← mul_assoc,
        Nat.mul_div_cancel _ (by decide)]

theorem fromCompact_of_isNegated (hsign : isNegated compact) : fromCompact compact = some 0 := by
  simp [fromCompact, hsign]

/-- A target that compact bits expand to is digits below the sign bit in front of zero bytes. -/
theorem exists_digits_of_fromCompact {target : Nat} (h : fromCompact compact = some target) :
    ∃ digits places, digits < 256 * 0x8000 ∧ target = digits * 256 ^ places ∧ target < 2 ^ 256 := by
  cases hsign : isNegated compact with
  | true =>
    rw [fromCompact_of_isNegated hsign] at h
    obtain rfl : 0 = target := Option.some.inj h
    exact ⟨0, 0, by decide, rfl, by decide⟩
  | false =>
    have hlt := mantissaOf_lt compact
    rw [fromCompact_eq hsign] at h
    split at h
    · cases h
    next htop =>
      obtain rfl := Option.some.inj h
      rcases Nat.lt_or_ge 3 (exponentOf compact) with hlarge | hsmall
      · have hpower : 256 ^ exponentOf compact = 256 ^ (exponentOf compact - 3) * 256 ^ 3 := by
          rw [← pow_add, Nat.sub_add_cancel hlarge.le]
        rw [hpower, ← Nat.mul_assoc, Nat.mul_div_cancel _ (by decide)]
        exact ⟨mantissaOf compact, exponentOf compact - 3, hlt, rfl,
          Nat.not_le.mp fun hle => htop ⟨hlarge, hle⟩⟩
      · have hle : mantissaOf compact * 256 ^ exponentOf compact / 256 ^ 3 ≤ mantissaOf compact :=
          Nat.div_le_of_le_mul (by
            rw [Nat.mul_comm]
            exact Nat.mul_le_mul_right _ (Nat.pow_le_pow_right (by decide) hsmall))
        exact ⟨_, 0, hle.trans_lt hlt, (Nat.mul_one _).symm, (hle.trans_lt hlt).trans (by decide)⟩

variable {big : Nat}

/-- The target can be written in compact form. -/
def Representable (target : Nat) : Prop :=
  ∃ compact, (ofUInt32 compact).overflowed = false ∧ expand compact = target

theorem fromCompact_of_representable {target : Nat} (h : Representable target) :
    ∃ compact, fromCompact compact = some target := by
  obtain ⟨compact, hover, hexpand⟩ := h
  refine ⟨compact, ?_⟩
  unfold expand ofUInt32 at hexpand
  unfold ofUInt32 at hover
  cases hcompact : fromCompact compact with
  | none => simp [hcompact] at hover
  | some value => simpa [hcompact] using hexpand

theorem isNegated_fromBig (h : big < 2 ^ 256) : isNegated (fromBig big) = false := by
  have hlt := bigMantissa_lt h
  have hsize := logicalSize_le big
  have hmant := UInt32.toNat_ofNat_of_lt' (hlt.trans (by decide))
  rw [fromBig_eq h, isNegated_eq, decide_eq_false_iff_not]
  split
  · have hmoved : (UInt32.ofNat (bigMantissa big) >>> 8).toNat = bigMantissa big / 256 := by
      rw [UInt32.toNat_shiftRight, hmant]
      exact Nat.shiftRight_eq_div_pow _ 8
    rw [toNat_pack (by omega) (by omega), hmoved]
    omega
  · next hsign =>
      rw [toNat_pack (by omega) (by omega), hmant]
      omega

theorem overflowed_fromBig (h : big < 2 ^ 256) : (ofUInt32 (fromBig big)).overflowed = false := by
  obtain ⟨k, -, hcompact⟩ := fromCompact_fromBig h
  simp [ofUInt32, hcompact]

/-- Nothing between the expansion of the normal form and the number can be represented. -/
theorem isGreatest_expand_fromBig (h : big < 2 ^ 256) :
    IsGreatest {target | Representable target ∧ target ≤ big} (expand (fromBig big)) := by
  refine ⟨⟨⟨fromBig big, overflowed_fromBig h, rfl⟩, expand_fromBig_le h⟩, ?_⟩
  rintro target ⟨hrepresentable, hle⟩
  obtain ⟨compact, hcompact⟩ := fromCompact_of_representable hrepresentable
  obtain ⟨digits, places, hdigits, rfl, -⟩ := exists_digits_of_fromCompact hcompact
  obtain ⟨k, hdrops, hexpand⟩ := exists_expand_fromBig h
  rw [hexpand]
  exact hdrops.mul_pow_le_kept (by decide) hdigits hle

/-- Dropped bytes do not change the number of bytes. -/
theorem logicalSize_kept {k size : Nat} (h : big < 2 ^ 256) (hsize : logicalSize big = size + 1)
    (hk : k ≤ size) : logicalSize (kept 256 big k) = size + 1 := by
  have hlow := pow_le_of_logicalSize hsize
  have hhigh := lt_pow_logicalSize h
  have hle := kept_le 256 big k
  rw [hsize] at hhigh
  refine logicalSize_eq ?_ (hle.trans_lt hhigh) (hle.trans_lt h)
  -- the leading power is a multiple of the last place that is kept
  obtain ⟨more, rfl⟩ := Nat.exists_eq_add_of_le hk
  have hpos : 0 < 256 ^ k := Nat.pow_pos (by decide)
  rw [pow_add, mul_comm] at hlow ⊢
  exact Nat.mul_le_mul_right _ ((Nat.le_div_iff_mul_le hpos).mpr hlow)

/-- Only the digits that the normal form keeps decide it. -/
theorem fromBig_kept {k : Nat} (h : big < 2 ^ 256) (hdrops : Drops 256 0x800000 big k) :
    fromBig (kept 256 big k) = fromBig big := by
  cases k with
  | zero => simp [kept]
  | succ k =>
    have hpos : 0 < 256 ^ k := Nat.pow_pos (by decide)
    have hleast := hdrops.least k (Nat.lt_succ_self k)
    have hlt := hdrops.lt
    have hsmall : kept 256 big (k + 1) < 2 ^ 256 := (kept_le _ _ _).trans_lt h
    have hnext : big / 256 ^ (k + 1) = big / 256 ^ k / 256 := by
      rw [pow_succ, Nat.div_div_eq_div_mul]
    have hkept : kept 256 big (k + 1) = big / 256 ^ k / 256 * 256 * 256 ^ k := by
      rw [kept, hnext, pow_succ, Nat.mul_comm (256 ^ k), Nat.mul_assoc]
    have hlow : 256 ^ (k + 2) ≤ big := by
      calc 256 ^ (k + 2) = 256 ^ 2 * 256 ^ k := by rw [pow_add, Nat.mul_comm]
        _ ≤ big / 256 ^ k * 256 ^ k := Nat.mul_le_mul_right _ (by omega)
        _ ≤ big := Nat.div_mul_le_self _ _
    rw [fromBig_eq hsmall, fromBig_eq h]
    -- the first byte in front of the mantissa of three bytes is there or not
    rcases Nat.lt_or_ge big (256 ^ (k + 3)) with hthree | hfour
    · have hsize := logicalSize_eq hlow hthree h
      have hsizeKept := logicalSize_kept h hsize (Nat.le_succ (k + 1))
      have hmant : bigMantissa big = big / 256 ^ k := by
        rw [bigMantissa_of_ge (by omega), hsize]
        rfl
      have hmantissaKept : bigMantissa (kept 256 big (k + 1)) = big / 256 ^ k / 256 * 256 := by
        rw [bigMantissa_of_ge (by omega), hsizeKept, hkept]
        exact Nat.mul_div_cancel _ hpos
      rw [hmant, hmantissaKept, hsize, hsizeKept, if_pos (by omega), if_pos hleast]
      congr 1
      have hbound : big / 256 ^ k < 2 ^ 24 := hmant ▸ bigMantissa_lt h
      rw [← UInt32.toNat_inj, UInt32.toNat_shiftRight, UInt32.toNat_shiftRight,
        UInt32.toNat_ofNat_of_lt' (hbound.trans (by decide)),
        UInt32.toNat_ofNat_of_lt' (show _ < UInt32.size by simp only [UInt32.size]; omega)]
      simp only [UInt32.reduceToNat, Nat.reduceMod, Nat.shiftRight_eq_div_pow]
      omega
    · have hhigh : big < 256 ^ (k + 4) := by
        have hmul := (Nat.div_lt_iff_lt_mul (Nat.pow_pos (by decide))).mp hlt
        calc big < 0x800000 * 256 ^ (k + 1) := hmul
          _ ≤ 256 ^ 3 * 256 ^ (k + 1) := Nat.mul_le_mul_right _ (by decide)
          _ = 256 ^ (k + 4) := by rw [← pow_add, Nat.add_comm]
      have hsize := logicalSize_eq hfour hhigh h
      have hsizeKept := logicalSize_kept h hsize (show k + 1 ≤ k + 3 by omega)
      have hmant : bigMantissa big = big / 256 ^ (k + 1) := by
        rw [bigMantissa_of_ge (by omega), hsize]
        rfl
      have hmantissaKept : bigMantissa (kept 256 big (k + 1)) = big / 256 ^ (k + 1) := by
        rw [bigMantissa_of_ge (by omega), hsizeKept]
        exact Nat.mul_div_cancel _ (Nat.pow_pos (by decide))
      rw [hmant, hmantissaKept, hsize, hsizeKept]

/-- The normal form of the expansion is the normal form. -/
theorem normal_ofUInt32_fromBig (h : big < 2 ^ 256) :
    (ofUInt32 (fromBig big)).normal = fromBig big := by
  obtain ⟨k, hdrops, hcompact⟩ := fromCompact_fromBig h
  rw [ofUInt32, hcompact]
  exact fromBig_kept h hdrops

theorem overflowed_iff (hsign : isNegated compact = false) :
    (ofUInt32 compact).overflowed ↔
      3 < exponentOf compact ∧ 2 ^ 256 ≤ mantissaOf compact * 256 ^ (exponentOf compact - 3) := by
  rw [ofUInt32, fromCompact_eq hsign]
  split_ifs with htop
  · exact iff_of_true rfl htop
  · exact iff_of_false (by simp) htop

theorem expand_eq (hsign : isNegated compact = false)
    (hover : (ofUInt32 compact).overflowed = false) :
    expand compact = mantissaOf compact * 256 ^ exponentOf compact / 256 ^ 3 := by
  have htop := mt (overflowed_iff hsign).mpr (by simp [hover])
  rw [expand, ofUInt32, fromCompact_eq hsign, if_neg htop]

/-- Compact numbers approximate 256-bit numbers from below as well as their form allows, and are
read as mantissa and exponent. -/
theorem compact_arithmetic :
    (∀ big < 2 ^ 256,
      (ofUInt32 (ofBig big).normal).overflowed = false ∧ isNegated (ofBig big).normal = false ∧
      IsGreatest {target | Representable target ∧ target ≤ big} (expand (ofBig big).normal) ∧
      (ofUInt32 (ofBig big).normal).normal = (ofBig big).normal) ∧
    (∀ big < 2 ^ 256, ∀ small ≤ big, expand (ofBig small).normal ≤ expand (ofBig big).normal) ∧
    (∀ compact, isNegated compact = false →
      ((ofUInt32 compact).overflowed = true ↔
        3 < exponentOf compact ∧ 2 ^ 256 ≤ mantissaOf compact * 256 ^ (exponentOf compact - 3)) ∧
      ((ofUInt32 compact).overflowed = false →
        expand compact = mantissaOf compact * 256 ^ exponentOf compact / 256 ^ 3)) ∧
    (∀ compact, isNegated compact = true →
      (ofUInt32 compact).overflowed = false ∧ expand compact = 0) := by
  refine ⟨?_, ?_, ?_, ?_⟩
  · intro big h
    exact ⟨overflowed_fromBig h, isNegated_fromBig h, isGreatest_expand_fromBig h,
      normal_ofUInt32_fromBig h⟩
  · intro big h small hle
    exact expand_fromBig_mono hle h
  · intro compact hsign
    exact ⟨overflowed_iff hsign, expand_eq hsign⟩
  · intro compact hsign
    have hzero := fromCompact_of_isNegated hsign
    exact ⟨by simp [ofUInt32, hzero], by simp [expand, ofUInt32, hzero]⟩

end Compact

namespace Header

open BitprimCore.Compact

variable {bits : UInt32}

/-- No compact bits expand to the greatest 256-bit number. -/
theorem expand_succ_lt (bits : UInt32) : expand bits + 1 < 2 ^ 256 := by
  unfold expand ofUInt32
  cases hcompact : fromCompact bits with
  | none => exact (by decide : 0 + 1 < 2 ^ 256)
  | some target =>
    obtain ⟨digits, places, hdigits, htarget, hlt⟩ := exists_digits_of_fromCompact hcompact
    simp only
    cases places with
    | zero =>
      rw [pow_zero, mul_one] at htarget
      have htop : 256 * 0x8000 + 1 < 2 ^ 256 := by decide
      omega
    | succ places =>
      -- a multiple of 256 is not one less than a power of it
      have hmult : target = 256 * (digits * 256 ^ places) := by rw [htarget, pow_succ]; ring
      have htop : 2 ^ 256 = 256 * 2 ^ 248 := by norm_num
      omega

/-- The complement is divided in the place of `2 ^ 256`, which is one divisor more. -/
theorem complement_div (target : Nat) (h : target < 2 ^ 256) :
    (2 ^ 256 - 1 - target) / (target + 1) + 1 = 2 ^ 256 / (target + 1) := by
  have hsplit : 2 ^ 256 = 2 ^ 256 - 1 - target + (target + 1) := by omega
  rw [← Nat.add_div_right _ (Nat.succ_pos target), ← hsplit]

theorem quotient_lt {target : Nat} (hpos : 0 < target) : 2 ^ 256 / (target + 1) < 2 ^ 256 :=
  Nat.div_lt_self (by decide) (by omega)

theorem proof_of_expand_pos (hpos : 0 < expand bits) :
    proof bits = 2 ^ 256 / (expand bits + 1) := by
  have hsucc := expand_succ_lt bits
  have hover : (ofUInt32 bits).overflowed = false := by
    unfold expand ofUInt32 at hpos
    unfold ofUInt32
    cases hcompact : fromCompact bits with
    | none => simp [hcompact] at hpos
    | some target => rfl
  change (if (ofUInt32 bits).overflowed then 0
    else if (expand bits + 1) % 2 ^ 256 = 0 then 0
    else ((2 ^ 256 - 1 - expand bits) / ((expand bits + 1) % 2 ^ 256) + 1) % 2 ^ 256) = _
  rw [hover, Nat.mod_eq_of_lt hsucc, if_neg (by simp), if_neg (Nat.succ_ne_zero _),
    complement_div _ (by omega), Nat.mod_eq_of_lt (quotient_lt hpos)]

theorem proof_of_expand_zero (hzero : expand bits = 0) : proof bits = 0 := by
  change (if (ofUInt32 bits).overflowed then 0
    else if (expand bits + 1) % 2 ^ 256 = 0 then 0
    else ((2 ^ 256 - 1 - expand bits) / ((expand bits + 1) % 2 ^ 256) + 1) % 2 ^ 256) = _
  rw [hzero]
  split
  · rfl
  · decide

theorem proof_pos (hpos : 0 < expand bits) : 0 < proof bits := by
  have hsucc := expand_succ_lt bits
  rw [proof_of_expand_pos hpos]
  exact Nat.div_pos hsucc.le (Nat.succ_pos _)

theorem proof_anti {other : UInt32} (hpos : 0 < expand bits) (hle : expand bits ≤ expand other) :
    proof other ≤ proof bits := by
  rw [proof_of_expand_pos hpos, proof_of_expand_pos (hpos.trans_le hle)]
  exact Nat.div_le_div_left (Nat.succ_le_succ hle) (Nat.succ_pos _)

/-- The bits stand for no target that can be met. -/
def HasNoTarget (bits : UInt32) : Prop :=
  (ofUInt32 bits).overflowed = true ∨ isNegated bits = true ∨ expand bits = 0

theorem hasNoTarget_iff : HasNoTarget bits ↔ expand bits = 0 := by
  refine ⟨?_, fun hzero => .inr (.inr hzero)⟩
  rintro (hover | hsign | hzero)
  · unfold expand ofUInt32 at *
    cases hcompact : fromCompact bits with
    | none => rfl
    | some target => simp [hcompact] at hover
  · simp [expand, ofUInt32, fromCompact_of_isNegated hsign]
  · exact hzero

/-- The proof of bits is the exact quotient, or zero where there is no target; no step of its
computation wraps. -/
theorem proof_exact (bits : UInt32) :
    (HasNoTarget bits → proof bits = 0) ∧
    (¬ HasNoTarget bits →
      proof bits = 2 ^ 256 / (expand bits + 1) ∧ 0 < proof bits ∧
      expand bits + 1 < 2 ^ 256 ∧
      (2 ^ 256 - 1 - expand bits) / (expand bits + 1) + 1 < 2 ^ 256 ∧
      ∀ other, ¬ HasNoTarget other → expand bits ≤ expand other → proof other ≤ proof bits) := by
  simp only [hasNoTarget_iff]
  refine ⟨proof_of_expand_zero, ?_⟩
  intro hzero
  have hpos := pos_of_ne_zero hzero
  have hsucc := expand_succ_lt bits
  refine ⟨proof_of_expand_pos hpos, proof_pos hpos, hsucc, ?_, ?_⟩
  · rw [complement_div _ (by omega)]
    exact quotient_lt hpos
  · intro other _ hle
    exact proof_anti hpos hle

end Header

end BitprimCore
