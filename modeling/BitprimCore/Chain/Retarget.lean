import BitprimCore.Chain.CompactForm
import BitprimCore.Chain.WorkRequired

/-!
# Retargeting

What `work_required_retarget` computes, compared with the rule in unbounded integers: the last
target, scaled by the bounded time that the last 2016 blocks took, and not above the limit.

## Implementation notes

The product is computed in 256 bits. With the limit of the `btc` build it always fits. With the
limit of the `ltc` build, which has 12 bits more, it does not, and the guard that should halve the
target tests for one bit more than a target can have.
-/

namespace BitprimCore

open BitprimCore.Compact Currency

variable (currency : Currency) (high low : UInt32)

/-- The greatest target, of which the constant of the source is the compact form. -/
def Currency.powLimit : Nat := expand currency.retargetProofOfWorkLimit

/-- The time between two timestamps, bounded on both sides. -/
def Currency.boundedTimespan : Nat :=
  (max (currency.minTimespan : Int) (min currency.maxTimespan ((high.toNat : Int) - low.toNat))).toNat

/-- The rule for a target, in unbounded integers. -/
def Currency.retargeted (target timespan : Nat) : Nat :=
  min currency.powLimit (target * timespan / currency.targetTimespanSeconds)

theorem Currency.le_boundedTimespan : currency.minTimespan ≤ currency.boundedTimespan high low := by
  unfold boundedTimespan
  omega

theorem Currency.boundedTimespan_le : currency.boundedTimespan high low ≤ currency.maxTimespan := by
  have hminmax : currency.minTimespan ≤ currency.maxTimespan := by cases currency <;> decide
  unfold boundedTimespan
  omega

namespace ChainState.Data

variable {currency : Currency} {values : Data} {bits high : UInt32}

theorem retargetTimespan_eq (hhigh : values.timestampHigh = some high) :
    values.retargetTimespan currency =
      some (currency.boundedTimespan high values.timestampRetarget) := by
  have hminmax : (currency.minTimespan : Int) ≤ currency.maxTimespan := by
    cases currency <;> decide
  have hclamp : ∀ timespan : Int, rangeConstrain timespan currency.minTimespan
      currency.maxTimespan = max (currency.minTimespan : Int) (min currency.maxTimespan timespan) := by
    intro timespan
    unfold rangeConstrain
    split_ifs <;> omega
  simp only [retargetTimespan, hhigh, hclamp, Option.bind_eq_bind, Option.bind_some,
    Option.pure_def, boundedTimespan]

/-- A target that is not above the limit is returned in compact form, and else the limit is. -/
theorem normalTarget_powLimit
    (hlimit : fromBig currency.powLimit = currency.retargetProofOfWorkLimit) (target : Nat) :
    normalTarget currency target currency.powLimit = fromBig (min currency.powLimit target) := by
  unfold normalTarget
  split_ifs with h
  · rw [Nat.min_eq_left h.le, hlimit]
  · rw [Nat.min_eq_right (Nat.not_lt.mp h)]
    rfl

section

theorem powLimit_btc : powLimit .btc = 0xffff * 2 ^ 208 := by decide +kernel

theorem fromBig_powLimit_btc : fromBig (powLimit .btc) = 0x1d00ffff := by decide +kernel

theorem normalTarget_btc (target : Nat) :
    normalTarget .btc target (powLimit .btc) = fromBig (min (powLimit .btc) target) :=
  normalTarget_powLimit fromBig_powLimit_btc target

/-- The product of a target and a time is far within 256 bits. -/
theorem target_mul_lt_btc {target : Nat} (htarget : target ≤ powLimit .btc)
    (high low : UInt32) : target * boundedTimespan .btc high low < 2 ^ 256 := by
  have hspan := boundedTimespan_le .btc high low
  calc target * boundedTimespan .btc high low
      ≤ powLimit .btc * maxTimespan .btc := Nat.mul_le_mul htarget hspan
    _ < 2 ^ 256 := by rw [powLimit_btc]; decide

theorem workRequiredRetarget_btc (hbits : values.bitsHigh = some bits)
    (hhigh : values.timestampHigh = some high) (htarget : expand bits ≤ powLimit .btc) :
    values.workRequiredRetarget .btc = some (fromBig (retargeted .btc (expand bits)
      (boundedTimespan .btc high values.timestampRetarget))) := by
  have hproduct := target_mul_lt_btc htarget high values.timestampRetarget
  have hnormal := normalTarget_btc (expand bits *
    boundedTimespan .btc high values.timestampRetarget / targetTimespanSeconds .btc)
  simp only [workRequiredRetarget, hbits, retargetTimespan_eq hhigh, Option.bind_eq_bind,
    Option.bind_some, Option.pure_def, Option.some.injEq]
  rw [retargeted, ← hnormal]
  congr 2
  exact Nat.mod_eq_of_lt hproduct

/-- The scaled target is between a quarter and four times the target. -/
theorem scaled_btc_bounds (target : Nat) (high low : UInt32) :
    target / 4 ≤ target * boundedTimespan .btc high low / targetTimespanSeconds .btc ∧
      target * boundedTimespan .btc high low / targetTimespanSeconds .btc ≤ 4 * target := by
  have hlow : 302400 ≤ boundedTimespan .btc high low := le_boundedTimespan .btc high low
  have hhigh : boundedTimespan .btc high low ≤ 4838400 := boundedTimespan_le .btc high low
  have hspan : targetTimespanSeconds .btc = 1209600 := rfl
  have hleast := Nat.mul_le_mul_left target hlow
  have hmost := Nat.mul_le_mul_left target hhigh
  rw [hspan]
  omega

/-- The work of the `btc` build is that of the rule. Its target is at most the limit and four times
the last target, and at least a quarter of it up to the digits that the compact form drops. -/
theorem workRequiredRetarget_exact (hbits : values.bitsHigh = some bits)
    (hhigh : values.timestampHigh = some high) (htarget : expand bits ≤ powLimit .btc) :
    expand bits * boundedTimespan .btc high values.timestampRetarget < 2 ^ 256 ∧
      ∃ result, values.workRequiredRetarget .btc = some result ∧
        result = fromBig (retargeted .btc (expand bits)
          (boundedTimespan .btc high values.timestampRetarget)) ∧
        expand result ≤ powLimit .btc ∧ expand result ≤ 4 * expand bits ∧
        (4 ≤ expand bits → 0 < expand result ∧
          expand (fromBig (min (powLimit .btc) (expand bits / 4))) ≤ expand result) := by
  refine ⟨target_mul_lt_btc htarget high values.timestampRetarget, _,
    workRequiredRetarget_btc hbits hhigh htarget, rfl, ?_⟩
  obtain ⟨hquarter, hfour⟩ := scaled_btc_bounds (expand bits) high values.timestampRetarget
  have hlimit : retargeted .btc (expand bits)
      (boundedTimespan .btc high values.timestampRetarget) ≤ powLimit .btc :=
    min_le_left _ _
  have hlt := hlimit.trans_lt (show powLimit .btc < 2 ^ 256 by rw [powLimit_btc]; decide)
  have hexpand := expand_fromBig_le hlt
  refine ⟨hexpand.trans hlimit, (hexpand.trans (min_le_right _ _)).trans hfour, fun hleast => ?_⟩
  have hmono : min (powLimit .btc) (expand bits / 4) ≤ retargeted .btc
      (expand bits) (boundedTimespan .btc high values.timestampRetarget) :=
    min_le_min_left _ hquarter
  have hpos : 0 < min (powLimit .btc) (expand bits / 4) := by
    rw [powLimit_btc]
    omega
  exact ⟨expand_fromBig_pos hlt (hpos.trans_le hmono), expand_fromBig_mono hmono hlt⟩

/-- A last block with these bits and this timestamp, 2016 blocks behind one with timestamp zero. -/
def retargetSample (bits high : UInt32) : Data where
  height := 2016
  hash := nullHash
  allowCollisionsHash := nullHash
  bip9Bit0Hash := nullHash
  bip9Bit1Hash := nullHash
  bitsSelf := 0
  bitsOrdered := [bits]
  versionSelf := 0
  versionOrdered := []
  timestampSelf := 0
  timestampRetarget := 0
  timestampOrdered := [high]

/-- Blocks in half the time halve the target. -/
theorem workRequiredRetarget_exact_half :
    expand 0x1c7fff80 * boundedTimespan .btc 604800 0 < 2 ^ 256 ∧
      ∃ result, (retargetSample 0x1c7fff80 604800).workRequiredRetarget .btc = some result ∧
        result = fromBig (retargeted .btc (expand 0x1c7fff80) (boundedTimespan .btc 604800 0)) ∧
        expand result ≤ powLimit .btc ∧ expand result ≤ 4 * expand 0x1c7fff80 ∧
        (4 ≤ expand 0x1c7fff80 → 0 < expand result ∧
          expand (fromBig (min (powLimit .btc) (expand 0x1c7fff80 / 4))) ≤ expand result) := by
  have hbits : (retargetSample 0x1c7fff80 604800).bitsHigh = some 0x1c7fff80 := rfl
  have hhigh : (retargetSample 0x1c7fff80 604800).timestampHigh = some 604800 := rfl
  have hlow : (retargetSample 0x1c7fff80 604800).timestampRetarget = 0 := rfl
  have htarget : expand 0x1c7fff80 ≤ powLimit .btc := by decide +kernel
  have hexact := workRequiredRetarget_exact hbits hhigh htarget
  rwa [hlow] at hexact

end

section

theorem powLimit_ltc : powLimit .ltc = 0xfffff * 2 ^ 216 := by decide +kernel

/-- All numbers of 236 bits from the limit on have one compact form. -/
theorem fromBig_eq_of_powLimit_le {target : Nat} (hlow : powLimit .ltc ≤ target)
    (hhigh : target < 2 ^ 236) : fromBig target = 0x1e0fffff := by
  rw [powLimit_ltc] at hlow
  have hsize : logicalSize target = 29 + 1 := logicalSize_eq (by omega) (by omega) (by omega)
  have hmant : bigMantissa target = 0xfffff := by
    rw [bigMantissa_of_ge (by omega), hsize]
    omega
  rw [fromBig_eq (by omega), hsize, hmant]
  decide

theorem normalTarget_ltc (target : Nat) :
    normalTarget .ltc target (2 ^ 236 - 1) = fromBig (min (powLimit .ltc) target) := by
  have hlimit : powLimit .ltc < 2 ^ 236 := by rw [powLimit_ltc]; decide
  have hform := fromBig_eq_of_powLimit_le (Nat.le_refl _) hlimit
  unfold normalTarget
  obtain hle | hlt := le_or_gt target (powLimit .ltc)
  · rw [Nat.min_eq_right hle, if_neg (by omega)]
    rfl
  · rw [Nat.min_eq_left hlt.le, hform]
    split_ifs with h
    · rfl
    · exact fromBig_eq_of_powLimit_le hlt.le (by omega)

/-- The guard never halves a target within the limit, so the product is that of the target, cut off
at 256 bits. -/
theorem workRequiredRetarget_ltc (hbits : values.bitsHigh = some bits)
    (hhigh : values.timestampHigh = some high) (htarget : expand bits ≤ powLimit .ltc) :
    values.workRequiredRetarget .ltc = some (fromBig (min (powLimit .ltc)
      (expand bits * boundedTimespan .ltc high values.timestampRetarget % 2 ^ 256 /
        targetTimespanSeconds .ltc))) := by
  have hshift : ¬ (ofUInt32 bits).big > 2 ^ 236 - 1 := by
    rw [powLimit_ltc, expand] at htarget
    omega
  simp only [workRequiredRetarget, hbits, retargetTimespan_eq hhigh, hshift, decide_false,
    Bool.false_eq_true, if_false, Option.bind_eq_bind, Option.bind_some, Option.pure_def,
    normalTarget_ltc]
  rfl

/-- A product beyond 256 bits stands for a target above the limit, also when the target is halved
first, but leaves one below the limit behind. -/
theorem overflow_ltc {target : Nat} (htarget : target ≤ powLimit .ltc) {high low : UInt32}
    (h : 2 ^ 256 ≤ target * boundedTimespan .ltc high low) :
    target * boundedTimespan .ltc high low % 2 ^ 256 / 302400 < powLimit .ltc ∧
      powLimit .ltc ≤ target * boundedTimespan .ltc high low / 302400 ∧
      powLimit .ltc ≤ 2 * (target / 2 * boundedTimespan .ltc high low / 302400) := by
  have hspan : boundedTimespan .ltc high low ≤ 1209600 := boundedTimespan_le .ltc high low
  generalize boundedTimespan .ltc high low = span at h hspan ⊢
  rw [powLimit_ltc] at htarget ⊢
  have hmost := Nat.mul_le_mul htarget hspan
  have hhalf : target * span ≤ 2 * (target / 2 * span) + span := by
    calc target * span ≤ (2 * (target / 2) + 1) * span := Nat.mul_le_mul_right span (by omega)
      _ = 2 * (target / 2 * span) + span := by ring
  generalize target / 2 * span = half at hhalf ⊢
  generalize target * span = product at h hmost hhalf ⊢
  refine ⟨?_, ?_, ?_⟩ <;> omega

/-- The work of the `ltc` build is that of the rule, or that of the rule for the target without its
lowest bit, exactly when the product of the target and the time fits into 256 bits. -/
theorem workRequiredRetarget_ltc_iff (hbits : values.bitsHigh = some bits)
    (hhigh : values.timestampHigh = some high) (htarget : expand bits ≤ powLimit .ltc) :
    (values.workRequiredRetarget .ltc = some (fromBig (retargeted .ltc (expand bits)
        (boundedTimespan .ltc high values.timestampRetarget))) ∨
      values.workRequiredRetarget .ltc = some (fromBig (min (powLimit .ltc)
        (2 * (expand bits / 2 * boundedTimespan .ltc high values.timestampRetarget /
          targetTimespanSeconds .ltc))))) ↔
      expand bits * boundedTimespan .ltc high values.timestampRetarget < 2 ^ 256 := by
  have hspan : targetTimespanSeconds .ltc = 302400 := rfl
  have hlimit : powLimit .ltc < 2 ^ 236 := by rw [powLimit_ltc]; decide
  rw [workRequiredRetarget_ltc hbits hhigh htarget, retargeted, hspan]
  constructor
  · intro hresult
    by_contra hoverflow
    obtain ⟨hwrapped, hexact, hhalved⟩ := overflow_ltc htarget (Nat.not_lt.mp hoverflow)
    rw [Nat.min_eq_left hexact, Nat.min_eq_left hhalved, or_self, Nat.min_eq_right hwrapped.le,
      Option.some.injEq] at hresult
    -- the two forms expand to different targets
    have hsmall := expand_fromBig_le (hwrapped.trans (hlimit.trans (by decide)))
    rw [hresult, fromBig_eq_of_powLimit_le (Nat.le_refl _) hlimit] at hsmall
    exact absurd hsmall (Nat.not_le.mpr hwrapped)
  · intro hfits
    left
    rw [Nat.mod_eq_of_lt hfits]

/-- The rule holds for the easiest target and the shortest time. -/
theorem workRequiredRetarget_ltc_iff_quarter :
    ((retargetSample 0x1e0fffff 75600).workRequiredRetarget .ltc =
        some (fromBig (retargeted .ltc (expand 0x1e0fffff) (boundedTimespan .ltc 75600 0))) ∨
      (retargetSample 0x1e0fffff 75600).workRequiredRetarget .ltc =
        some (fromBig (min (powLimit .ltc)
          (2 * (expand 0x1e0fffff / 2 * boundedTimespan .ltc 75600 0 /
            targetTimespanSeconds .ltc))))) := by
  have hbits : (retargetSample 0x1e0fffff 75600).bitsHigh = some 0x1e0fffff := rfl
  have hhigh : (retargetSample 0x1e0fffff 75600).timestampHigh = some 75600 := rfl
  exact (workRequiredRetarget_ltc_iff hbits hhigh (Nat.le_refl _)).mpr (by decide +kernel)

/-- For the easiest target and the longest time the product loses its high bits. -/
theorem workRequiredRetarget_ltc_overflows :
    expand 0x1e0fffff ≤ powLimit .ltc ∧
      ¬ ((retargetSample 0x1e0fffff 1209600).workRequiredRetarget .ltc =
          some (fromBig (retargeted .ltc (expand 0x1e0fffff) (boundedTimespan .ltc 1209600 0))) ∨
        (retargetSample 0x1e0fffff 1209600).workRequiredRetarget .ltc =
          some (fromBig (min (powLimit .ltc)
            (2 * (expand 0x1e0fffff / 2 * boundedTimespan .ltc 1209600 0 /
              targetTimespanSeconds .ltc))))) := by
  decide +kernel

end

end ChainState.Data

end BitprimCore
