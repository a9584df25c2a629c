import BitprimCore.Chain.Block
import Mathlib.Algebra.BigOperators.Intervals
import Mathlib.Algebra.Order.BigOperators.Group.Finset

/-!
# Emission

The sum of the subsidies of all blocks up to a height. The subsidy is constant over each interval,
so the blocks of the first 64 intervals emit exactly `max_money`. The block behind them is the
first whose subsidy is not shifted at all, so it is the first to break the bound.
-/

namespace BitprimCore.Block

open Finset

/-- What the block at the height and all blocks below it may create. -/
def emission (currency : Currency) (retarget : Bool) (height : Nat) : Nat :=
  ∑ k ∈ range (height + 1), subsidy currency k retarget

/-- The subsidy of a block after a number of halvings, as the source shifts it. -/
def halvedSubsidy (halvings : Nat) : Nat :=
  initialBlockSubsidySatoshi >>> if halvings ≥ 64 then 0 else halvings

variable {currency : Currency} {retarget : Bool} {height : Nat}

theorem subsidy_eq_halvedSubsidy : subsidy currency height retarget =
    halvedSubsidy (height / currency.subsidyInterval retarget) := rfl

theorem subsidyInterval_pos (currency : Currency) (retarget : Bool) :
    0 < currency.subsidyInterval retarget := by
  cases currency <;> cases retarget <;> decide

theorem halvedSubsidy_anti {m n : Nat} (hmn : m ≤ n) (hn : n < 64) :
    halvedSubsidy n ≤ halvedSubsidy m := by
  rw [halvedSubsidy, halvedSubsidy, if_neg (by omega), if_neg (by omega),
    Nat.shiftRight_eq_div_pow, Nat.shiftRight_eq_div_pow]
  exact Nat.div_le_div_left (Nat.pow_le_pow_right (by decide) hmn) (Nat.pow_pos (by decide))

/-- The halvings of the initial subsidy add up to the constant of the source. -/
theorem sum_halvedSubsidy : ∑ n ∈ range 64, halvedSubsidy n = recursiveMoney := by
  decide +kernel

/-- Over whole intervals the subsidies are those of the halvings, each counted once a block. -/
theorem sum_subsidy_intervals (currency : Currency) (retarget : Bool) (count : Nat) :
    ∑ k ∈ range (count * currency.subsidyInterval retarget), subsidy currency k retarget =
      currency.subsidyInterval retarget * ∑ n ∈ range count, halvedSubsidy n := by
  have hpos := subsidyInterval_pos currency retarget
  generalize hinterval : currency.subsidyInterval retarget = interval at hpos ⊢
  induction count with
  | zero => simp
  | succ count ih =>
    have hconst : ∀ k ∈ range interval,
        subsidy currency (count * interval + k) retarget = halvedSubsidy count := by
      intro k hk
      rw [subsidy_eq_halvedSubsidy, hinterval, mul_comm, Nat.mul_add_div hpos,
        Nat.div_eq_of_lt (mem_range.mp hk), add_zero]
    rw [Nat.succ_mul, sum_range_add, ih, sum_const_nat hconst, card_range, sum_range_succ, mul_add]

theorem sum_subsidy_eq_maxMoney (currency : Currency) (retarget : Bool) :
    ∑ k ∈ range (64 * currency.subsidyInterval retarget), subsidy currency k retarget =
      currency.maxMoney retarget := by
  rw [sum_subsidy_intervals, sum_halvedSubsidy, mul_comm]
  rfl

theorem subsidy_of_le (h : 64 * currency.subsidyInterval retarget ≤ height) :
    subsidy currency height retarget = initialBlockSubsidySatoshi := by
  have hhalvings : 64 ≤ height / currency.subsidyInterval retarget :=
    (Nat.le_div_iff_mul_le (subsidyInterval_pos currency retarget)).mpr h
  rw [subsidy_eq_halvedSubsidy, halvedSubsidy, if_pos hhalvings, Nat.shiftRight_zero]

theorem subsidy_succ_le (h : height + 1 < 64 * currency.subsidyInterval retarget) :
    subsidy currency (height + 1) retarget ≤ subsidy currency height retarget := by
  rw [subsidy_eq_halvedSubsidy, subsidy_eq_halvedSubsidy]
  apply halvedSubsidy_anti (Nat.div_le_div_right (Nat.le_succ height))
  rwa [Nat.div_lt_iff_lt_mul (subsidyInterval_pos currency retarget)]

theorem emission_le (h : height + 1 < 64 * currency.subsidyInterval retarget) :
    emission currency retarget height ≤ currency.maxMoney retarget := by
  rw [emission, ← sum_subsidy_eq_maxMoney]
  exact sum_le_sum_of_subset (range_subset_range.mpr h.le)

/-- The first block behind the 64 intervals creates more than the limit. -/
theorem lt_emission (h : 64 * currency.subsidyInterval retarget ≤ height) :
    currency.maxMoney retarget < emission currency retarget height := by
  have hsubsidy : 0 < subsidy currency height retarget := by
    rw [subsidy_of_le h]
    decide
  calc currency.maxMoney retarget
      = ∑ k ∈ range (64 * currency.subsidyInterval retarget), subsidy currency k retarget :=
        (sum_subsidy_eq_maxMoney currency retarget).symm
    _ ≤ ∑ k ∈ range height, subsidy currency k retarget :=
        sum_le_sum_of_subset (range_subset_range.mpr h)
    _ < (∑ k ∈ range height, subsidy currency k retarget) + subsidy currency height retarget :=
        Nat.lt_add_of_pos_right hsubsidy
    _ = emission currency retarget height := (sum_range_succ _ height).symm

/-- The last block of the 64 intervals has no subsidy, the next one the initial subsidy. -/
theorem subsidy_lt_succ (h : height + 1 = 64 * currency.subsidyInterval retarget) :
    subsidy currency height retarget < subsidy currency (height + 1) retarget := by
  have hpos := subsidyInterval_pos currency retarget
  have hhalvings : height / currency.subsidyInterval retarget = 63 := by
    rw [Nat.div_eq_iff hpos]
    omega
  rw [subsidy_of_le h.ge, subsidy_eq_halvedSubsidy, hhalvings]
  decide +kernel

/-- The subsidy does not increase at the height, and the blocks up to it stay within `max_money`,
exactly for the heights below the last block of the 64th interval. -/
theorem bounded_emission_iff (currency : Currency) (retarget : Bool) (height : Nat) :
    (subsidy currency (height + 1) retarget ≤ subsidy currency height retarget ∧
        emission currency retarget height ≤ currency.maxMoney retarget) ↔
      height + 1 < 64 * currency.subsidyInterval retarget := by
  constructor
  · rintro ⟨hsubsidy, hemission⟩
    by_contra hlarge
    obtain hlast | hbehind : height + 1 = 64 * currency.subsidyInterval retarget ∨
        64 * currency.subsidyInterval retarget ≤ height := by omega
    · exact absurd hsubsidy (subsidy_lt_succ hlast).not_ge
    · exact absurd hemission (lt_emission hbehind).not_ge
  · intro h
    exact ⟨subsidy_succ_le h, emission_le h⟩

/-- The subsidy comes back at height 13440000 of the main network. -/
theorem subsidy_restarts : ¬ subsidy .btc (13439999 + 1) true ≤ subsidy .btc 13439999 true := by
  decide +kernel

end BitprimCore.Block
