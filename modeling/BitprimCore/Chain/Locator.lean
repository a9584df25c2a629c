import BitprimCore.Math.Limits
import Mathlib.Data.Nat.Log

/-!
# Block locators

The heights of a block locator: the top ten, then heights that back off by a doubled step, then the
genesis block. After `k` steps the walk is at a fixed distance from the top, which gives the number
of heights in closed form. It fits the reservation, and the step is a power of two below the height,
so it never leaves the word.
-/

namespace BitprimCore.Block

open List

variable (top count : Nat)

/-- The reservation for a locator. The logarithm is exact and rounded up. -/
def locatorSize : Nat :=
  let firstTenOrTop := min 10 top
  let remaining := top - firstTenOrTop
  let roundedUpLog :=
    if remaining = 0 then 0 else if remaining = 1 then 1 else Nat.clog 2 remaining
  firstTenOrTop + roundedUpLog + 1

/-- The variables of the loop of `locator_heights`. -/
structure LocatorWalk where
  height : Nat
  step : Nat
  heights : List Nat

namespace LocatorWalk

/-- Push a height and step down. A size has `width` bits. -/
def advance (width : Nat) (walk : LocatorWalk) : LocatorWalk :=
  let step := if walk.heights.length ≥ 10 then (walk.step <<< 1) % 2 ^ width else walk.step
  { height := floorSubtract walk.height step
    step
    heights := walk.heights ++ [walk.height] }

/-- The walk begins at the top. -/
def start (top : Nat) : LocatorWalk where
  height := top
  step := 1
  heights := []

/-- Advance until the height is zero; `none` if it is not after so many turns. -/
def run (width : Nat) : (fuel : Nat) → LocatorWalk → Option LocatorWalk
  | 0, walk => if walk.height > 0 then none else some walk
  | fuel + 1, walk => if walk.height > 0 then run width fuel (walk.advance width) else some walk

end LocatorWalk

open LocatorWalk

/-- The genesis block is pushed last. A loop that steps down takes at most `top` turns. -/
def locatorHeights (width top : Nat) : Option (List Nat) := do
  let walk ← run width top (start top)
  return walk.heights ++ [0]

/-- How far below the top the walk is after so many steps. -/
def backOff : Nat := if count ≤ 10 then count else 8 + 2 ^ (count - 9)

theorem backOff_succ : backOff (count + 1) = backOff count + 2 ^ (count + 1 - 10) := by
  unfold backOff
  rcases Nat.lt_trichotomy count 10 with hless | rfl | hmore
  · have hexp : count + 1 - 10 = 0 := by omega
    rw [if_pos (by omega), if_pos (by omega), hexp, pow_zero]
  · rfl
  · obtain ⟨rest, rfl⟩ : ∃ rest, count = rest + 10 := Nat.exists_eq_add_of_le' (by omega)
    have hfirst : rest + 10 + 1 - 9 = rest + 1 + 1 := by omega
    have hsecond : rest + 10 - 9 = rest + 1 := by omega
    have hthird : rest + 10 + 1 - 10 = rest + 1 := by omega
    rw [if_neg (by omega), if_neg (by omega), hfirst, hsecond, hthird, pow_succ]
    omega

theorem backOff_strictMono : StrictMono backOff := by
  apply strictMono_nat_of_lt_succ
  intro count
  rw [backOff_succ]
  exact Nat.lt_add_of_pos_right (Nat.two_pow_pos _)

/-- The number of heights above the genesis block. -/
def locatorCount : Nat := if top ≤ 10 then top else 9 + Nat.clog 2 (top - 8)

theorem lt_locatorCount_iff : count < locatorCount top ↔ backOff count < top := by
  unfold locatorCount backOff
  split_ifs with htop hcount hcount
  · exact Iff.rfl
  · have hpow : 2 ^ 2 ≤ 2 ^ (count - 9) := Nat.pow_le_pow_right (by decide) (by omega)
    omega
  · have hlog : 1 < Nat.clog 2 (top - 8) := (Nat.lt_clog_iff_pow_lt (by decide)).mpr (by omega)
    omega
  · rw [← Nat.sub_lt_iff_lt_add' (by omega), Nat.lt_clog_iff_pow_lt (by decide)]
    omega

/-- The step that leads to the next height is a power of two that does not exceed the top. -/
theorem pow_lt_of_backOff_lt {top count : Nat} (h : backOff count < top) :
    2 ^ (count + 1 - 10) ≤ top := by
  calc 2 ^ (count + 1 - 10) ≤ backOff count + 1 := by
        unfold backOff
        split_ifs with hcount
        · rcases lt_or_ge count 10 with hless | hten
          · have hexp : count + 1 - 10 = 0 := by omega
            rw [hexp, pow_zero]
            omega
          · obtain rfl : count = 10 := le_antisymm hcount hten
            decide
        · have hexp : count + 1 - 10 = count - 9 := by omega
          rw [hexp]
          omega
    _ ≤ top := h

namespace LocatorWalk

/-- The walk after so many steps. -/
def after (top count : Nat) : LocatorWalk where
  height := top - backOff count
  step := 2 ^ (count - 10)
  heights := (List.range count).map fun index => top - backOff index

theorem start_eq (top : Nat) : start top = after top 0 := rfl

/-- One step of the walk. The doubled step stays below the width since the height does. -/
theorem advance_after {width top count : Nat} (hwidth : top < 2 ^ width) (h : backOff count < top) :
    (after top count).advance width = after top (count + 1) := by
  have hstep : (if (after top count).heights.length ≥ 10 then
      ((after top count).step <<< 1) % 2 ^ width else (after top count).step) =
      2 ^ (count + 1 - 10) := by
    have hlen : (after top count).heights.length = count := by simp [after]
    rw [hlen]
    split_ifs with hten
    · have hexp : count + 1 - 10 = count - 10 + 1 := by omega
      have hpow := pow_lt_of_backOff_lt h
      have hdouble : (after top count).step <<< 1 = 2 ^ (count + 1 - 10) := by
        rw [hexp, pow_succ, Nat.shiftLeft_eq]
        rfl
      rw [hdouble, Nat.mod_eq_of_lt (lt_of_le_of_lt hpow hwidth)]
    · have hexp : count - 10 = count + 1 - 10 := by omega
      exact congrArg (2 ^ ·) hexp
  unfold advance
  simp only [hstep, floorSubtract_eq]
  simp only [after, backOff_succ, range_succ, map_append, map_cons, map_nil, Nat.sub_sub]

/-- The loop ends after as many turns as there are heights above the genesis block. -/
theorem run_after {width top fuel count : Nat} (hwidth : top < 2 ^ width)
    (hcount : count ≤ locatorCount top) (hfuel : top - backOff count ≤ fuel) :
    run width fuel (after top count) = some (after top (locatorCount top)) := by
  induction fuel generalizing count with
  | zero =>
    have hdone : ¬ backOff count < top := by omega
    have heq : count = locatorCount top := by
      have := (lt_locatorCount_iff top count).not.mpr hdone
      omega
    have hheight : ¬ (after top count).height > 0 := by
      change ¬ top - backOff count > 0
      omega
    rw [run, if_neg hheight, heq]
  | succ fuel ih =>
    rcases lt_or_ge count (locatorCount top) with hless | hend
    · have hback := (lt_locatorCount_iff top count).mp hless
      have hnext : backOff count < backOff (count + 1) := backOff_strictMono (Nat.lt_succ_self count)
      have hheight : (after top count).height > 0 := Nat.sub_pos_of_lt hback
      rw [run, if_pos hheight, advance_after hwidth hback]
      exact ih hless (by omega)
    · obtain rfl : count = locatorCount top := le_antisymm hcount hend
      have hback := (lt_locatorCount_iff top (locatorCount top)).not.mp (lt_irrefl _)
      have hheight : ¬ (after top (locatorCount top)).height > 0 := by
        change ¬ top - backOff (locatorCount top) > 0
        omega
      rw [run, if_neg hheight]

/-- A walk that is still above the genesis block has come by steps of the closed form. -/
theorem iterate_advance {width top count : Nat} (hwidth : top < 2 ^ width)
    (h : ∀ index < count, ((advance width)^[index] (start top)).height > 0) :
    (advance width)^[count] (start top) = after top count := by
  induction count with
  | zero => rfl
  | succ count ih =>
    have hbefore := ih fun index hidx => h index (Nat.lt_succ_of_lt hidx)
    have hheight := h count (Nat.lt_succ_self count)
    rw [hbefore] at hheight
    rw [Function.iterate_succ_apply', hbefore]
    exact advance_after hwidth (Nat.lt_of_sub_pos hheight)

end LocatorWalk

variable {width top : Nat}

theorem locatorHeights_eq (hwidth : top < 2 ^ width) :
    locatorHeights width top =
      some ((range (locatorCount top)).map (fun index => top - backOff index) ++ [0]) := by
  have hrun := run_after hwidth (Nat.zero_le (locatorCount top)) (le_refl (top - backOff 0))
  rw [locatorHeights, start_eq]
  change (run width (top - backOff 0) (after top 0)).bind _ = _
  rw [hrun]
  rfl

theorem length_locator_le (top : Nat) : locatorCount top + 1 ≤ locatorSize top := by
  unfold locatorCount locatorSize
  rcases lt_or_ge 10 top with hmore | hten
  · have hmin : min 10 top = 10 := min_eq_left (le_of_lt hmore)
    rw [if_neg (not_le.mpr hmore), hmin]
    rcases lt_or_ge 1 (top - 10) with htwo | hone
    · -- two more than the remaining heights are at most twice as many
      have hlog : Nat.clog 2 (top - 8) ≤ Nat.clog 2 (top - 10) + 1 := by
        apply Nat.clog_le_of_le_pow
        have hpow := Nat.le_pow_clog (by decide : 1 < 2) (top - 10)
        rw [pow_succ]
        omega
      simp only [if_neg (by omega : ¬ top - 10 = 0), if_neg (by omega : ¬ top - 10 = 1)]
      omega
    · obtain rfl : top = 11 := by omega
      decide
  · have hmin : min 10 top = top := min_eq_right hten
    rw [if_pos hten, hmin]
    simp

theorem locatorSize_le {bits : Nat} (h : top < 2 ^ bits) (hbits : 1 ≤ bits) :
    locatorSize top ≤ 10 + bits + 1 := by
  have hlog : Nat.clog 2 (top - min 10 top) ≤ bits :=
    Nat.clog_le_of_le_pow (le_of_lt (lt_of_le_of_lt (Nat.sub_le _ _) h))
  have hmin : min 10 top ≤ 10 := min_le_left _ _
  unfold locatorSize
  simp only
  split_ifs <;> omega

/-- The heights go down, since the walk goes further with each step. -/
theorem pairwise_locator (top : Nat) :
    ((range (locatorCount top)).map (fun index => top - backOff index) ++ [0]).Pairwise
      (· > ·) := by
  rw [pairwise_append]
  refine ⟨?_, pairwise_singleton _ _, ?_⟩
  · rw [pairwise_map]
    refine pairwise_lt_range.imp_of_mem ?_
    intro index index' hmem _ hlt
    have hback := (lt_locatorCount_iff top index).mp (mem_range.mp hmem)
    have hless := backOff_strictMono hlt
    omega
  · intro height hheight genesis hgenesis
    obtain ⟨index, hmem, rfl⟩ := mem_map.mp hheight
    have hback := (lt_locatorCount_iff top index).mp (mem_range.mp hmem)
    rw [mem_singleton.mp hgenesis]
    exact Nat.sub_pos_of_lt hback

/-- The first steps are by one. -/
theorem getElem?_locator {index : Nat} (hidx : index ≤ min 10 top) :
    ((range (locatorCount top)).map (fun index => top - backOff index) ++ [0])[index]? =
      some (top - index) := by
  have hback : backOff index = index := if_pos (le_trans hidx (min_le_left _ _))
  have htop : index ≤ top := le_trans hidx (min_le_right _ _)
  rcases lt_or_ge index top with hless | hend
  · have hcount := (lt_locatorCount_iff top index).mpr (by rw [hback]; exact hless)
    rw [getElem?_append_left (by simpa using hcount)]
    simp [hcount, hback]
  · obtain rfl : index = top := le_antisymm htop hend
    have hten : index ≤ 10 := le_trans hidx (min_le_left _ _)
    have hcount : locatorCount index = index := if_pos hten
    rw [hcount]
    simp

/-- For every top that a size can hold the locator is made in finitely many steps, and its heights
are as they should be. -/
theorem locator_heights_spec (width top : Nat) (hwidth : top < 2 ^ width) :
    (∃ heights, locatorHeights width top = some heights ∧
      heights.Pairwise (· > ·) ∧
      (0 < top → heights.head? = some top) ∧ heights.getLast? = some 0 ∧
      (∀ index ≤ min 10 top, heights[index]? = some (top - index)) ∧
      heights.length ≤ locatorSize top ∧
      (top < 2 ^ 32 → heights.length ≤ 43) ∧ (top < 2 ^ 64 → heights.length ≤ 75)) ∧
    ∀ count, (∀ index < count, ((advance width)^[index] (start top)).height > 0) →
      ((advance width)^[count] (start top)).step ≠ 0 := by
  constructor
  · have hlength : ((range (locatorCount top)).map (fun index => top - backOff index) ++
        [0]).length = locatorCount top + 1 := by simp
    have hsize := length_locator_le top
    refine ⟨_, locatorHeights_eq hwidth, pairwise_locator top, ?_, by simp, ?_, ?_, ?_, ?_⟩
    · intro _
      rw [head?_eq_getElem?]
      exact getElem?_locator (Nat.zero_le _)
    · exact fun index hindex => getElem?_locator hindex
    · rw [hlength]
      exact hsize
    · intro hbits
      rw [hlength]
      exact hsize.trans (locatorSize_le hbits (by decide))
    · intro hbits
      rw [hlength]
      exact hsize.trans (locatorSize_le hbits (by decide))
  · intro count h
    rw [iterate_advance hwidth h]
    exact ne_of_gt (Nat.two_pow_pos _)

/-- A chain of a hundred blocks on a platform of 64 bits. -/
theorem locator_heights_spec_hundred :
    (100 < 2 ^ 64) ∧ ∃ heights, locatorHeights 64 100 = some heights ∧ heights.length ≤ 43 := by
  obtain ⟨⟨heights, hheights, -, -, -, -, -, hbound, -⟩, -⟩ :=
    locator_heights_spec 64 100 (by decide)
  exact ⟨by decide, heights, hheights, hbound (by decide)⟩

example : locatorHeights 64 20 =
    some [20, 19, 18, 17, 16, 15, 14, 13, 12, 11, 10, 8, 4, 0] := by decide

/-- The step that leaves a chain at most doubles the way. -/
theorem backOff_locatorCount_le (length : Nat) : backOff (locatorCount length) ≤ 2 * length := by
  cases hcount : locatorCount length with
  | zero => exact Nat.zero_le _
  | succ count =>
    have hback := (lt_locatorCount_iff length count).mp (by omega)
    have hpow := pow_lt_of_backOff_lt hback
    rw [backOff_succ]
    omega

/-- A peer with the chain up to a fork finds the first of the heights that is not above it. Behind
that height it sends again at most as many blocks as are behind the fork. -/
theorem locator_finds_fork (width : Nat) {top fork : Nat} (hwidth : top < 2 ^ width)
    (hfork : fork ≤ top) :
    ∃ heights found, locatorHeights width top = some heights ∧
      heights.find? (· ≤ fork) = some found ∧ fork - found ≤ top - fork := by
  set count := locatorCount (top - fork)
  set heights := (range (locatorCount top)).map (fun index => top - backOff index) ++ [0]
    with hheights
  have hback : top - fork ≤ backOff count :=
    not_lt.mp ((lt_locatorCount_iff _ _).not.mp (lt_irrefl _))
  have hdouble : backOff count ≤ 2 * (top - fork) := backOff_locatorCount_le _
  have hmem : top - backOff count ∈ heights := by
    rcases lt_or_ge count (locatorCount top) with hless | hend
    · exact mem_append_left _ (mem_map.mpr ⟨count, mem_range.mpr hless, rfl⟩)
    · have hgenesis := (lt_locatorCount_iff top count).not.mp (not_lt.mpr hend)
      exact mem_append_right _ (mem_singleton.mpr (by omega))
  have hsome : (heights.find? (· ≤ fork)).isSome :=
    find?_isSome.mpr ⟨_, hmem, decide_eq_true (by omega)⟩
  obtain ⟨found, hfound⟩ := Option.isSome_iff_exists.mp hsome
  obtain ⟨hle, before, after, hsplit, hbefore⟩ := find?_eq_some_iff_append.mp hfound
  refine ⟨heights, found, locatorHeights_eq hwidth, hfound, ?_⟩
  -- the heights go down, so the first one is not below the one that is near the fork
  have hnear : top - backOff count ≤ found := by
    have hsorted := pairwise_locator top
    rw [← hheights, hsplit, pairwise_append, pairwise_cons] at hsorted
    rw [hsplit, mem_append, mem_cons] at hmem
    rcases hmem with hmem | rfl | hmem
    · have habove : fork + backOff count < top := by simpa using hbefore _ hmem
      omega
    · exact le_refl _
    · exact le_of_lt (hsorted.2.1.1 _ hmem)
  omega

/-- Of a chain of a hundred blocks a peer has the first fifty. -/
theorem locator_finds_fork_fifty :
    ∃ heights found, locatorHeights 64 100 = some heights ∧
      heights.find? (· ≤ 50) = some found ∧ 50 - found ≤ 100 - 50 :=
  locator_finds_fork 64 (by decide) (by decide)

end BitprimCore.Block
