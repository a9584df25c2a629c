import BitprimCore.Chain.Acceptance
import BitprimCore.Chain.PromotionRuns
import BitprimCore.Library.OrderStatistic

/-!
# Median time past

The median time past of a state is the median of the timestamps of the last eleven blocks. Along a
chain of accepted headers it does not decrease, so the time since an earlier block of the chain is a
true difference.

The `bch` build keeps more timestamps and selects eleven of them by a fixed offset. The offset is
right when the queue is full and is not used when the queue is short. In between the median is
taken over too few timestamps.
-/

namespace BitprimCore

open List Option

variable {time time' : UInt32} {height height' : Nat}

theorem Transaction.isFinal_mono {tx : Transaction} (hheight : height ≤ height')
    (hmax : height' < 2 ^ 32) (htime : time ≤ time') (h : tx.isFinal height time = some true) :
    tx.isFinal height' time' = some true := by
  have hsafe : ∀ {height : Nat}, height < 2 ^ 32 →
      safeUnsigned32 height = some (UInt32.ofNat height) :=
    fun h => if_neg (Nat.not_lt.mpr (Nat.le_pred_of_lt h))
  have hlow := hheight.trans_lt hmax
  unfold isFinal at h ⊢
  rw [hsafe hmax]
  rw [hsafe hlow] at h
  split_ifs at h ⊢
  · rfl
  all_goals
    simp only [Option.pure_def, bind_eq_bind, bind_some, some.injEq, Bool.or_eq_true,
      decide_eq_true_eq] at h ⊢
    refine h.imp_left fun hlt => UInt32.lt_of_lt_of_le hlt ?_
  · exact (UInt32.ofNat_le_iff_le hlow hmax).mpr hheight
  · exact htime

theorem Input.isLocked_anti {input : Input}
    (hblock : input.previousOutput.validation.height ≤ height) (hheight : height ≤ height')
    (hmax : height' < 2 ^ 64) (hpast : input.previousOutput.validation.medianTimePast ≤ time)
    (htime : time ≤ time') (h : input.isLocked height time = false) :
    input.isLocked height' time' = false := by
  unfold isLocked at h ⊢
  split_ifs at h ⊢
  · rfl
  · simp only [decide_eq_false_iff_not, UInt32.not_lt, UInt32.le_iff_toNat_le,
      UInt32.toNat_sub_of_le _ _ hpast,
      UInt32.toNat_sub_of_le _ _ (UInt32.le_trans hpast htime)] at h ⊢
    rw [UInt32.le_iff_toNat_le] at htime
    omega
  · simp only [decide_eq_false_iff_not] at h ⊢
    omega

namespace ChainState

open SlidingWindow OrderStatistic

section

variable (chain : Nat → Header)

/-- The median of the timestamps of so many blocks below a height, or zero if there are none. -/
def medianOf (height count : Nat) : UInt32 :=
  (median (· ≤ ·) (window (fun height => (chain height).timestamp) height count)).getD 0

theorem medianTime_eq (height : Nat) :
    medianTime chain height = medianOf chain height (min height 11) := by
  simp only [medianTime, medianOf, median, select, length_insertionSort]

theorem medianTimePast_eq_medianOf {currency : Currency} {data : Data} {height count : Nat}
    (h : timestampsSubset currency data.timestampOrdered true =
      window (fun height => (chain height).timestamp) height count) :
    data.medianTimePast currency true = medianOf chain height count := by
  simp only [Data.medianTimePast, h, medianOf, median, select, length_insertionSort]

end

section

variable {chain : Nat → Header} {stage : Stage} {height : Nat} {state : ChainState}

/-- The number of timestamps that are selected from a queue of the `bch` build. -/
def selectedCount (count : Nat) : Nat := if 136 ≤ count then count - 136 else min count 11

theorem timestampsSubset_bch {times : Nat → UInt32} {count : Nat} (hle : count ≤ height)
    (hcount : count ≤ 147) :
    timestampsSubset .bch (window times height count) true =
      window times height (selectedCount count) := by
  have htake : ∀ {selected}, selected ≤ 11 →
      (window times height selected).take medianTimePastInterval = window times height selected := by
    intro selected hselected
    exact take_of_length_le (by rwa [length_window])
  simp only [timestampsSubset, timestampsPosition, length_window, decide_true, Bool.true_and,
    decide_eq_true_eq, Bool.not_true, Bool.false_and, Bool.false_eq_true, if_false,
    bitcoinCashOffsetTip, selectedCount]
  split_ifs with hfull hlong
  · rw [drop_window times hle, htake (by omega)]
  · rw [drop_window times hle, htake (by omega)]
    congr 1
    omega
  · rw [drop_zero, htake (by omega)]
    congr 1
    omega

theorem Timed.medianTimePast_bch (h : Timed .bch chain stage height state) :
    state.medianTimePast = medianOf chain height (selectedCount (min height 147)) := by
  rw [h.medianTimePast]
  apply medianTimePast_eq_medianOf
  rw [h.timestamps]
  exact timestampsSubset_bch (min_le_left _ _) (min_le_right _ _)

theorem selectedCount_eq_iff {height : Nat} :
    selectedCount (min height 147) = min height 11 ↔ height < 136 ∨ 147 ≤ height := by
  unfold selectedCount
  split <;> omega

/-- A state of the `bch` build can be built from scratch where nothing is configured. -/
theorem exists_fromScratch_bch (hashes : Hashes) (chain : Nat → Header) {height : Nat}
    (hpos : 0 < height) : ∃ state, fromScratch .bch hashes chain 0 [] 0 {} height = some state := by
  have hbits : (gather hashes chain 0 height (getMap .bch height 0)).bitsHigh =
      some (chain (height - 1)).bits := by
    have hcount : bitsCount .bch height 0 = min height chainStateTimestampCount := rfl
    have hbelow : height - 1 + 1 = height := Nat.sub_add_cancel hpos
    simp only [Data.bitsHigh, gather, getMap, if_neg hpos.ne', hcount, hbelow]
    refine getLast?_window _ ?_ (Nat.min_le_left _ _)
    exact Nat.lt_min.mpr ⟨hpos, by decide⟩
  have hwork : (gather hashes chain 0 height (getMap .bch height 0)).workRequired .bch
      (0 ||| RuleFork.allowCollisions) = some (chain (height - 1)).bits := by
    have hheight : (gather hashes chain 0 height (getMap .bch height 0)).height ≠ 0 := hpos.ne'
    rw [Data.workRequired, if_neg hheight, if_pos (by decide), hbits]
  simp only [fromScratch, ofData, construct, hwork, Option.bind_eq_bind, Option.bind_some,
    Option.pure_def]
  exact ⟨_, rfl⟩

/-- A chain whose timestamps are its heights. -/
def heightChain (height : Nat) : Header where
  version := 4
  previousBlockHash := nullHash
  merkle := nullHash
  timestamp := UInt32.ofNat height
  bits := 0x1d00ffff
  nonce := 0

theorem medianOf_heightChain_ne (height : Nat) (hlow : 136 ≤ height) (hhigh : height < 147) :
    medianOf heightChain height (selectedCount (min height 147)) ≠ medianTime heightChain height := by
  have htable : ∀ offset : Fin 11,
      medianOf heightChain (136 + offset) (selectedCount (min (136 + offset) 147)) ≠
        medianTime heightChain (136 + offset) := by
    decide +kernel
  have hheight : 136 + (height - 136) = height := by omega
  have hne := htable ⟨height - 136, by omega⟩
  rwa [hheight] at hne

/-- The median time past of the `bch` build is that of the last eleven blocks, on every chain and in
every state reached, for just the heights whose queue is full or short enough. At the others the
median is taken over the blocks from height 136 on. -/
theorem medianTimePast_bch_iff (height : Nat) (hpos : 1 ≤ height) (hlt : height < 2 ^ 64) :
    ((∀ hashes chain unspecified checkpoints forks times start stage state, start < 2 ^ 64 →
        Reached .bch hashes chain unspecified checkpoints forks times start stage height state →
        state.medianTimePast = medianTime chain height) ↔ height < 136 ∨ 147 ≤ height) ∧
      (136 ≤ height → height < 147 →
        ∀ hashes chain unspecified checkpoints forks times start stage state, start < 2 ^ 64 →
          Reached .bch hashes chain unspecified checkpoints forks times start stage height state →
          state.medianTimePast = medianOf chain height (height - 136)) := by
  refine ⟨⟨?_, ?_⟩, ?_⟩
  · intro hright
    by_contra hbetween
    obtain ⟨state, hstate⟩ := exists_fromScratch_bch .ofSha256 heightChain hpos
    have hreached : Reached .bch .ofSha256 heightChain 0 [] 0 {} height .block height state :=
      .scratch hstate
    have hmedian := hright _ _ _ _ _ _ _ _ _ hlt hreached
    rw [(hreached.timed hlt).medianTimePast_bch] at hmedian
    exact medianOf_heightChain_ne height (by omega) (by omega) hmedian
  · intro hheight hashes chain unspecified checkpoints forks times start stage state hstart hreached
    rw [(hreached.timed hstart).medianTimePast_bch, selectedCount_eq_iff.mpr hheight, medianTime_eq]
  · intro hlow hhigh hashes chain unspecified checkpoints forks times start stage state hstart
      hreached
    have hcount : selectedCount (min height 147) = height - 136 := by
      unfold selectedCount
      split <;> omega
    rw [(hreached.timed hstart).medianTimePast_bch, hcount]

/-- The theorem at the first height with a full queue, for a state built from scratch. -/
theorem medianTimePast_bch_full :
    ∃ state, fromScratch .bch .ofSha256 heightChain 0 [] 0 {} 147 = some state ∧
      state.medianTimePast = medianTime heightChain 147 := by
  obtain ⟨state, hstate⟩ := exists_fromScratch_bch .ofSha256 heightChain (show 0 < 147 by decide)
  refine ⟨state, hstate, ?_⟩
  exact (medianTimePast_bch_iff 147 (by decide) (by decide)).1.mpr (.inr (by decide)) .ofSha256
    heightChain 0 [] 0 {} 147 .block state (by decide) (.scratch hstate)

/-- At height 136 no timestamp is selected. -/
theorem medianTimePast_bch_zero :
    ∃ state, fromScratch .bch .ofSha256 heightChain 0 [] 0 {} 136 = some state ∧
      state.medianTimePast = 0 ∧ medianTime heightChain 136 = 130 := by
  obtain ⟨state, hstate⟩ := exists_fromScratch_bch .ofSha256 heightChain (show 0 < 136 by decide)
  refine ⟨state, hstate, ?_, by decide +kernel⟩
  have htimed := Reached.timed (show 136 < 2 ^ 64 by decide) (.scratch hstate)
  rw [htimed.medianTimePast_bch]
  rfl

end

section

variable {chain : Nat → Header} {stage : Stage} {height : Nat} {state : ChainState}

theorem Timed.medianTimePast_btc (h : Timed .btc chain stage height state) :
    state.medianTimePast = medianTime chain height := by
  have hcount : timestampCount .btc height = min height 11 := rfl
  rw [h.medianTimePast, medianTime_eq]
  apply medianTimePast_eq_medianOf
  rw [h.timestamps, hcount]
  have hle : min height 11 ≤ 11 := min_le_right _ _
  simp only [timestampsSubset, timestampsPosition, length_window, reduceCtorEq, decide_false,
    Bool.false_and, Bool.false_eq_true, if_false, if_neg (not_lt.mpr hle), drop_zero]
  exact take_of_length_le (by rwa [length_window])

/-- A block not before the median time of its height does not lower the median time of the next. -/
theorem medianTime_le_succ (hpos : 0 < height)
    (htime : medianTime chain height ≤ (chain height).timestamp) :
    medianTime chain height ≤ medianTime chain (height + 1) := by
  have hne : ∀ {stop}, 0 < stop →
      window (fun height => (chain height).timestamp) stop (min stop 11) ≠ [] := by
    intro stop hstop hnil
    have hlen := congrArg length hnil
    rw [length_window, length_nil] at hlen
    omega
  obtain ⟨m, hm⟩ := exists_median (r := (· ≤ ·)) (hne hpos)
  obtain ⟨m', hm'⟩ := exists_median (r := (· ≤ ·)) (hne (Nat.succ_pos height))
  have hmedian : medianTime chain height = m := by rw [medianTime_eq, medianOf, hm, getD_some]
  have hmedian' : medianTime chain (height + 1) = m' := by
    rw [medianTime_eq, medianOf, hm', getD_some]
  rw [hmedian] at htime ⊢
  rw [hmedian']
  have hwindow := enqueue_timestamps .btc chain height
  exact median_le_median_enqueue hm (hwindow ▸ hm') htime

/-- A header accepted above all checkpoints is later than the median time past. -/
theorem medianTimePast_lt_of_accept {hashes : Hashes} {header : Header}
    (hunder : state.isUnderCheckpoint = false) (h : header.accept hashes state = .success) :
    state.medianTimePast < header.timestamp := by
  simp only [Header.accept, hunder, Bool.false_eq_true, if_false] at h
  split_ifs at h with hbits hconflict hver htime
  exact UInt32.not_le.mp htime

section

variable (hashes : Hashes) (chain : Nat → Header) (unspecified : UInt32)
  (checkpoints : List Checkpoint) (forks : UInt32) (times : ActivationTimes) (start : Nat)

/-- The header at a height is accepted against the state of its height, above all checkpoints. -/
def AcceptedAt (height : Nat) : Prop :=
  ∃ state, Reached .btc hashes chain unspecified checkpoints forks times start .block height state ∧
    state.isUnderCheckpoint = false ∧ (chain height).accept hashes state = .success

variable {hashes chain unspecified checkpoints forks times start}

theorem Reached.start_le {currency : Currency}
    (h : Reached currency hashes chain unspecified checkpoints forks times start stage height state) :
    start ≤ height := by
  induction h with
  | scratch _ => exact le_refl start
  | toPool _ _ _ ih => exact Nat.le_succ_of_le ih
  | toBlock _ _ _ ih => exact ih
  | toHeader _ _ _ ih => exact Nat.le_succ_of_le ih

theorem medianTime_le_of_accepted {low high : Nat} (hlt : start < 2 ^ 64) (hpos : 1 ≤ low)
    (hle : low ≤ high) (hacc : ∀ height, low ≤ height → height < high →
      AcceptedAt hashes chain unspecified checkpoints forks times start height) :
    medianTime chain low ≤ medianTime chain high := by
  induction high, hle using Nat.le_induction with
  | base => exact UInt32.le_refl _
  | succ high hle ih =>
    have hbelow := ih fun height hlow hhigh => hacc height hlow (Nat.lt_succ_of_lt hhigh)
    obtain ⟨state, hreached, hunder, haccept⟩ := hacc high hle (Nat.lt_succ_self high)
    have htime := medianTimePast_lt_of_accept hunder haccept
    rw [(hreached.timed hlt).medianTimePast_btc] at htime
    exact UInt32.le_trans hbelow (medianTime_le_succ (by omega) (UInt32.le_of_lt htime))

end

/-- Along a chain of accepted headers the median time past does not decrease, and the time since an
output was confirmed on the chain is a true difference. -/
theorem medianTimePast_mono (hashes : Hashes) (chain : Nat → Header) (unspecified : UInt32)
    (checkpoints : List Checkpoint) (forks : UInt32) (times : ActivationTimes) (start top : Nat)
    (hpos : 1 ≤ start) (hlt : start < 2 ^ 64)
    (haccepted : ∀ height, start ≤ height → height < top →
      AcceptedAt hashes chain unspecified checkpoints forks times start height) :
    ∀ low high stage stage' state state', low ≤ high → high ≤ top →
      Reached .btc hashes chain unspecified checkpoints forks times start stage low state →
      Reached .btc hashes chain unspecified checkpoints forks times start stage' high state' →
      state.medianTimePast ≤ state'.medianTimePast ∧
      ∀ input : Input, input.previousOutput.validation.medianTimePast = state.medianTimePast →
        input.previousOutput.validation.medianTimePast ≤ state'.medianTimePast ∧
        (state'.medianTimePast - input.previousOutput.validation.medianTimePast).toNat =
          state'.medianTimePast.toNat - input.previousOutput.validation.medianTimePast.toNat := by
  intro low high stage stage' state state' hle htop hlow hhigh
  have hstart := hlow.start_le
  have hmono : state.medianTimePast ≤ state'.medianTimePast := by
    rw [(hlow.timed hlt).medianTimePast_btc, (hhigh.timed hlt).medianTimePast_btc]
    apply medianTime_le_of_accepted hlt (hpos.trans hstart) hle
    intro height hlower hupper
    exact haccepted height (hstart.trans hlower) (hupper.trans_le htop)
  refine ⟨hmono, ?_⟩
  intro input hprevout
  rw [hprevout]
  exact ⟨hmono, UInt32.toNat_sub_of_le _ _ hmono⟩

/-- The chain whose timestamps are its heights is accepted at its first height. -/
theorem acceptedAt_heightChain : AcceptedAt .ofSha256 heightChain 0 [] 0 {} 1 1 := by
  obtain ⟨state, hstate, hfollows, hdata⟩ := fromScratch_follows .ofSha256 heightChain 0 0 [] {}
    (show 0 < 1 by decide) (by decide)
  have hreached : Reached .btc .ofSha256 heightChain 0 [] 0 {} 1 .block 1 state := .scratch hstate
  have hbuilt := constructed_of_construct hfollows.constructed
  have hwork : state.workRequired = 0x1d00ffff := hfollows.workRequired (by decide) (by decide)
  have hver : state.minimumVersion = 1 := by
    rw [ChainState.minimumVersion, hbuilt.active_eq, hdata]
    decide +kernel
  have htime : state.medianTimePast = 0 := by
    rw [(hreached.timed (by decide)).medianTimePast_btc]
    decide +kernel
  have hcovered : state.isUnderCheckpoint = false := by
    rw [isUnderCheckpoint, hbuilt.checkpoints_eq]
    rfl
  have hconflict : state.isCheckpointConflict ((heightChain 1).hash .ofSha256) = false := by
    rw [isCheckpointConflict, hbuilt.checkpoints_eq]
    rfl
  refine ⟨state, hreached, hcovered, ?_⟩
  rw [Header.accept, hwork, hconflict, hcovered, hver, htime]
  rfl

/-- The first two states over that chain. -/
theorem medianTimePast_mono_heightChain :
    ∃ state state',
      fromScratch .btc .ofSha256 heightChain 0 [] 0 {} 1 = some state ∧
      ofParent .btc .ofSha256 state (heightChain 2) = some state' ∧
      state.medianTimePast ≤ state'.medianTimePast := by
  obtain ⟨state, hstate, -⟩ := fromScratch_follows .ofSha256 heightChain 0 0 [] {}
    (show 0 < 1 by decide) (by decide)
  have hreached : Reached .btc .ofSha256 heightChain 0 [] 0 {} 1 .block 1 state := .scratch hstate
  obtain ⟨state', hnext⟩ := (hreached.sound (by decide)).exists_ofParent (by decide)
  refine ⟨state, state', hstate, hnext, ?_⟩
  refine (medianTimePast_mono .ofSha256 heightChain 0 [] 0 {} 1 2 (by decide) (by decide) ?_ 1 2
    .block .block state state' (by decide) (by decide) hreached
    (.toHeader hreached (by decide) hnext)).1
  intro height hlow hhigh
  obtain rfl : height = 1 := by omega
  exact acceptedAt_heightChain

end

end ChainState

end BitprimCore
