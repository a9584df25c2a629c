import BitprimCore.Chain.Header
import BitprimCore.Config.Checkpoint
import BitprimCore.Machine.RuleFork
import BitprimCore.Math.Limits
import Mathlib.Data.List.Sort

/-!
# Median time past and required work

The values from which a chain state is computed, and the two results that depend on past headers
only: the median time past and the work that a block at the height must claim
(`chain/chain_state`).

## Implementation notes

An access outside a queue is undefined in the source, and a division by zero throws; both are
`none` here. The assertions of the source are not checks of a release build and are left out.
-/

namespace BitprimCore.ChainState

/-- The values at a height (`chain_state::data`). The ordered values are ordered by height, with
the height below last. -/
structure Data where
  height : Nat
  /-- The hash of the candidate block, or the null hash for the memory pool. -/
  hash : HashDigest
  allowCollisionsHash : HashDigest
  bip9Bit0Hash : HashDigest
  bip9Bit1Hash : HashDigest
  bitsSelf : UInt32
  bitsOrdered : List UInt32
  versionSelf : UInt32
  versionOrdered : List UInt32
  timestampSelf : UInt32
  timestampRetarget : UInt32
  timestampOrdered : List UInt32
  deriving DecidableEq

variable (height : Nat) (forks : UInt32)

/-- The height below, in 64 bits. -/
def decrement : Nat := (height + (2 ^ 64 - 1)) % 2 ^ 64

section

variable (currency : Currency)

/-- The number of blocks back to the closest retarget height. -/
def retargetDistance (height : Nat) : Nat := height % currency.retargetingInterval

/-- The first height of a period. -/
def isRetargetHeight (height : Nat) : Bool := retargetDistance currency height == 0

/-- A retarget height, or a block that does not claim the limit. -/
def isRetargetOrNonLimit (height : Nat) (bits : UInt32) : Bool :=
  bits != currency.retargetProofOfWorkLimit || isRetargetHeight currency height

end

/-- Regtest activates at the first block. -/
def isRuleEnabled (mainnetHeight testnetHeight : Nat) : Bool :=
  let testnet := isEnabled forks RuleFork.easyBlocks
  let retarget := isEnabled forks RuleFork.retarget
  if !retarget && !testnet then true
  else decide (height > if testnet then testnetHeight else mainnetHeight)

/-- The fork from Bitcoin. -/
def isUahfEnabled : Bool :=
  isRuleEnabled height forks mainnetUahfActiveHeight testnetUahfActiveHeight

/-- Work by 144 blocks. -/
def isDaaEnabled : Bool := isRuleEnabled height forks mainnetDaaActiveHeight testnetDaaActiveHeight

/-- The fork of May 2018. -/
def isMonolithEnabled : Bool :=
  isRuleEnabled height forks mainnetMonolithActiveHeight testnetMonolithActiveHeight

/-- The median of three values by the second component, not stable (`select_1_3`). -/
def selectMedian (a b c : Nat × UInt32) : Nat × UInt32 :=
  let less (x y : Nat × UInt32) : Bool := decide (x.2 < y.2)
  let selectOrdered (a b c : Nat × UInt32) : Nat × UInt32 :=
    if less b a then a else if less c b then c else b
  if less c a then selectOrdered c b a else selectOrdered a b c

/-- The first of the timestamps that count; without `tip` six blocks are left out at the end. -/
def timestampsPosition (currency : Currency) (times : List UInt32) (tip : Bool) : Nat :=
  if currency = .bch && tip && decide (times.length ≥ bitcoinCashOffsetTip) then
    bitcoinCashOffsetTip
  else if currency = .bch && !tip && decide (times.length ≥ bitcoinCashOffsetTipMinus6) then
    bitcoinCashOffsetTipMinus6
  else if times.length > 11 then times.length - 11
  else 0

/-- At most eleven timestamps. -/
def timestampsSubset (currency : Currency) (times : List UInt32) (tip : Bool) : List UInt32 :=
  (times.drop (timestampsPosition currency times tip)).take medianTimePastInterval

/-- The values that `cash_difficulty_adjustment` computes before the target. -/
structure CashAdjustment where
  first : Nat × UInt32
  last : Nat × UInt32
  bits : List UInt32
  timespan : Nat
  work : Nat
  deriving DecidableEq

namespace Data

variable (currency : Currency) (values : Data)

/-- The element in the middle of the sorted timestamps, not the mean of two of them. -/
def medianTimePast (tip : Bool) : UInt32 :=
  let subset := (timestampsSubset currency values.timestampOrdered tip).insertionSort (· ≤ ·)
  (subset[subset.length / 2]?).getD 0

/-- The previous timestamp. -/
def timestampHigh : Option UInt32 := values.timestampOrdered.getLast?

/-- The previous bits. -/
def bitsHigh : Option UInt32 := values.bitsOrdered.getLast?

/-- The bounded time that the highest 2016 blocks span, in signed arithmetic of 64 bits. -/
def retargetTimespan : Option Nat := do
  let high ← values.timestampHigh
  let timespan : Int := (high.toNat : Int) - values.timestampRetarget.toNat
  return (rangeConstrain timespan currency.minTimespan currency.maxTimespan).toNat

/-- The normal form of a target that is not above the limit. -/
def normalTarget (target powLimit : Nat) : UInt32 :=
  if target > powLimit then currency.retargetProofOfWorkLimit else (Compact.ofBig target).normal

/-- The target scaled by the time it took to find the last 2016 blocks. The `ltc` build keeps one
bit of room in the product, and its limit is not the one in compact form. -/
def workRequiredRetarget : Option UInt32 := do
  let bits := Compact.ofUInt32 (← values.bitsHigh)
  let timespan ← values.retargetTimespan currency
  match currency with
  | .ltc =>
    let powLimit := 2 ^ 236 - 1
    let shift := decide (bits.big > 2 ^ 236 - 1)
    let target := if shift then bits.big >>> 1 else bits.big
    let target := target * timespan % 2 ^ 256 / currency.targetTimespanSeconds
    let target := if shift then (target <<< 1) % 2 ^ 256 else target
    return normalTarget currency target powLimit
  | .btc | .bch =>
    let powLimit := (Compact.ofUInt32 currency.retargetProofOfWorkLimit).big
    let target := bits.big * timespan % 2 ^ 256 / currency.targetTimespanSeconds
    return normalTarget currency target powLimit

/-- The target raised by a quarter when blocks are rare. -/
def workRequiredAdjustCash : Option UInt32 := do
  let target := (Compact.ofUInt32 (← values.bitsHigh)).big
  let target := (target + (target >>> 2)) % 2 ^ 256
  return normalTarget currency target (Compact.ofUInt32 currency.retargetProofOfWorkLimit).big

/-- The work between two of the last blocks, over the time it took. The time is a difference of 32
bits before it is bounded. -/
def cashAdjustment : Option CashAdjustment := do
  let size := values.bitsOrdered.length
  let block (back index : Nat) : Option (Nat × UInt32) :=
    (values.timestampOrdered[index]?).map fun time => ((size + (2 ^ 64 - back)) % 2 ^ 64, time)
  let first := selectMedian (← block 3 144) (← block 2 145) (← block 1 146)
  let last := selectMedian (← block 147 0) (← block 146 1) (← block 145 2)
  let start := (last.1 + 1) % 2 ^ 64
  let bits ← (List.range' start (first.1 + 1 - start)).mapM fun i => values.bitsOrdered[i]?
  let work := (bits.map Header.proof).foldl (fun total proof => (total + proof) % 2 ^ 256) 0
  let work := work * currency.targetSpacingSeconds % 2 ^ 256
  let timespan := (first.2 - last.2).toNat
  let timespan :=
    if timespan > 288 * currency.targetSpacingSeconds then 288 * currency.targetSpacingSeconds
    else if timespan < 72 * currency.targetSpacingSeconds then 72 * currency.targetSpacingSeconds
    else timespan
  return { first, last, bits, timespan, work := work / timespan }

/-- The target of the work done in the time (`cash_difficulty_adjustment`). -/
def cashDifficultyAdjustment : Option UInt32 := do
  let steps ← values.cashAdjustment currency
  if steps.work = 0 then none
  else
    let nextTarget := (2 ^ 256 - steps.work) / steps.work
    return normalTarget currency nextTarget (Compact.ofUInt32 currency.retargetProofOfWorkLimit).big

/-- The time above which a block may claim the limit, constrained to 32 bits. -/
def easyTimeLimit : Option UInt32 := do
  let high ← values.timestampHigh
  return domainConstrain32 ((high.toNat : Int) + currency.easySpacingSeconds)

/-- Search the bits below a height, highest first, for a block that does not claim the limit or is
at a retarget height. -/
def easyBits : (height : Nat) → (reversed : List UInt32) → Option UInt32
  | _, [] => none
  | height, bits :: rest =>
    let height := decrement height
    if isRetargetOrNonLimit currency height bits then some bits else easyBits height rest

/-- A late block may claim the limit. -/
def easyWorkRequired (daaActive : Bool) : Option UInt32 := do
  if values.timestampSelf > (← values.easyTimeLimit currency) then
    return currency.retargetProofOfWorkLimit
  else if daaActive then values.cashDifficultyAdjustment currency
  else
    return (easyBits currency values.height values.bitsOrdered.reverse).getD
      currency.retargetProofOfWorkLimit

/-- The bits the block must have. -/
def workRequired (forks : UInt32) : Option UInt32 :=
  if values.height = 0 then some 0
  else if !isEnabled forks RuleFork.retarget then values.bitsHigh
  else
    let daaActive := decide (currency = .bch) && isDaaEnabled values.height forks
    if isRetargetHeight currency values.height && !daaActive then
      values.workRequiredRetarget currency
    else if isEnabled forks RuleFork.easyBlocks then values.easyWorkRequired currency daaActive
    else if decide (currency = .bch) && isUahfEnabled values.height forks then
      if isDaaEnabled values.height forks then values.cashDifficultyAdjustment currency
      else if values.medianTimePast currency true - values.medianTimePast currency false > 12 * 3600
      then values.workRequiredAdjustCash currency
      else values.bitsHigh
    else values.bitsHigh

end Data

end BitprimCore.ChainState
