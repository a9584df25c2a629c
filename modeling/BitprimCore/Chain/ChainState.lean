import BitprimCore.Chain.Activation
import BitprimCore.Chain.Block
import BitprimCore.Library.SlidingWindow

/-!
# Chain states

The state in which a block is validated (`chain/chain_state`): built from values that are gathered
for a height, or promoted from the state of the height below.
-/

namespace BitprimCore

namespace ChainState

/-- A number of heights ending with the highest. -/
structure Range where
  count : Nat
  high : Nat
  deriving DecidableEq, Repr

/-- The heights whose values a chain state is built from (`chain_state::map`). -/
structure Map where
  bits : Range
  bitsSelf : Nat
  version : Range
  versionSelf : Nat
  timestamp : Range
  timestampSelf : Nat
  timestampRetarget : Nat
  allowCollisionsHeight : Nat
  bip9Bit0Height : Nat
  bip9Bit1Height : Nat
  deriving DecidableEq, Repr

/-- The value was not requested. -/
def Map.unrequested : Nat := maxUint64

section

variable (currency : Currency) (height : Nat) (forks : UInt32)

/-- How many bits are read. -/
def bitsCount : Nat :=
  let testnet := isEnabled forks RuleFork.easyBlocks
  let retarget := isEnabled forks RuleFork.retarget
  let easyWork := testnet && retarget && !isRetargetHeight currency height
  if easyWork then min height currency.retargetingInterval
  else if currency = .bch then min height chainStateTimestampCount
  else 1

/-- How many versions are read. -/
def versionCount : Nat :=
  if isEnabled forks RuleFork.bip90Rule || !isEnabled forks RuleFork.bip34Activations then 0
  else
    let testnet := isEnabled forks RuleFork.easyBlocks
    let retarget := isEnabled forks RuleFork.retarget
    min height (versionSampleSize (retarget && !testnet))

/-- How many timestamps are read. -/
def timestampCount : Nat :=
  min height (if currency = .bch then chainStateTimestampCount else medianTimePastInterval)

/-- If it is not a retarget height the most recent one, so that its timestamp may be promoted. -/
def retargetHeight : Nat :=
  if !isEnabled forks RuleFork.retarget then Map.unrequested
  else height - if isRetargetHeight currency height then currency.retargetingInterval
    else retargetDistance currency height

/-- The checkpoint height of the network. -/
def activationHeight (checkpoints : ActiveCheckpoints) : Nat :=
  let testnet := isEnabled forks RuleFork.easyBlocks
  let regtest := !isEnabled forks RuleFork.retarget
  if testnet then checkpoints.testnet.height
  else if regtest then checkpoints.regtest.height
  else checkpoints.mainnet.height

/-- Unlike for the other rules there is no case for regtest, which takes the height of mainnet. -/
def bip9Bit1ActivationHeight : Nat :=
  let testnet := isEnabled forks RuleFork.easyBlocks
  let checkpoints := currency.bip9Bit1ActiveCheckpoints
  if testnet then checkpoints.testnet.height else checkpoints.mainnet.height

/-- An activation height is requested above it. -/
def requestAbove (activationHeight : Nat) : Nat :=
  if height > activationHeight then activationHeight else Map.unrequested

def collisionHeight : Nat :=
  requestAbove height (activationHeight forks currency.bip34ActiveCheckpoints)

def bip9Bit0Height : Nat :=
  requestAbove height (activationHeight forks currency.bip9Bit0ActiveCheckpoints)

def bip9Bit1Height : Nat :=
  if currency = .bch then Map.unrequested
  else requestAbove height (bip9Bit1ActivationHeight currency forks)

/-- The heights whose values are needed. The checkpoints of the configuration are not used. -/
def getMap : Map :=
  if height = 0 then ⟨⟨0, 0⟩, 0, ⟨0, 0⟩, 0, ⟨0, 0⟩, 0, 0, 0, 0, 0⟩
  else
    { bitsSelf := height
      bits := ⟨bitsCount currency height forks, height - 1⟩
      timestampSelf := height
      timestamp := ⟨timestampCount currency height, height - 1⟩
      versionSelf := height
      version := ⟨versionCount height forks, height - 1⟩
      timestampRetarget := retargetHeight currency height forks
      allowCollisionsHeight := collisionHeight currency height forks
      bip9Bit0Height := bip9Bit0Height currency height forks
      bip9Bit1Height := bip9Bit1Height currency height forks }

end

/-- The version that a new block signals. -/
def signalVersion (forks : UInt32) : UInt32 :=
  if isEnabled forks RuleFork.bip65Rule then bip65Version
  else if isEnabled forks RuleFork.bip66Rule then bip66Version
  else if isEnabled forks RuleFork.bip34Rule then bip34Version
  else if isEnabled forks RuleFork.bip9Bit0Group then bip9VersionBase ||| bip9VersionBit0
  else if isEnabled forks RuleFork.bip9Bit1Group then bip9VersionBase ||| bip9VersionBit1
  else firstVersion

namespace Data

open SlidingWindow

variable (currency : Currency) (hashes : Hashes) (forks : UInt32)

/-- Promotion from a height to the next: each queue takes the value of the block and drops its oldest
if it holds more than requested. Only the height and version are those of a new block. The `ltc`
build keeps the timestamp below the one of the retarget height. -/
def toPool (top : Data) : Option Data := do
  let retarget := isEnabled forks RuleFork.retarget
  let height := (top.height + 1) % 2 ^ 64
  let timestampOrdered :=
    enqueue top.timestampOrdered top.timestampSelf (timestampCount currency height)
  let timestampRetarget ←
    if retarget && isRetargetHeight currency (decrement height) then
      match currency with
      | .ltc =>
        if timestampOrdered.length < 2 then none else timestampOrdered[timestampOrdered.length - 2]?
      | .btc | .bch => some top.timestampSelf
    else some top.timestampRetarget
  return { top with
    height
    hash := nullHash
    bitsSelf := currency.workLimit retarget
    bitsOrdered := enqueue top.bitsOrdered top.bitsSelf (bitsCount currency height forks)
    versionSelf := signalVersion forks
    versionOrdered := enqueue top.versionOrdered top.versionSelf (versionCount height forks)
    timestampSelf := 0xffffffff
    timestampRetarget
    timestampOrdered }

/-- Put the header in the place of the pool values, and keep its hash at a checkpoint height. -/
def withHeader (pool : Data) (header : Header) : Data :=
  let network := Configuration.ofForks forks
  let hash := header.hash hashes
  { pool with
    hash
    bitsSelf := header.bits
    versionSelf := header.version
    timestampSelf := header.timestamp
    allowCollisionsHash :=
      if allowCollisionsAtHeight currency network.mainnet network.testnet pool.height then hash
      else pool.allowCollisionsHash
    bip9Bit0Hash :=
      if bip9Bit0ActiveAtHeight currency network.mainnet network.testnet pool.height then hash
      else pool.bip9Bit0Hash
    bip9Bit1Hash :=
      if bip9Bit1ActiveAtHeight currency network.mainnet network.testnet pool.height then hash
      else pool.bip9Bit1Hash }

/-- A block on top of the pool. -/
def toBlock (pool : Data) (block : Block) : Data :=
  pool.withHeader currency hashes forks block.header

/-- A header on its parent. -/
def toHeader (parent : Data) (header : Header) : Option Data :=
  (parent.toPool currency forks).map fun pool => pool.withHeader currency hashes forks header

end Data

end ChainState

/-- A chain state holds its values, its configuration and what is computed from them. -/
structure ChainState where
  data : ChainState.Data
  forks : UInt32
  checkpoints : List Checkpoint
  activationTimes : ChainState.ActivationTimes
  active : ChainState.Activations
  medianTimePast : UInt32
  workRequired : UInt32

namespace ChainState

section

variable (currency : Currency) (hashes : Hashes)

/-- What all constructors compute from the values. -/
def construct (data : Data) (forks : UInt32) (checkpoints : List Checkpoint)
    (activationTimes : ActivationTimes) : Option ChainState := do
  let workRequired ← data.workRequired currency forks
  return {
    data
    forks
    checkpoints
    activationTimes
    active := data.activation currency activationTimes forks
    medianTimePast := data.medianTimePast currency true
    workRequired }

/-- From raw values; the `allow_collisions` rule is not configurable. -/
def ofData (data : Data) (checkpoints : List Checkpoint) (forks : UInt32)
    (activationTimes : ActivationTimes) : Option ChainState :=
  construct currency data (forks ||| RuleFork.allowCollisions) checkpoints activationTimes

/-- From the top to the pool above it. -/
def ofTop (top : ChainState) : Option ChainState := do
  let data ← top.data.toPool currency top.forks
  construct currency data top.forks top.checkpoints top.activationTimes

/-- From the pool to a block of the same height. -/
def ofPool (pool : ChainState) (block : Block) : Option ChainState :=
  construct currency (pool.data.toBlock currency hashes pool.forks block) pool.forks pool.checkpoints
    pool.activationTimes

/-- From the state of the previous block to a header. -/
def ofParent (parent : ChainState) (header : Header) : Option ChainState := do
  let data ← parent.data.toHeader currency hashes parent.forks header
  construct currency data parent.forks parent.checkpoints parent.activationTimes

end

variable (state : ChainState)

def height : Nat := state.data.height

def enabledForks : UInt32 := state.active.forks

def minimumVersion : UInt32 := state.active.minimumVersion

/-- Is the rule active for this block? -/
def isForkEnabled (fork : UInt32) : Bool := isEnabled state.active.forks fork

/-- A checkpoint has another hash. -/
def isCheckpointConflict (hash : HashDigest) : Bool :=
  !Checkpoint.validate hash state.data.height state.checkpoints

/-- At or below the last checkpoint. -/
def isUnderCheckpoint : Bool := Checkpoint.covered state.data.height state.checkpoints

/-- By the height. -/
def isMonolithActive : Bool := isMonolithEnabled state.height state.enabledForks

/-- By the median time. -/
def isMagneticAnomalyEnabled : Bool :=
  isMtpActivated state.medianTimePast state.activationTimes.magneticAnomaly.toUInt32

end ChainState

end BitprimCore
