import BitprimCore.Chain.WorkRequired

/-!
# Rule activation

Which rules are active at a height and which block version is required, from the versions of past
blocks, frozen heights and the hashes at activation checkpoints (`chain/chain_state`).
-/

namespace BitprimCore.ChainState

open RuleFork

/-- The rules that are active and the block version that is required. -/
structure Activations where
  forks : UInt32
  minimumVersion : UInt32
  deriving DecidableEq, Repr

/-- The times at which rules of the `bch` build activate. -/
structure ActivationTimes where
  magneticAnomaly : UInt64 := 1542300000
  greatWall : UInt64 := 1557921600
  deriving DecidableEq, Repr

/-- Activation by median time past. -/
def isMtpActivated (medianTimePast activationTime : UInt32) : Bool :=
  decide (medianTimePast ≥ activationTime)

def versionSampleSize (mainnet : Bool) : Nat := if mainnet then mainnetSample else testnetSample

/-- Enough blocks signal the rule. -/
def isActive (count : Nat) (mainnet : Bool) : Bool :=
  decide (count ≥ if mainnet then mainnetActive else testnetActive)

/-- Older versions are refused. -/
def isEnforced (count : Nat) (mainnet : Bool) : Bool :=
  decide (count ≥ if mainnet then mainnetEnforce else testnetEnforce)

/-- Exempt from BIP16. -/
def isBip16Exception (check : Checkpoint) (mainnet : Bool) : Bool :=
  mainnet && check == mainnetBip16ExceptionCheckpoint

/-- Exempt from BIP30. -/
def isBip30Exception (check : Checkpoint) (mainnet : Bool) : Bool :=
  mainnet &&
    (check == mainnetBip30ExceptionCheckpoint1 || check == mainnetBip30ExceptionCheckpoint2)

section

variable (currency : Currency) (mainnet testnet : Bool) (hash : HashDigest) (height : Nat)
  (frozen : Bool)

/-- The hash of the BIP34 checkpoint. -/
def allowCollisionsAtHash : Bool := currency.bip34ActiveCheckpoints.matchesHash mainnet testnet hash

/-- At the BIP34 checkpoint. -/
def allowCollisionsAtHeight : Bool :=
  currency.bip34ActiveCheckpoints.matchesHeight mainnet testnet height

/-- The hash of the bit 0 checkpoint. -/
def bip9Bit0ActiveAtHash : Bool :=
  currency.bip9Bit0ActiveCheckpoints.matchesHash mainnet testnet hash

/-- At the bit 0 checkpoint. -/
def bip9Bit0ActiveAtHeight : Bool :=
  currency.bip9Bit0ActiveCheckpoints.matchesHeight mainnet testnet height

/-- The cash build has no bit 1. -/
def bip9Bit1ActiveAtHash : Bool :=
  decide (currency ≠ .bch) && currency.bip9Bit1ActiveCheckpoints.matchesHash mainnet testnet hash

/-- At the bit 1 checkpoint. -/
def bip9Bit1ActiveAtHeight : Bool :=
  decide (currency ≠ .bch) && currency.bip9Bit1ActiveCheckpoints.matchesHeight mainnet testnet height

/-- The height is not below the one at which the version is frozen. -/
def isFrozen (freeze : FreezeHeights) (height : Nat) (frozen : Bool) : Bool :=
  let regtest := !mainnet && !testnet
  frozen && ((mainnet && decide (height ≥ freeze.mainnet)) ||
    (testnet && decide (height ≥ freeze.testnet)) ||
    (regtest && decide (height ≥ freeze.regtest)))

/-- BIP34 is frozen in. -/
def bip34 : Bool := isFrozen mainnet testnet currency.bip34Freeze height frozen

/-- BIP66 is frozen in. -/
def bip66 : Bool := isFrozen mainnet testnet currency.bip66Freeze height frozen

/-- BIP65 is frozen in. -/
def bip65 : Bool := isFrozen mainnet testnet currency.bip65Freeze height frozen

end

/-- A signed 32-bit number, converted to 64 bits for a comparison of unsigned numbers. -/
def signExtend (value : UInt32) : Nat :=
  if value.toNat < 2 ^ 31 then value.toNat else value.toNat + (2 ^ 64 - 2 ^ 32)

/-- The number of past blocks of at least this version. -/
def countVersions (history : List UInt32) (version : UInt32) : Nat :=
  history.countP fun value => decide (signExtend value ≥ version.toNat)

/-- The configured flags of a rule, where its condition holds. -/
def enable (condition : Bool) (rule forks : UInt32) : UInt32 :=
  if condition then rule &&& forks else 0

section

variable (condition : Bool) (rule forks : UInt32)

@[simp] theorem isEnabled_zero (forks : UInt32) : isEnabled forks 0 = false := by
  simp [isEnabled]

theorem isEnabled_enable (fork : UInt32) :
    isEnabled (enable condition rule forks) fork = (condition && isEnabled forks (fork &&& rule)) := by
  cases condition with
  | false => simp [enable, isEnabled]
  | true => simp [enable, isEnabled, UInt32.and_assoc]

theorem isEnabled_enable_self :
    isEnabled (enable condition rule forks) rule = (condition && isEnabled forks rule) := by
  rw [isEnabled_enable, UInt32.and_self]

/-- Enabling a rule does not enable one that shares no flag with it. -/
theorem isEnabled_enable_of_disjoint {fork : UInt32} (h : fork &&& rule = 0) :
    isEnabled (enable condition rule forks) fork = false := by
  rw [isEnabled_enable, h, isEnabled_zero, Bool.and_false]

/-- The enabled flags depend on the condition only if one of them is configured. -/
theorem enable_eq_of_isEnabled {condition condition' : Bool} {rule forks : UInt32}
    (h : (condition && isEnabled forks rule) = (condition' && isEnabled forks rule)) :
    enable condition rule forks = enable condition' rule forks := by
  cases hrule : isEnabled forks rule with
  | false =>
    have hzero : rule &&& forks = 0 := by simpa [isEnabled] using hrule
    simp only [enable, hzero, ite_self]
  | true =>
    have hcond : condition = condition' := by simpa [hrule] using h
    rw [hcond]

end

/-- The flags of a configuration that name the network and the frozen activations. -/
structure Configuration where
  frozen : Bool
  testnet : Bool
  retarget : Bool
  mainnet : Bool

/-- The network of a fork set. -/
def Configuration.ofForks (forks : UInt32) : Configuration :=
  let testnet := isEnabled forks RuleFork.easyBlocks
  let retarget := isEnabled forks RuleFork.retarget
  { frozen := isEnabled forks RuleFork.bip90Rule, testnet, retarget, mainnet := retarget && !testnet }

namespace Data

variable (currency : Currency) (times : ActivationTimes) (values : Data) (forks : UInt32)

/-- The required version follows the enforced ones, highest first. -/
def minimumVersion : UInt32 :=
  let network := Configuration.ofForks forks
  let enforced (ice : Bool) (version : UInt32) : Bool :=
    ice || isEnforced (countVersions values.versionOrdered version) network.mainnet
  if enforced (bip65 currency network.mainnet network.testnet values.height network.frozen)
    bip65Version then bip65Version
  else if enforced (bip66 currency network.mainnet network.testnet values.height network.frozen)
    bip66Version then bip66Version
  else if enforced (bip34 currency network.mainnet network.testnet values.height network.frozen)
    bip34Version then bip34Version
  else firstVersion

/-- The rules that only the `bch` build activates. -/
def cashForks : UInt32 :=
  let mtp := values.medianTimePast currency true
  enable (isUahfEnabled values.height forks) cashVerifyFlagsScriptEnableSighashForkid forks |||
    enable (isDaaEnabled values.height forks) cashLowSRule forks |||
    enable (isMtpActivated mtp times.magneticAnomaly.toUInt32) cashCheckdatasig forks |||
    enable (isMtpActivated mtp times.greatWall.toUInt32) cashReplayProtection forks

/-- The rules whose activation depends on configuration, height, time and versions. -/
def versionForks : UInt32 :=
  let network := Configuration.ofForks forks
  let check : Checkpoint := { hash := values.hash, height := values.height }
  let activated (ice : Bool) (version : UInt32) : Bool :=
    ice || (isActive (countVersions values.versionOrdered version) network.mainnet &&
      decide (values.versionSelf ≥ version))
  let bip34Ice := bip34 currency network.mainnet network.testnet values.height network.frozen
  enable true retarget forks ||| enable true easyBlocks forks |||
    enable true bip90Rule forks |||
    enable (decide (values.timestampSelf ≥ currency.bip16ActivationTime) &&
      !isBip16Exception check network.mainnet) bip16Rule forks |||
    enable (!isBip30Exception check network.mainnet) bip30Rule forks |||
    -- the `ltc` build activates this rule at its frozen height only
    enable (if currency = .ltc then bip34Ice else activated bip34Ice bip34Version)
      bip34Rule forks |||
    enable (activated (bip66 currency network.mainnet network.testnet values.height network.frozen)
      bip66Version) bip66Rule forks |||
    enable (activated (bip65 currency network.mainnet network.testnet values.height network.frozen)
      bip65Version) bip65Rule forks

/-- The rules that a hash at an activation checkpoint activates. -/
def checkpointForks : UInt32 :=
  let network := Configuration.ofForks forks
  enable (allowCollisionsAtHash currency network.mainnet network.testnet values.allowCollisionsHash)
      allowCollisions forks |||
    enable (bip9Bit0ActiveAtHash currency network.mainnet network.testnet values.bip9Bit0Hash)
      bip9Bit0Group forks |||
    enable (bip9Bit1ActiveAtHash currency network.mainnet network.testnet values.bip9Bit1Hash)
      bip9Bit1Group forks

/-- The active rules. -/
def activation : Activations where
  forks := values.versionForks currency forks ||| values.checkpointForks currency forks |||
    if currency = .bch then values.cashForks currency times forks else 0
  minimumVersion := values.minimumVersion currency forks

end Data

end BitprimCore.ChainState
