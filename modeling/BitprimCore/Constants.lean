import Mathlib.Init

/-!
# Consensus constants

The constants of `constants.hpp` that do not depend on the network, and the build options that
select the currency.
-/

namespace BitprimCore

/-- The currency the library is built for (`BITPRIM_CURRENCY_*`). -/
inductive Currency
  | btc
  | bch
  | ltc
  deriving DecidableEq, Repr

/-- A variable-length byte string (`data_chunk`). -/
abbrev DataChunk := List UInt8

def maxUint8 : Nat := 0xff
def maxUint16 : Nat := 0xffff
def maxUint32 : Nat := 0xffffffff
def maxUint64 : Nat := 0xffffffffffffffff

/-- The index of a null point. -/
def noPreviousOutput : UInt32 := 0xffffffff
/-- The sequence of a final input. -/
def maxInputSequence : UInt32 := 0xffffffff
/-- The value of no output. -/
def sighashNullValue : UInt64 := 0xffffffffffffffff

def maxCountedOps : Nat := 201
/-- For both stacks together. -/
def maxStackSize : Nat := 1000
def maxScriptSize : Nat := 10000
/-- The longest element. -/
def maxPushDataSize : Nat := 520
/-- Of one multisig. -/
def maxScriptPublicKeys : Nat := 20
/-- Without the number of keys. -/
def multisigDefaultSigops : Nat := 20
/-- The bytes of a number. -/
def maxNumberSize : Nat := 4
def maxCheckLocktimeVerifyNumberSize : Nat := 5
def maxCheckSequenceVerifyNumberSize : Nat := 5

def minCoinbaseSize : Nat := 2
def maxCoinbaseSize : Nat := 100
/-- Blocks before a spend. -/
def coinbaseMaturity : Nat := 100
/-- Lower ones are heights. -/
def locktimeThreshold : Nat := 500000000

def relativeLocktimeMinVersion : Nat := 2
def relativeLocktimeSecondsShift : Nat := 9
def relativeLocktimeMask : Nat := 0x0000ffff
/-- The bit that disables a lock. -/
def relativeLocktimeDisabled : Nat := 0x80000000
/-- The bit for a time lock. -/
def relativeLocktimeTimeLocked : Nat := 0x00400000

/-- The block size limit of the build: the pre-fork limit, or the raised one of `bch`. -/
def Currency.getMaxBlockSize : Currency → Nat
  | .bch => 32000000
  | .btc | .ltc => 1000000

/-- One for each fifty bytes. -/
def maxSigopsFactor : Nat := 50

variable (currency : Currency) (retarget : Bool)

/-- The signature operation limit that follows from the block size limit. -/
def Currency.getMaxBlockSigops : Nat := currency.getMaxBlockSize / maxSigopsFactor

def oneMillionBytesBlock : Nat := 1000000
def sigopsPerMillionBytes : Nat := 20000

/-- The limit grows with every million bytes begun; no block is of size zero. -/
def getAllowedSigops (blockSize : Nat) : Nat :=
  (1 + (blockSize - 1) / oneMillionBytesBlock) * sigopsPerMillionBytes

def fastSigopsFactor : Nat := 4
def lightWeightFactor : Nat := 4
def baseSizeContribution : Nat := 3
def totalSizeContribution : Nat := 1

/-- The BIP141 limit. -/
def Currency.maxFastSigops : Nat := fastSigopsFactor * currency.getMaxBlockSigops

/-- The BIP141 weight limit. -/
def Currency.maxBlockWeight : Nat := lightWeightFactor * currency.getMaxBlockSize

def maxBlockSizeOld : Nat := 8000000
def minTransactionSize : Nat := 100
def chainStateTimestampCount : Nat := 147
def bitcoinCashOffsetTip : Nat := 136
def bitcoinCashOffsetTipMinus6 : Nat := 130

/-- The easiest bits. -/
def Currency.retargetProofOfWorkLimit : Currency → UInt32
  | .ltc => 0x1e0fffff
  | .btc | .bch => 0x1d00ffff

/-- The regtest limit. -/
def noRetargetProofOfWorkLimit : UInt32 := 0x207fffff

/-- Easier without retargeting. -/
def Currency.workLimit : UInt32 :=
  if retarget then currency.retargetProofOfWorkLimit else noRetargetProofOfWorkLimit

/-- The bound of a retarget. -/
def retargetingFactor : Nat := 4

/-- The time for a block. -/
def Currency.targetSpacingSeconds : Currency → Nat
  | .ltc => 10 * 15
  | .btc | .bch => 10 * 60

/-- The time for a period. -/
def Currency.targetTimespanSeconds : Currency → Nat
  | .ltc => 2 * 7 * 24 * 60 * 15
  | .btc | .bch => 2 * 7 * 24 * 60 * 60

/-- Two hours ahead. -/
def timestampFutureSeconds : Nat := 2 * 60 * 60
def easySpacingFactor : Nat := 2

/-- Then a block may be easy. -/
def Currency.easySpacingSeconds : Nat := easySpacingFactor * currency.targetSpacingSeconds

/-- A fourth of a period. -/
def Currency.minTimespan : Nat := currency.targetTimespanSeconds / retargetingFactor

/-- Four periods. -/
def Currency.maxTimespan : Nat := currency.targetTimespanSeconds * retargetingFactor

/-- The number of blocks of one target timespan, 2016 in every build. -/
def Currency.retargetingInterval : Nat :=
  currency.targetTimespanSeconds / currency.targetSpacingSeconds

/-- The blocks of a median. -/
def medianTimePastInterval : Nat := 11

def firstVersion : UInt32 := 1
def bip34Version : UInt32 := 2
def bip66Version : UInt32 := 3
def bip65Version : UInt32 := 4
def bip9VersionBit0 : UInt32 := 1
def bip9VersionBit1 : UInt32 := 2
/-- The bits of BIP9. -/
def bip9VersionBase : UInt32 := 0x20000000

/-- Out of the sample. -/
def mainnetActive : Nat := 750
/-- Out of the sample. -/
def mainnetEnforce : Nat := 950
def mainnetSample : Nat := 1000

def testnetActive : Nat := 51
def testnetEnforce : Nat := 75
def testnetSample : Nat := 100

/-- When BIP16 became active. -/
def Currency.bip16ActivationTime : Currency → UInt32
  | .ltc => 0x4f779a80
  | .btc | .bch => 0x4f3af580

def satoshiPerBitcoin : Nat := 100000000
def initialBlockSubsidyBitcoin : Nat := 50

def initialBlockSubsidySatoshi : Nat := initialBlockSubsidyBitcoin * satoshiPerBitcoin

/-- The blocks of a halving. -/
def Currency.subsidyInterval : Nat :=
  if retarget then
    match currency with
    | .ltc => 840000
    | .btc | .bch => 210000
  else 150

/-- The sum of all halvings of the initial subsidy. -/
def recursiveMoney : Nat := 0x02540be3f5

/-- The sum of all subsidies. -/
def Currency.maxMoney : Nat := recursiveMoney * currency.subsidyInterval retarget

end BitprimCore
