import BitprimCore.Math.Hash
import BitprimCore.Library.LittleEndian

/-!
# Checkpoints

Block hashes that are known at a height (`config/checkpoint`), and the checkpoints of
`constants.hpp` that mark the activation of a rule.
-/

namespace BitprimCore

/-- The digest that a base 16 literal spells; the text lists the bytes in reverse. -/
def hashLiteral (value : Nat) : HashDigest :=
  ⟨LittleEndian.ofNat 32 value, LittleEndian.length_ofNat 32 value⟩

/-- A known block. -/
structure Checkpoint where
  hash : HashDigest
  height : Nat
  deriving DecidableEq

namespace Checkpoint

/-- The height is not above that of the last checkpoint, the greatest when they are sorted. -/
def covered (height : Nat) (checks : List Checkpoint) : Bool :=
  match checks.getLast? with
  | none => false
  | some last => decide (height ≤ last.height)

/-- No checkpoint of this height has another hash. -/
def validate (hash : HashDigest) (height : Nat) (checks : List Checkpoint) : Bool :=
  !checks.any fun item => height == item.height && hash != item.hash

end Checkpoint

/-- Exempt from BIP16. -/
def mainnetBip16ExceptionCheckpoint : Checkpoint where
  hash := hashLiteral 0x00000000000002dc756eebf4f49723ed8d30cc28a5f108eb94b1ba88ac4f9c22
  height := 170060

def mainnetBip30ExceptionCheckpoint1 : Checkpoint where
  hash := hashLiteral 0x00000000000a4d0a398161ffc163c503763b1f4360639393e0e4c8e300e0caec
  height := 91842

def mainnetBip30ExceptionCheckpoint2 : Checkpoint where
  hash := hashLiteral 0x00000000000743f190a18c5577a3c2d2a1f610ae9601ac046a38084ccb7cd721
  height := 91880

/-- The checkpoints of the three networks that mark the activation of a rule. -/
structure ActiveCheckpoints where
  mainnet : Checkpoint
  testnet : Checkpoint
  regtest : Checkpoint

namespace ActiveCheckpoints

variable (checkpoints : ActiveCheckpoints) (mainnet testnet : Bool)

/-- The hash is that of the checkpoint of the network. -/
def matchesHash (hash : HashDigest) : Bool :=
  let regtest := !mainnet && !testnet
  (mainnet && hash == checkpoints.mainnet.hash) ||
    (testnet && hash == checkpoints.testnet.hash) ||
    (regtest && hash == checkpoints.regtest.hash)

/-- The height is that of the checkpoint of the network. -/
def matchesHeight (height : Nat) : Bool :=
  let regtest := !mainnet && !testnet
  (mainnet && height == checkpoints.mainnet.height) ||
    (testnet && height == checkpoints.testnet.height) ||
    (regtest && height == checkpoints.regtest.height)

end ActiveCheckpoints

namespace Currency

def regtestGenesisHash : HashDigest :=
  hashLiteral 0x06226e46111a0b59caaf126043eb5bbf28c34f3a5e332a1fc7b2b73cf188910f

/-- Where BIP34 became active. -/
def bip34ActiveCheckpoints : Currency → ActiveCheckpoints
  | .ltc =>
    { mainnet :=
        ⟨hashLiteral 0xfa09d204a83a768ed5a7c8d441fa62f2043abf420cff1226c7b4329aeb9d51cf, 710000⟩
      testnet :=
        ⟨hashLiteral 0x8075c771ed8b495ffd943980a95f702ab34fce3c8c54e379548bda33cc8c0573, 76⟩
      regtest :=
        ⟨hashLiteral 0xfa09d204a83a768ed5a7c8d441fa62f2043abf420cff1226c7b4329aeb9d51cf,
          100000000⟩ }
  | .btc | .bch =>
    { mainnet :=
        ⟨hashLiteral 0x000000000000024b89b42a942fe0d9fea3bb44ab7bd1b19115dd6a759c0808b8, 227931⟩
      testnet :=
        ⟨hashLiteral 0x0000000023b3a96d3484e5abb3755c413e7d41500f8e2a5c3f0dd01299cd8ef8, 21111⟩
      regtest := ⟨regtestGenesisHash, 0⟩ }

/-- Where bit 0 became active. -/
def bip9Bit0ActiveCheckpoints : Currency → ActiveCheckpoints
  | .ltc =>
    { mainnet :=
        ⟨hashLiteral 0xb50ce9202c152e481ca509156028af954654ed13e4b0656eb497554aa753db0b, 1201535⟩
      testnet := ⟨hashLiteral 0x4966625a4b2851d9fdee139e56211a0d88575f59ed816ff5e6a63deb4e3e29a0, 0⟩
      regtest := ⟨regtestGenesisHash, 0⟩ }
  | .btc | .bch =>
    { mainnet :=
        ⟨hashLiteral 0x000000000000000004a1b34462cb8aeebd5799177f7a29cf28f2d1961716b5b5, 419328⟩
      testnet :=
        ⟨hashLiteral 0x00000000025e930139bac5c6c31a403776da130831ab85be56578f3fa75369bb, 770112⟩
      regtest := ⟨regtestGenesisHash, 0⟩ }

/-- Where bit 1 became active. -/
def bip9Bit1ActiveCheckpoints : Currency → ActiveCheckpoints
  | .ltc =>
    { mainnet :=
        ⟨hashLiteral 0xb50ce9202c152e481ca509156028af954654ed13e4b0656eb497554aa753db0b, 1201535⟩
      testnet := ⟨hashLiteral 0x4966625a4b2851d9fdee139e56211a0d88575f59ed816ff5e6a63deb4e3e29a0, 0⟩
      regtest := ⟨regtestGenesisHash, 0⟩ }
  | .btc | .bch =>
    { mainnet :=
        ⟨hashLiteral 0x0000000000000000001c8018d9cb3b742ef25114f27563e3fc4a1902167f9893, 481824⟩
      testnet :=
        ⟨hashLiteral 0x00000000002b980fcd729daaa248fd9316a5200e9b367f4ff2c42453e84201ca, 834624⟩
      regtest := ⟨regtestGenesisHash, 0⟩ }

end Currency

/-- The heights at which a version is frozen as activated (`bip90`). -/
structure FreezeHeights where
  mainnet : Nat
  testnet : Nat
  regtest : Nat

namespace Currency

/-- Where BIP34 is frozen. -/
def bip34Freeze : Currency → FreezeHeights
  | .ltc => ⟨710000, 76, 100000000⟩
  | .btc | .bch => ⟨227931, 21111, 0⟩

/-- Where BIP66 is frozen. -/
def bip66Freeze : Currency → FreezeHeights
  | .ltc => ⟨maxUint32, maxUint32, 1251⟩
  | .btc | .bch => ⟨363725, 330776, 1251⟩

/-- Where BIP65 is frozen. -/
def bip65Freeze : Currency → FreezeHeights
  | .ltc => ⟨maxUint32, maxUint32, 1351⟩
  | .btc | .bch => ⟨388381, 581885, 1351⟩

end Currency

def mainnetUahfActiveHeight : Nat := 478558
def testnetUahfActiveHeight : Nat := 1155876
def mainnetDaaActiveHeight : Nat := 504031
def testnetDaaActiveHeight : Nat := 1188697
def mainnetMonolithActiveHeight : Nat := 530359
def testnetMonolithActiveHeight : Nat := 1233078

end BitprimCore
