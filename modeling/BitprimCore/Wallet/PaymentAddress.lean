import BitprimCore.Math.Hash

/-!
# Payment addresses

The hash that an address pays to, under a version that names the network and the kind of script
(`wallet/payment_address`).
-/

namespace BitprimCore

def nullShortHash : ShortHash := ⟨List.replicate 20 0, by simp⟩

/-- An address that was not read is not valid. -/
structure PaymentAddress where
  valid : Bool := false
  version : UInt8 := 0
  hash : ShortHash := nullShortHash
  deriving DecidableEq

namespace PaymentAddress

def mainnetP2kh : Currency → UInt8
  | .ltc => 0x30
  | .btc | .bch => 0x00

def mainnetP2sh : UInt8 := 0x05

def testnetP2kh : UInt8 := 0x6f

def testnetP2sh : UInt8 := 0xc4

end PaymentAddress

end BitprimCore
