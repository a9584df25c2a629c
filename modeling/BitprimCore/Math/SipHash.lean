import BitprimCore.Library.LittleEndian
import BitprimCore.Math.Hash

/-!
# SipHash

The keyed hash of a digest that gives the short ids of a compact block (`math/sip_hash`).
-/

namespace BitprimCore

namespace SipHash

/-- Rotates to the left. -/
def rotl (x b : UInt64) : UInt64 := (x <<< b) ||| (x >>> (64 - b))

/-- The four words. -/
structure State where
  v0 : UInt64
  v1 : UInt64
  v2 : UInt64
  v3 : UInt64

/-- One round. -/
def sipRound (state : State) : State :=
  let v0 := state.v0 + state.v1
  let v1 := rotl state.v1 13 ^^^ v0
  let v0 := rotl v0 32
  let v2 := state.v2 + state.v3
  let v3 := rotl state.v3 16 ^^^ v2
  let v0 := v0 + v3
  let v3 := rotl v3 21 ^^^ v0
  let v2 := v2 + v1
  let v1 := rotl v1 17 ^^^ v2
  let v2 := rotl v2 32
  { v0, v1, v2, v3 }

/-- A word is taken in by two rounds. -/
def absorb (state : State) (word : UInt64) : State :=
  let state := sipRound (sipRound { state with v3 := state.v3 ^^^ word })
  { state with v0 := state.v0 ^^^ word }

/-- A word of a digest (`get_uint64`). -/
def getUint64 (index : Nat) (digest : HashDigest) : UInt64 :=
  UInt64.ofNat (LittleEndian.toNat ((digest.val.drop (index * 8)).take 8))

/-- The state before any data. -/
def initial (k0 k1 : UInt64) : State where
  v0 := 0x736f6d6570736575 ^^^ k0
  v1 := 0x646f72616e646f6d ^^^ k1
  v2 := 0x6c7967656e657261 ^^^ k0
  v3 := 0x7465646279746573 ^^^ k1

/-- The last four rounds, and the words together. -/
def finish (state : State) : UInt64 :=
  let state := { state with v2 := state.v2 ^^^ 0xFF }
  let state := sipRound (sipRound (sipRound (sipRound state)))
  state.v0 ^^^ state.v1 ^^^ state.v2 ^^^ state.v3

/-- The hash of the four words of a digest and a word behind them. -/
def hashDigestThen (k0 k1 : UInt64) (val : HashDigest) (last : UInt64) : UInt64 :=
  let state := absorb (initial k0 k1) (getUint64 0 val)
  let state := absorb state (getUint64 1 val)
  let state := absorb state (getUint64 2 val)
  let state := absorb state (getUint64 3 val)
  finish (absorb state last)

end SipHash

open SipHash

/-- The hash of a digest. -/
def sipHashUint256 (k0 k1 : UInt64) (val : HashDigest) : UInt64 :=
  hashDigestThen k0 k1 val ((4 : UInt64) <<< 59)

end BitprimCore
