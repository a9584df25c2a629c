import BitprimCore.Message.NetworkAddress

/-!
# Version messages

The message that opens a connection and its codec (`message/version`). From level 70001 on it ends
in a flag, which is there only if both the message and the protocol are of that level. The writer
and the reader agree on this, but the size counts the flag by the level of the message alone.
-/

namespace BitprimCore

open LittleEndian StickyReader

/-- The version message. -/
structure Version where
  value : UInt32 := 0
  services : UInt64 := 0
  timestamp : UInt64 := 0
  addressReceiver : NetworkAddress := {}
  addressSender : NetworkAddress := {}
  nonce : UInt64 := 0
  userAgent : DataChunk := []
  startHeight : UInt32 := 0
  relay : Bool := false
  deriving DecidableEq

namespace Version

/-- The level from which on the relay flag is sent (`level::bip37`). -/
def bip37 : UInt32 := 70001

/-- Resets the addresses too. -/
def reset (message : Version) : Version where
  addressReceiver := message.addressReceiver.reset
  addressSender := message.addressSender.reset

/-- The flag is read if both peers are of the level and it is there. It is set if one of them is
not, or if it is missing. -/
def readRelay (peerBip37 selfBip37 : Bool) : Reader UInt8 Bool := do
  if peerBip37 != selfBip37 then return true
  else if ← IstreamReader.isExhausted then return true
  else if selfBip37 then return (← IstreamReader.readByte) != 0
  else return false

/-- The results of the two addresses are not looked at: a failure stays in the source. -/
def fromData (before : Version) (version : UInt32) : Reader UInt8 (Bool × Version) := do
  let message := before.reset
  let value ← IstreamReader.readLittleEndian 4
  let services ← IstreamReader.readLittleEndian 8
  let timestamp ← IstreamReader.readLittleEndian 8
  let receiver ← message.addressReceiver.fromData false
  let sender ← message.addressSender.fromData false
  let nonce ← IstreamReader.readLittleEndian 8
  let userAgent ← IstreamReader.readString
  let startHeight ← IstreamReader.readLittleEndian 4
  let peerBip37 := decide (bip37 ≤ UInt32.ofNat value)
  let selfBip37 := decide (bip37 ≤ version)
  let relay ← readRelay peerBip37 selfBip37
  let message := { message with
    value := UInt32.ofNat value, services := UInt64.ofNat services,
    timestamp := UInt64.ofNat timestamp, addressReceiver := receiver.2, addressSender := sender.2,
    nonce := UInt64.ofNat nonce, userAgent, startHeight := UInt32.ofNat startHeight, relay }
  finish message message.reset

/-- Depends on both versions. -/
def toData (message : Version) (version : UInt32) : DataChunk :=
  let effectiveVersion := if message.value < version then message.value else version
  ofNat 4 message.value.toNat ++ (ofNat 8 message.services.toNat ++
    (ofNat 8 message.timestamp.toNat ++ (message.addressReceiver.toData false ++
      (message.addressSender.toData false ++ (ofNat 8 message.nonce.toNat ++
        ((writeVariableLittleEndian message.userAgent.length ++ message.userAgent) ++
          (ofNat 4 message.startHeight.toNat ++
            if bip37 ≤ effectiveVersion then [if message.relay then 1 else 0] else [])))))))

/-- The protocol version has no part in the size. -/
def serializedSize (message : Version) (_version : UInt32) : Nat :=
  4 + 8 + 8 + NetworkAddress.satoshiFixedSize false + NetworkAddress.satoshiFixedSize false + 8 +
    (variableUintSize message.userAgent.length + message.userAgent.length) + 4 +
    if bip37 ≤ message.value then 1 else 0

variable (before message : Version) (version : UInt32)

/-- Both the message and the protocol are of the level. -/
def hasRelay : Bool := decide (bip37 ≤ version) && decide (bip37 ≤ message.value)

/-- The bytes of the flag. -/
def relayBytes : DataChunk :=
  if message.hasRelay version then [if message.relay then 1 else 0] else []

/-- The flag that is read: the one that was sent, or true if none was. -/
def receivedRelay : Bool := if message.hasRelay version then message.relay else true

theorem toData_relayBytes :
    (if bip37 ≤ (if message.value < version then message.value else version) then
      [if message.relay then 1 else 0] else []) = message.relayBytes version := by
  have hiff : bip37 ≤ (if message.value < version then message.value else version) ↔
      message.hasRelay version = true := by
    rw [hasRelay, Bool.and_eq_true, decide_eq_true_iff, decide_eq_true_iff]
    split_ifs with hlt
    · exact ⟨fun h => ⟨UInt32.le_of_lt (UInt32.lt_of_le_of_lt h hlt), h⟩, And.right⟩
    · exact ⟨fun h => ⟨h, UInt32.le_trans h (UInt32.not_lt.mp hlt)⟩, And.left⟩
  rw [relayBytes]
  simp only [hiff]

/-- Reader and writer agree on whether the flag is there. -/
theorem readRelay_relayBytes :
    readRelay (decide (bip37 ≤ message.value)) (decide (bip37 ≤ version))
      ⟨message.relayBytes version, false⟩ = (message.receivedRelay version, ⟨[], false⟩) := by
  unfold relayBytes receivedRelay hasRelay
  cases decide (bip37 ≤ message.value) <;> cases decide (bip37 ≤ version) <;>
    cases message.relay <;> rfl

/-- What is read back of a message. -/
def received : Version :=
  { message with
    addressReceiver := { message.addressReceiver with timestamp := 0 }
    addressSender := { message.addressSender with timestamp := 0 }
    relay := message.receivedRelay version }

variable {message}

/-- A message is read back in full, with the flag if there is one. -/
theorem fromData_toData (hagent : (0 : UInt8) ∉ message.userAgent)
    (hsize : message.userAgent.length < 2 ^ 64) :
    before.fromData version ⟨message.toData version, false⟩ =
      ((true, message.received version), ⟨[], false⟩) := by
  have hval := IstreamReader.takes_readLittleEndian
    (show message.value.toNat < 256 ^ 4 from message.value.toNat_lt)
  have hservices := IstreamReader.takes_readLittleEndian
    (show message.services.toNat < 256 ^ 8 from message.services.toNat_lt)
  have htimestamp := IstreamReader.takes_readLittleEndian
    (show message.timestamp.toNat < 256 ^ 8 from message.timestamp.toNat_lt)
  have hreceiver := NetworkAddress.takes_fromData before.reset.addressReceiver
    message.addressReceiver
  have hsender := NetworkAddress.takes_fromData before.reset.addressSender message.addressSender
  have hnonce := IstreamReader.takes_readLittleEndian
    (show message.nonce.toNat < 256 ^ 8 from message.nonce.toNat_lt)
  have hstring := IstreamReader.takes_readString hagent hsize
  have hheight := IstreamReader.takes_readLittleEndian
    (show message.startHeight.toNat < 256 ^ 4 from message.startHeight.toNat_lt)
  have hrelay := readRelay_relayBytes message version
  rw [toData, toData_relayBytes]
  simp only [fromData, bind_run, hval _, hservices _, htimestamp _, hreceiver _, hsender _,
    hnonce _, hstring _, hheight _, UInt32.ofNat_toNat, UInt64.ofNat_toNat, hrelay, finish_run]
  rfl

variable (message)

/-- The flag is counted by the level of the message and written by that of both. -/
theorem length_toData :
    (message.toData version).length + (if bip37 ≤ message.value then 1 else 0) =
      message.serializedSize version + (if message.hasRelay version then 1 else 0) := by
  have hflag : (message.relayBytes version).length = if message.hasRelay version then 1 else 0 := by
    unfold relayBytes
    split_ifs <;> rfl
  rw [toData, toData_relayBytes]
  simp only [List.length_append, length_ofNat, NetworkAddress.length_toData,
    length_writeVariableLittleEndian, hflag, serializedSize]
  omega

theorem length_toData_eq_iff :
    (message.toData version).length = message.serializedSize version ↔
      ¬ (bip37 ≤ message.value ∧ version < bip37) := by
  have hlen := message.length_toData version
  rw [hasRelay] at hlen
  by_cases hval : bip37 ≤ message.value
  · by_cases hver : bip37 ≤ version
    · have hlt : ¬ version < bip37 := UInt32.not_lt.mpr hver
      simp [hval, hver] at hlen
      simp [hlen, hlt]
    · have hlt : version < bip37 := UInt32.not_le.mp hver
      simp [hval, hver] at hlen
      simp [← hlen, hval, hlt]
  · simp [hval] at hlen
    simp [hlen, hval]

/-- Two messages have equal fields, apart from the flag. -/
def EqualFields (message message' : Version) : Prop :=
  message.value = message'.value ∧ message.services = message'.services ∧
    message.timestamp = message'.timestamp ∧
    message.addressReceiver.Equal message'.addressReceiver ∧
    message.addressSender.Equal message'.addressSender ∧ message.nonce = message'.nonce ∧
    message.userAgent = message'.userAgent ∧ message.startHeight = message'.startHeight

/-- The message is of the size that is announced, and read back to the end with its fields and the
flag, unless only the message is of the level of the flag. -/
theorem codec_iff (hagent : (0 : UInt8) ∉ message.userAgent)
    (hsize : message.userAgent.length < 2 ^ 64) :
    ((message.toData version).length = message.serializedSize version ∧
      ∃ message', before.fromData version ⟨message.toData version, false⟩ =
          ((true, message'), ⟨[], false⟩) ∧
        message'.EqualFields message ∧
        message'.relay = if bip37 ≤ message.value ∧ bip37 ≤ version then message.relay else true) ↔
      ¬ (bip37 ≤ message.value ∧ version < bip37) := by
  have hrelay : message.receivedRelay version =
      if bip37 ≤ message.value ∧ bip37 ≤ version then message.relay else true := by
    rw [receivedRelay, hasRelay]
    by_cases hvalue : bip37 ≤ message.value <;> by_cases hversion : bip37 ≤ version <;>
      simp [hvalue, hversion]
  rw [← length_toData_eq_iff, and_iff_left_iff_imp]
  intro _
  refine ⟨message.received version, fromData_toData before version hagent hsize, ?_, hrelay⟩
  exact ⟨rfl, rfl, rfl, ⟨rfl, rfl, rfl⟩, ⟨rfl, rfl, rfl⟩, rfl, rfl, rfl⟩

/-- A message of the current level. -/
def current : Version := { value := 70015, userAgent := [0x2f], relay := true }

theorem codec_iff_current :
    ((current.toData 70015).length = current.serializedSize 70015 ∧
      ∃ message', ({} : Version).fromData 70015 ⟨current.toData 70015, false⟩ =
          ((true, message'), ⟨[], false⟩) ∧
        message'.EqualFields current ∧
        message'.relay = if bip37 ≤ current.value ∧ bip37 ≤ 70015 then current.relay else true) ↔
      ¬ (bip37 ≤ current.value ∧ 70015 < bip37) :=
  codec_iff {} current 70015 (by decide) (by decide)

/-- A message of level 70001 for a peer below it has one byte less than announced. -/
theorem length_toData_old_peer :
    (({ value := 70001 } : Version).toData 31402).length = 85 ∧
      ({ value := 70001 } : Version).serializedSize 31402 = 86 := by
  decide

end Version

end BitprimCore
