import BitprimCore.Utility.IstreamReader

/-!
# Network addresses

The address of a peer and its decoder (`message/network_address`). The bytes of the address are
read into a buffer and moved into the object at the end, behind the reset of a failed read.
-/

namespace BitprimCore

open LittleEndian StickyReader List

/-- An IPv6 address. -/
abbrev IpAddress := { bytes : DataChunk // bytes.length = 16 }

def nullAddress : IpAddress := ⟨List.replicate 16 0, by simp⟩

/-- The defaults are those of an address that is constructed by default. -/
structure NetworkAddress where
  timestamp : UInt32 := 0
  services : UInt64 := 0
  ip : IpAddress := nullAddress
  port : UInt16 := 0
  deriving DecidableEq

namespace NetworkAddress

/-- Some field is set. -/
def isValid (address : NetworkAddress) : Bool :=
  address.timestamp != 0 || address.services != 0 || address.port != 0 || address.ip != nullAddress

/-- Clears the address. -/
def reset (address : NetworkAddress) : NetworkAddress :=
  { address with timestamp := 0, services := 0, ip := nullAddress, port := 0 }

/-- The protocol version is not used. -/
def fromData (before : NetworkAddress) (withTimestamp : Bool) :
    Reader UInt8 (Bool × NetworkAddress) := do
  let address := before.reset
  let timestamp ←
    if withTimestamp then UInt32.ofNat <$> IstreamReader.readLittleEndian 4
    else pure address.timestamp
  let services ← IstreamReader.readLittleEndian 8
  let ip ← IstreamReader.readBytes 16
  let port ← IstreamReader.readBigEndian 2
  let address := { address with
    timestamp, services := UInt64.ofNat services, port := UInt16.ofNat port }
  let (result, address) ← finish address address.reset
  -- this comes behind the reset
  return (result, { address with ip := IstreamReader.overwrite address.ip ip })

variable (withTimestamp : Bool) (bytes : DataChunk)

/-- The bytes in front of those of the address. -/
def ipOffset : Nat := if withTimestamp then 12 else 8

/-- The bytes of the address that a source holds. -/
def ipBytes : DataChunk := (bytes.drop (ipOffset withTimestamp)).take 16

variable (before address : NetworkAddress)

/-- A failed read resets the object and then puts there what arrived of the address. -/
theorem fromData_failed (h : (before.fromData withTimestamp ⟨bytes, false⟩).1.1 = false) :
    (before.fromData withTimestamp ⟨bytes, false⟩).1.2 =
      { ip := IstreamReader.overwrite nullAddress (ipBytes withTimestamp bytes ++
          replicate (16 - (ipBytes withTimestamp bytes).length) 0) } := by
  rw [← after_zero bytes] at h ⊢
  cases withTimestamp with
  | true =>
    simp only [fromData, if_true, map_eq_pure_bind, bind_run, pure_run, finish_run,
      IstreamReader.readLittleEndian_after, IstreamReader.readBytes_after,
      IstreamReader.readBigEndian_after, zero_add, Nat.reduceAdd, Bool.not_eq_false'] at h ⊢
    rw [h]
    rfl
  | false =>
    simp only [fromData, Bool.false_eq_true, if_false, bind_run, pure_run, finish_run,
      IstreamReader.readLittleEndian_after, IstreamReader.readBytes_after,
      IstreamReader.readBigEndian_after, zero_add, Nat.reduceAdd, Bool.not_eq_false'] at h ⊢
    rw [h]
    rfl

/-- The buffer is a null address if no other byte arrived. -/
theorem overwrite_nullAddress_eq_iff {bytes : DataChunk} (h : bytes.length ≤ 16) :
    IstreamReader.overwrite nullAddress (bytes ++ replicate (16 - bytes.length) 0) =
      nullAddress ↔ ∀ byte ∈ bytes, byte = 0 := by
  have hlen : (bytes ++ replicate (16 - bytes.length) (0 : UInt8)).length = 16 := by
    simp only [length_append, length_replicate]
    omega
  have hdrop : nullAddress.val.drop 16 = [] := rfl
  rw [Subtype.ext_iff]
  change (bytes ++ replicate (16 - bytes.length) 0).take 16 ++
    nullAddress.val.drop (bytes ++ replicate (16 - bytes.length) 0).length =
    replicate 16 0 ↔ _
  rw [hlen, hdrop, append_nil, take_of_length_le hlen.le, eq_replicate_iff]
  constructor
  · rintro ⟨-, hall⟩ byte hbyte
    exact hall byte (mem_append_left _ hbyte)
  · intro hall
    refine ⟨hlen, fun byte hbyte => ?_⟩
    rcases mem_append.mp hbyte with hbyte | hbyte
    · exact hall byte hbyte
    · exact eq_of_mem_replicate hbyte

/-- Serializes the address. -/
def toData (address : NetworkAddress) (withTimestamp : Bool) : DataChunk :=
  (if withTimestamp then ofNat 4 address.timestamp.toNat else []) ++
    (ofNat 8 address.services.toNat ++ (address.ip.val ++ (ofNat 2 address.port.toNat).reverse))

def satoshiFixedSize (withTimestamp : Bool) : Nat := if withTimestamp then 26 + 4 else 26

theorem length_toData : (address.toData withTimestamp).length = satoshiFixedSize withTimestamp := by
  cases withTimestamp <;> simp [toData, satoshiFixedSize, address.ip.2]

/-- Two addresses are equal without regard to their timestamps (`operator==`). -/
def Equal (address address' : NetworkAddress) : Prop :=
  address.services = address'.services ∧ address.port = address'.port ∧ address.ip = address'.ip

/-- Without a timestamp the others of the fields are read back. -/
theorem takes_fromData :
    Takes (before.fromData false) (address.toData false) (true, { address with timestamp := 0 }) := by
  have hservices := IstreamReader.takes_readLittleEndian
    (show address.services.toNat < 256 ^ 8 from address.services.toNat_lt)
  have hip : Takes (IstreamReader.readBytes 16) address.ip.val address.ip.val := by
    have hbytes := IstreamReader.takes_readBytes address.ip.val
    rwa [address.ip.2] at hbytes
  have hport := IstreamReader.takes_readBigEndian
    (show address.port.toNat < 256 ^ 2 from address.port.toNat_lt)
  have hoverwrite : IstreamReader.overwrite nullAddress address.ip.val = address.ip := by
    apply Subtype.ext
    change address.ip.val.take 16 ++ nullAddress.val.drop address.ip.val.length = address.ip.val
    rw [address.ip.2, take_of_length_le (le_of_eq address.ip.2)]
    exact append_nil _
  intro rest
  simp only [fromData, toData, Bool.false_eq_true, if_false, nil_append, append_assoc, bind_run,
    pure_run, hservices _, hip _, hport _, finish_run, UInt64.ofNat_toNat, UInt16.ofNat_toNat]
  simp only [Bool.not_false, reset, hoverwrite]

end NetworkAddress

end BitprimCore
