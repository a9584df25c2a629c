import BitprimCore.Wallet.CashAddress
import BitprimCore.Wallet.KeyAddress

/-!
# The text of payment addresses

Payment addresses are read from text in base 58 and, in the cash build, from the text of cashaddr
(`wallet/payment_address`). The text in base 58 of an address is read back, whatever its version
and its hash.
-/

namespace BitprimCore.PaymentAddress

/-- The size of an address: its version, its hash and their checksum. -/
def paymentSize : Nat := 1 + 20 + 4

variable (currency : Currency) (hashes : Hashes)

/-- The size and the checksum. -/
def isAddress (decoded : DataChunk) : Bool :=
  decoded.length == paymentSize && hashes.verifyChecksum decoded

/-- Invalid if the checksum is wrong. -/
def fromPayment (decoded : Bytes paymentSize) : PaymentAddress :=
  if !isAddress hashes decoded.val then {}
  else
    ⟨true, decoded.val.headD 0, (decoded.val.drop 1).take 20, by simp [decoded.property, paymentSize]⟩

/-- A text that is no address in base 58; only the cash build has another form. -/
def fromOtherString (cashaddrPrefix address : Text) : Except CashaddrFault PaymentAddress :=
  match currency with
  | .bch => fromStringCashaddr cashaddrPrefix address
  | .btc | .ltc => .ok {}

/-- The prefix is that of the network that was configured. -/
def fromString (cashaddrPrefix address : Text) : Except CashaddrFault PaymentAddress :=
  match decodeBase58Array paymentSize address with
  | none => fromOtherString currency cashaddrPrefix address
  | some decoded =>
    if !isAddress hashes decoded.val then fromOtherString currency cashaddrPrefix address
    else .ok (fromPayment hashes decoded)

variable {currency hashes} (version : UInt8) (hash : ShortHash)

theorem isAddress_wrap : isAddress hashes (hashes.wrap version hash).val := by
  have hlen : (hashes.wrap version hash).val.length = paymentSize :=
    (hashes.wrap version hash).property
  rw [isAddress, hlen, Hashes.wrap, Hashes.verifyChecksum_buildCheckedArray, beq_self_eq_true]
  rfl

theorem fromPayment_wrap :
    fromPayment hashes (hashes.wrap version hash) = ⟨true, version, hash⟩ := by
  have hhash : (((hashes.wrap version hash).val.drop 1).take 20) = hash.val := by
    simp [Hashes.wrap, Hashes.buildCheckedArray, Hashes.appendChecksum, hash.property]
  simp only [fromPayment, isAddress_wrap, hhash]
  rfl

theorem fromString_of_decode {cashaddrPrefix text : Text} {decoded : Bytes paymentSize}
    (hdec : decodeBase58Array paymentSize text = some decoded)
    (haddress : isAddress hashes decoded.val) :
    fromString currency hashes cashaddrPrefix text = .ok (fromPayment hashes decoded) := by
  simp [fromString, hdec, haddress]

/-- The text of an address in base 58 is read back. -/
theorem fromString_encoded (cashaddrPrefix : Text) (address : PaymentAddress) :
    fromString currency hashes cashaddrPrefix (address.encoded hashes) =
      .ok { address with valid := true } := by
  rw [← fromPayment_wrap]
  exact fromString_of_decode (decodeBase58Array_encodeBase58 _) (isAddress_wrap _ _)

theorem mem_base58Chars_of_mem_encoded {address : PaymentAddress} {c : Char}
    (h : c ∈ address.encoded hashes) : c ∈ base58Chars :=
  mem_base58Chars_of_mem h

theorem encoded_ne_nil (address : PaymentAddress) : address.encoded hashes ≠ [] := by
  intro hnil
  have hdec := decodeBase58_encodeBase58 (hashes.wrap address.version address.hash).val
  rw [show encodeBase58 (hashes.wrap address.version address.hash).val = [] from hnil] at hdec
  have hlen := congrArg List.length (Option.some.inj hdec)
  rw [(hashes.wrap address.version address.hash).property] at hlen
  cases hlen

end BitprimCore.PaymentAddress
