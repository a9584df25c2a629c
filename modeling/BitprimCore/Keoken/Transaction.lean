import BitprimCore.Keoken.Message
import BitprimCore.Wallet.TransactionEncoding

/-!
# Keoken transactions

Transactions that carry a message in an output of their own, and the extraction of the message
(`keoken/wallet/create_transaction`, `keoken/transaction_extractor`).

The change is what the spent output has above the dust and a fixed fee, in words that wrap around. A
change that has wrapped around is more money than there is, and is refused when it is encoded.
-/

namespace BitprimCore.Keoken

open List Operation Script StealthSample

open Wallet

/-- The bytes of the protocol in front of a message. -/
def protocolName : DataChunk := [0x00, 0x00, 0x4b, 0x50]

def kpMinSize : Nat := (Opcode.pushSize 4).toByte.toNat
def kpMaxSize : Nat := Opcode.pushFourSize.toByte.toNat

/-- The message of a script; what is empty is none. -/
def getKeokenData (ops : List Operation) : DataChunk :=
  match ops with
  | op0 :: op1 :: op2 :: _ =>
    if op0.code ≠ .return_ then []
    else if op1.code ≠ .pushSize 4 then []
    else if op1.data ≠ protocolName.take op1.data.length then []
    else if op2.code.toByte.toNat < kpMinSize then []
    else if op2.code.toByte.toNat > kpMaxSize then []
    else op2.data
  | _ => []

variable (currency : Currency)

/-- The first message of the outputs. -/
def firstKeokenData : List Output → DataChunk
  | [] => []
  | output :: outputs =>
    let keoData := getKeokenData (output.script.operations currency)
    if !keoData.isEmpty then keoData else firstKeokenData outputs

/-- The message of a transaction. -/
def firstKeokenOutput (tx : Transaction) : DataChunk := firstKeokenData currency tx.outputs

/-- Paid by each transaction. -/
def fees : UInt64 := 2000

/-- A message behind a return. -/
def createKeokenOutput (keokenMessage : DataChunk) : Output :=
  { value := 0
    script := .ofOperations [{ code := .return_ }, ofUncoded protocolName true,
      ofUncoded keokenMessage true] }

variable (hashes : StealthHashes) (curve : KeyArithmetic) (cashaddrPrefix : Text)

/-- Encodes a new asset. -/
def txEncodeCreateAsset (outputsToSpend : List Point) (assetOwner : PaymentAddress)
    (utxoSatoshis : UInt64) (assetName : DataChunk) (assetAmount : Int64)
    (locktime txVersion : UInt32) (scriptVersion : UInt8) :
    Except OutputFault (Except ErrorCode Transaction) :=
  let asset : CreateAsset := { name := assetName, amount := assetAmount }
  txEncode currency hashes curve cashaddrPrefix outputsToSpend [(assetOwner, utxoSatoshis - fees)]
    [createKeokenOutput asset.toData] locktime txVersion scriptVersion

/-- Encodes a transfer. -/
def txEncodeSendToken (outputsToSpend : List Point) (assetOwner : PaymentAddress)
    (utxoSatoshis : UInt64) (assetReceiver : PaymentAddress) (dust : UInt64) (assetId : UInt32)
    (assetAmount : Int64) (locktime txVersion : UInt32) (scriptVersion : UInt8) :
    Except OutputFault (Except ErrorCode Transaction) :=
  let sendTokens : SendTokens := { assetId, amount := assetAmount }
  txEncode currency hashes curve cashaddrPrefix outputsToSpend
    [(assetReceiver, dust), (assetOwner, utxoSatoshis - dust - fees)]
    [createKeokenOutput sendTokens.toData] locktime txVersion scriptVersion

variable {currency} {amount : Int64} {message : DataChunk} (scriptVersion : UInt8)

/-- A payment to a hash is no message. -/
theorem getKeokenData_paymentOutput (destiny : RawOutput) :
    getKeokenData ((paymentOutput scriptVersion destiny).script.operations currency) = [] := by
  unfold paymentOutput paymentOps
  simp only
  split_ifs with hver
  · have hops := @Script.operations_payKeyHash currency destiny.1.hash
    rw [payKeyHash] at hops
    rw [hops]
    rfl
  · rw [operations_toPayScriptHashPattern]
    rfl

theorem firstKeokenData_map_paymentOutput (destinations : List RawOutput) (outputs : List Output) :
    firstKeokenData currency (destinations.map (paymentOutput scriptVersion) ++ outputs) =
      firstKeokenData currency outputs := by
  induction destinations with
  | nil => rfl
  | cons destiny rest ih =>
    rw [map_cons, cons_append, firstKeokenData, getKeokenData_paymentOutput]
    exact ih

/-- The message of an output that was created is found in it. -/
theorem getKeokenData_createKeokenOutput (hmin : 4 ≤ message.length) (hmax : message.length ≤ 75) :
    getKeokenData ((createKeokenOutput message).script.operations currency) = message := by
  have hname : protocolName.length ≤ maxPushDataSize := by decide
  have hpush : message.length ≤ maxPushDataSize := hmax.trans (by decide)
  have hops : (createKeokenOutput message).script.operations currency =
      [{ code := .return_ }, nominalPush protocolName, nominalPush message] := by
    rw [createKeokenOutput, ofUncoded_of_two_le (by decide) hname,
      ofUncoded_of_two_le (by omega) hpush]
    apply operations_of_readable
    simp only [forall_mem_cons, not_mem_nil, false_implies, implies_true, and_true]
    exact ⟨readable_return, readable_nominalPush hname, readable_nominalPush hpush⟩
  have hcode : (nominalPush message).code.toByte.toNat = message.length := by
    simp only [nominalPush, opcodeFromSize, dif_pos hmax, Opcode.toByte]
    exact UInt8.toNat_ofNat_of_lt' (lt_of_le_of_lt hmax (by decide))
  have hlow : ¬ message.length < kpMinSize := not_lt.mpr hmin
  have hhigh : ¬ message.length > kpMaxSize := not_lt.mpr (hmax.trans (by decide))
  rw [hops]
  simp only [getKeokenData, hcode, hlow, hhigh, if_false]
  rfl

theorem firstKeokenData_createKeokenOutput (hmin : 4 ≤ message.length)
    (hmax : message.length ≤ 75) :
    firstKeokenData currency [createKeokenOutput message] = message := by
  have hne : message.isEmpty = false := by
    cases message with
    | nil => cases hmin
    | cons b rest => rfl
  rw [firstKeokenData, getKeokenData_createKeokenOutput hmin hmax, hne]
  rfl

/-- A difference that is not too great has not wrapped around. -/
theorem toNat_sub_of_le {a b : UInt64} {bound : Nat} (h : (a - b).toNat ≤ bound)
    (hbound : b.toNat + bound < 2 ^ 64) : b.toNat + (a - b).toNat = a.toNat := by
  have ha := a.toNat_lt
  rw [UInt64.toNat_sub] at h ⊢
  omega

theorem maxMoney_lt (currency : Currency) : currency.maxMoney true < 2 ^ 60 := by
  cases currency <;> decide

/-- The transaction leaves the fee of what it spends, and carries the message. -/
structure Carries (currency : Currency) (utxoSatoshis : UInt64) (message : DataChunk)
    (tx : Transaction) : Prop where
  balance : (tx.outputs.map fun output => output.value.toNat).sum + fees.toNat = utxoSatoshis.toNat
  message : firstKeokenOutput currency tx = message

variable {hashes curve cashaddrPrefix} {points : List Point} {owner : PaymentAddress}
  {utxo : UInt64} {locktime txVersion : UInt32} {scriptVersion : UInt8} {tx : Transaction}

theorem carries_createAsset {name : DataChunk} (hmax : name.length ≤ 32)
    (h : txEncodeCreateAsset currency hashes curve cashaddrPrefix points owner utxo name amount
      locktime txVersion scriptVersion = .ok (.ok tx)) :
    Carries currency utxo (CreateAsset.toData { name, amount }) tx := by
  obtain ⟨hpayable, -, rfl⟩ := txEncode_eq_ok_iff.mp h
  have hmoney := (hpayable _ mem_cons_self).1
  have hfees := toNat_sub_of_le hmoney
    (Nat.add_lt_add (by decide : fees.toNat < 2 ^ 60) (maxMoney_lt currency) |>.trans (by decide))
  have hlen := CreateAsset.length_toData { name, amount }
  refine ⟨?_, ?_⟩
  · simp [paymentOutput, createKeokenOutput]
    omega
  · rw [firstKeokenOutput, firstKeokenData_map_paymentOutput]
    exact firstKeokenData_createKeokenOutput (by omega) (by simp only at hlen; omega)

theorem carries_sendToken {receiver : PaymentAddress} {dust : UInt64} {assetId : UInt32}
    (h : txEncodeSendToken currency hashes curve cashaddrPrefix points owner utxo receiver dust
      assetId amount locktime txVersion scriptVersion = .ok (.ok tx)) :
    Carries currency utxo (SendTokens.toData { assetId, amount }) tx := by
  obtain ⟨hpayable, -, rfl⟩ := txEncode_eq_ok_iff.mp h
  have hdust := (hpayable _ mem_cons_self).1
  have hmoney := (hpayable _ (mem_cons_of_mem _ mem_cons_self)).1
  have hmax := maxMoney_lt currency
  have hfee : fees.toNat = 2000 := rfl
  simp only at hdust hmoney
  have hfees := toNat_sub_of_le hmoney (by omega)
  have hrest := @toNat_sub_of_le utxo dust (2000 + currency.maxMoney true) (by omega) (by omega)
  have hlen := SendTokens.length_toData { assetId, amount }
  refine ⟨?_, ?_⟩
  · simp [paymentOutput, createKeokenOutput]
    omega
  · rw [firstKeokenOutput, firstKeokenData_map_paymentOutput]
    exact firstKeokenData_createKeokenOutput (by omega) (by omega)

/-- Keoken transactions balance, and their message is extracted and decoded. -/
theorem keoken_transactions_carry (currency : Currency) (hashes : StealthHashes)
    (curve : KeyArithmetic) (cashaddrPrefix : Text) (points : List Point) (owner : PaymentAddress)
    (utxo : UInt64) (locktime txVersion : UInt32) (scriptVersion : UInt8) :
    (∀ (name : DataChunk) (amount : Int64) (tx : Transaction), 1 ≤ name.length →
      name.length ≤ 32 → (0 : UInt8) ∉ name →
      txEncodeCreateAsset currency hashes curve cashaddrPrefix points owner utxo name amount
        locktime txVersion scriptVersion = .ok (.ok tx) →
      let asset : CreateAsset := { name, amount }
      Carries currency utxo asset.toData tx ∧
        CreateAsset.factoryFromData (asset.toData.drop 4) = (true, asset)) ∧
    ∀ (receiver : PaymentAddress) (dust : UInt64) (assetId : UInt32) (amount : Int64)
      (tx : Transaction),
      txEncodeSendToken currency hashes curve cashaddrPrefix points owner utxo receiver dust assetId
        amount locktime txVersion scriptVersion = .ok (.ok tx) →
      let tokens : SendTokens := { assetId, amount }
      Carries currency utxo tokens.toData tx ∧
        SendTokens.factoryFromData (tokens.toData.drop 4) = (true, tokens) := by
  constructor
  · intro name amount tx hpos hmax hnull h
    exact ⟨carries_createAsset hmax h, CreateAsset.factoryFromData_toData hpos hmax hnull⟩
  · intro receiver dust assetId amount tx h
    exact ⟨carries_sendToken h, SendTokens.factoryFromData_toData _⟩

/-- Of an output of 10000 satoshis an asset is created, and tokens are sent with a dust of 600. -/
theorem keoken_transactions_carry_sample :
    let owner := sampleAddress (PaymentAddress.mainnetP2kh .bch)
    let name := toChunk "gold".toList
    (∃ tx, txEncodeCreateAsset .bch StealthSample.hashes arithmetic [] [spentPoint]
        owner 10000 name 21 0 1 defaultScriptVersion = .ok (.ok tx) ∧
      Carries .bch 10000 (CreateAsset.toData { name, amount := 21 }) tx ∧
      CreateAsset.factoryFromData ((CreateAsset.toData { name, amount := 21 }).drop 4) =
        (true, { name, amount := 21 })) ∧
    ∃ tx, txEncodeSendToken .bch StealthSample.hashes arithmetic [] [spentPoint] owner
        10000 owner 600 7 (-1) 0 1 defaultScriptVersion = .ok (.ok tx) ∧
      Carries .bch 10000 (SendTokens.toData { assetId := 7, amount := -1 }) tx := by
  intro owner name
  have hpayable : ∀ destiny ∈
      [((owner, 10000 - fees) : RawOutput), (owner, 600), (owner, 10000 - 600 - fees)],
      Payable .bch destiny := by
    simp only [forall_mem_cons, not_mem_nil, false_implies, implies_true, and_true]
    exact ⟨⟨by decide, sampleAddress_hash _⟩, ⟨by decide, sampleAddress_hash _⟩,
      ⟨by decide, sampleAddress_hash _⟩⟩
  obtain ⟨hasset, htokens⟩ := keoken_transactions_carry .bch StealthSample.hashes
    arithmetic [] [spentPoint] owner 10000 0 1 defaultScriptVersion
  constructor
  · have hencoded : txEncodeCreateAsset .bch StealthSample.hashes arithmetic []
        [spentPoint] owner 10000 name 21 0 1 defaultScriptVersion = .ok (.ok _) :=
      txEncode_eq_ok_iff.mpr ⟨forall_mem_singleton.mpr (hpayable _ mem_cons_self), rfl, rfl⟩
    exact ⟨_, hencoded, hasset name 21 _ (by decide) (by decide) (by decide) hencoded⟩
  · have hencoded : txEncodeSendToken .bch StealthSample.hashes arithmetic []
        [spentPoint] owner 10000 owner 600 7 (-1) 0 1 defaultScriptVersion = .ok (.ok _) :=
      txEncode_eq_ok_iff.mpr ⟨fun destiny h => hpayable destiny (mem_cons_of_mem _ h), rfl, rfl⟩
    exact ⟨_, hencoded, (htokens owner 600 7 (-1) _ hencoded).1⟩

end BitprimCore.Keoken
