import BitprimCore.Config.Output
import BitprimCore.Wallet.StealthPayment

/-!
# Encoding of transactions

The transaction that pays amounts to addresses (`wallet/transaction_functions`). Each address goes
by way of its text, as a setting, and comes back with its version and its hash. A version that is
the one of scripts makes the output pay to a script hash, and every other version to a key hash.
-/

namespace BitprimCore

open List PaymentAddress Script StealthSample

/-- The lock time has no effect. -/
def Transaction.isLocktimeConflict (tx : Transaction) : Bool :=
  tx.locktime != 0 && tx.allInputsFinal

namespace Wallet

/-- An address and an amount (`raw_output`). -/
abbrev RawOutput := PaymentAddress × UInt64

/-- The operations that pay to a hash. Only one version is that of scripts. -/
def paymentOps (version scriptVersion : UInt8) (hash : ShortHash) : List Operation :=
  if version ≠ scriptVersion then toPayKeyHashPattern hash.val
  else toPayScriptHashPattern hash.val

/-- Add the outputs of a target; `none` is the failure. -/
def pushScripts (outputs : List Output) (output : ConfigOutput) (scriptVersion : UInt8) :
    Option (List Output) :=
  -- explicit script
  if !output.isStealth && output.script.valid then
    some (outputs ++ [{ value := output.amount, script := output.script.toScript }])
  -- If it's not explicit the script must be a form of pay to short hash.
  else if output.payToHash = nullShortHash then none
  else
    let ops := paymentOps output.version scriptVersion output.payToHash
    -- If stealth add null data stealth output immediately before payment.
    let outputs :=
      if output.isStealth then outputs ++ [{ value := 0, script := output.script.toScript }]
      else outputs
    some (outputs ++ [{ value := output.amount, script := .ofOperations ops }])

variable (currency : Currency) (hashes : StealthHashes) (curve : KeyArithmetic)
  (cashaddrPrefix : Text)

/-- The text that a destination is read from. -/
def destinyString (destiny : RawOutput) : Text :=
  destiny.1.encoded hashes.toHashes ++ ':' :: Base10.insertNumber destiny.2.toNat

/-- The outputs of all destinations; `none` is a failure. -/
def pushDestinations (scriptVersion : UInt8) : List Output → List RawOutput →
    Except OutputFault (Option (List Output))
  | outputs, [] => .ok (some outputs)
  | outputs, destiny :: rest => do
    let output ← ConfigOutput.parse currency hashes curve cashaddrPrefix (destinyString hashes destiny)
    match pushScripts outputs output scriptVersion with
    | none => return none
    | some outputs => pushDestinations scriptVersion outputs rest

/-- The input of a point; all else is the default (`config::input`). -/
def inputOfPoint (point : Point) : Input :=
  { previousOutput := { toPoint := point }, sequence := maxInputSequence }

/-- A text that is not read throws. -/
def txEncode (outputsToSpend : List Point) (destinyAndAmount : List RawOutput)
    (extraOutputs : List Output) (locktime txVersion : UInt32) (scriptVersion : UInt8) :
    Except OutputFault (Except ErrorCode Transaction) := do
  match ← pushDestinations currency hashes curve cashaddrPrefix scriptVersion [] destinyAndAmount with
  | none => return .error .invalidOutput
  | some outputs =>
    let tx : Transaction :=
      { version := txVersion
        locktime
        inputs := outputsToSpend.map inputOfPoint
        outputs := outputs ++ extraOutputs }
    return if tx.isLocktimeConflict then .error .lockTimeConflict else .ok tx

/-- The output of a destination. -/
def paymentOutput (scriptVersion : UInt8) (destiny : RawOutput) : Output :=
  { value := destiny.2
    script := .ofOperations (paymentOps destiny.1.version scriptVersion destiny.1.hash) }

/-- A destination that can be paid: the amount is one that exists and the hash is not null. -/
def Payable (destiny : RawOutput) : Prop :=
  destiny.2.toNat ≤ currency.maxMoney true ∧ destiny.1.hash ≠ nullShortHash

variable {currency hashes curve cashaddrPrefix} {scriptVersion : UInt8}

theorem pushScripts_payment (outputs : List Output) (destiny : RawOutput) :
    pushScripts outputs
        { amount := destiny.2, version := destiny.1.version, payToHash := destiny.1.hash }
        scriptVersion =
      if destiny.1.hash = nullShortHash then none
      else some (outputs ++ [paymentOutput scriptVersion destiny]) := by
  simp [pushScripts, paymentOutput]

/-- All destinations are paid, in their order, when they can be. -/
theorem pushDestinations_eq_some_iff (outputs pushed : List Output)
    (destinations : List RawOutput) :
    pushDestinations currency hashes curve cashaddrPrefix scriptVersion outputs destinations =
        .ok (some pushed) ↔
      (∀ destiny ∈ destinations, Payable currency destiny) ∧
        pushed = outputs ++ destinations.map (paymentOutput scriptVersion) := by
  induction destinations generalizing outputs with
  | nil =>
    simp only [pushDestinations, Except.ok.injEq, Option.some.injEq, map_nil, append_nil,
      not_mem_nil, false_imp_iff, implies_true, true_and]
    exact eq_comm
  | cons destiny rest ih =>
    rw [forall_mem_cons, map_cons, and_assoc]
    by_cases hmoney : destiny.2.toNat > currency.maxMoney true
    · have hpayable : ¬ Payable currency destiny := fun h => not_lt.mpr h.1 hmoney
      simp [pushDestinations, destinyString, ConfigOutput.parse_encoded, hmoney, hpayable, bind,
        Except.bind]
    · by_cases hhash : destiny.1.hash = nullShortHash
      · have hpayable : ¬ Payable currency destiny := fun h => h.2 hhash
        have hfail : pushDestinations currency hashes curve cashaddrPrefix scriptVersion outputs
            (destiny :: rest) = .ok none := by
          simp only [pushDestinations, destinyString, ConfigOutput.parse_encoded, hmoney, if_false,
            bind, Except.bind, pushScripts_payment, if_pos hhash, pure, Except.pure]
        simp [hfail, hpayable]
      · have hpayable : Payable currency destiny := ⟨not_lt.mp hmoney, hhash⟩
        have hstep : pushDestinations currency hashes curve cashaddrPrefix scriptVersion outputs
            (destiny :: rest) = pushDestinations currency hashes curve cashaddrPrefix scriptVersion
              (outputs ++ [paymentOutput scriptVersion destiny]) rest := by
          simp only [pushDestinations, destinyString, ConfigOutput.parse_encoded, hmoney, if_false,
            bind, Except.bind, pushScripts_payment, hhash]
        rw [hstep, ih, append_assoc, singleton_append]
        exact (and_iff_right hpayable).symm

variable {tx : Transaction} {points : List Point}

theorem isLocktimeConflict_iff (h : tx.inputs = points.map inputOfPoint) :
    tx.isLocktimeConflict ↔ tx.locktime ≠ 0 := by
  have hfinal : tx.allInputsFinal := by
    rw [Transaction.allInputsFinal, h, all_map, all_eq_true]
    intro point _
    rfl
  rw [Transaction.isLocktimeConflict, hfinal, Bool.and_true, bne_iff_ne]

/-- A transaction is encoded just when all destinations can be paid and there is no locktime, and
then its outputs are those of the destinations and the extra ones. -/
theorem txEncode_eq_ok_iff {destinations : List RawOutput} {extraOutputs : List Output}
    {locktime txVersion : UInt32} :
    txEncode currency hashes curve cashaddrPrefix points destinations extraOutputs locktime txVersion
        scriptVersion = .ok (.ok tx) ↔
      (∀ destiny ∈ destinations, Payable currency destiny) ∧ locktime = 0 ∧
        tx = { version := txVersion, locktime, inputs := points.map inputOfPoint
               outputs := destinations.map (paymentOutput scriptVersion) ++ extraOutputs } := by
  have hpaid := @pushDestinations_eq_some_iff currency hashes curve cashaddrPrefix scriptVersion []
  have hunpaid : (∀ pushed, pushDestinations currency hashes curve cashaddrPrefix scriptVersion []
      destinations ≠ .ok (some pushed)) → ¬ ∀ destiny ∈ destinations, Payable currency destiny :=
    fun hnone hall => hnone _ ((hpaid _ destinations).mpr ⟨hall, rfl⟩)
  unfold txEncode
  cases hpush : pushDestinations currency hashes curve cashaddrPrefix scriptVersion []
      destinations with
  | error fault =>
    have hnot := hunpaid fun pushed => by simp [hpush]
    exact iff_of_false (by rintro ⟨⟩) fun h => hnot h.1
  | ok result =>
    cases result with
    | none =>
      have hnot := hunpaid fun pushed => by simp [hpush]
      exact iff_of_false (by rintro ⟨⟩) fun h => hnot h.1
    | some pushed =>
      obtain ⟨hall, hpushed⟩ := (hpaid pushed destinations).mp hpush
      rw [nil_append] at hpushed
      simp only [bind, Except.bind, pure, Except.pure, Except.ok.injEq, hpushed]
      rw [and_iff_right hall]
      split_ifs with hconflict
      · have hlock := (isLocktimeConflict_iff rfl).mp hconflict
        simpa using fun h _ => hlock h
      · have hlock : locktime = 0 := by
          by_contra hne
          exact hconflict ((isLocktimeConflict_iff rfl).mpr hne)
        rw [and_iff_right hlock, Except.ok.injEq]
        exact eq_comm

/-- The version is one of scripts. -/
def IsScriptAddress (address : PaymentAddress) : Prop :=
  address.version = mainnetP2sh ∨ address.version = testnetP2sh

instance (address : PaymentAddress) : Decidable (IsScriptAddress address) :=
  inferInstanceAs (Decidable (_ ∨ _))

/-- An address of a network, for a key hash or a script hash that is not null. -/
structure OfKnownVersion (currency : Currency) (address : PaymentAddress) : Prop where
  valid : address.valid = true
  hash : address.hash ≠ nullShortHash
  version : address.version = mainnetP2kh currency ∨
    address.version = testnetP2kh ∨ IsScriptAddress address

/-- The script that pays to an address. -/
def addressScript (address : PaymentAddress) : Script :=
  .ofOperations (if IsScriptAddress address then toPayScriptHashPattern address.hash.val
    else toPayKeyHashPattern address.hash.val)

/-- The transaction spends the points, pays the destinations and then has the extra outputs. -/
structure PaysAsAsked (points : List Point) (destinations : List RawOutput)
    (extraOutputs : List Output) (tx : Transaction) : Prop where
  outputs : tx.outputs = destinations.map
    (fun destiny => { value := destiny.2, script := addressScript destiny.1 }) ++ extraOutputs
  inputs : tx.inputs.map (fun input => input.previousOutput.toPoint) = points

/-- The version of scripts that is used when none is given. -/
def defaultScriptVersion : UInt8 := 5

/-- The two kinds of scripts start with different operations. -/
theorem toPayKeyHashPattern_ne (hash : DataChunk) :
    ofOperations (toPayKeyHashPattern hash) ≠ ofOperations (toPayScriptHashPattern hash) := by
  intro h
  have hhead := congrArg (fun script : Script => script.bytes.head?) h
  change some (0x76 : UInt8) = some 0xa9 at hhead
  exact absurd hhead (by decide)

theorem paymentOutput_eq_iff {destiny : RawOutput} :
    paymentOutput defaultScriptVersion destiny =
        { value := destiny.2, script := addressScript destiny.1 } ↔
      destiny.1.version ≠ testnetP2sh := by
  obtain ⟨⟨valid, version, hash⟩, amount⟩ := destiny
  have hdefault : defaultScriptVersion = mainnetP2sh := rfl
  simp only [paymentOutput, paymentOps, addressScript, Output.mk.injEq, true_and, and_true, hdefault]
  by_cases hmain : version = mainnetP2sh
  · have hscript : IsScriptAddress ⟨valid, version, hash⟩ := .inl hmain
    rw [if_neg (not_not.mpr hmain), if_pos hscript, hmain]
    exact iff_of_true rfl (by decide)
  · by_cases htest : version = testnetP2sh
    · have hscript : IsScriptAddress ⟨valid, version, hash⟩ := .inr htest
      rw [if_pos hmain, if_pos hscript]
      exact iff_of_false (toPayKeyHashPattern_ne _) (not_not.mpr htest)
    · have hkey : ¬ IsScriptAddress ⟨valid, version, hash⟩ := not_or.mpr ⟨hmain, htest⟩
      rw [if_pos hmain, if_neg hkey]
      exact iff_of_true rfl htest

/-- Destinations are paid as asked unless one of them is a script address of the test network. -/
theorem tx_encode_pays_iff (currency : Currency) (hashes : StealthHashes) (curve : KeyArithmetic)
    (cashaddrPrefix : Text) (points : List Point) (destinations : List RawOutput)
    (hknown : ∀ destiny ∈ destinations, OfKnownVersion currency destiny.1)
    (extraOutputs : List Output) (locktime txVersion : UInt32) :
    (∀ tx, txEncode currency hashes curve cashaddrPrefix points destinations extraOutputs locktime
        txVersion defaultScriptVersion = .ok (.ok tx) →
      PaysAsAsked points destinations extraOutputs tx) ↔
      (∃ destiny ∈ destinations, currency.maxMoney true < destiny.2.toNat) ∨ locktime ≠ 0 ∨
        ∀ destiny ∈ destinations, destiny.1.version ≠ testnetP2sh := by
  have hasked : ∀ {tx : Transaction}, tx.inputs = points.map inputOfPoint →
      tx.outputs = destinations.map (paymentOutput defaultScriptVersion) ++ extraOutputs →
      (PaysAsAsked points destinations extraOutputs tx ↔
        ∀ destiny ∈ destinations, destiny.1.version ≠ testnetP2sh) := by
    intro tx hinputs houtputs
    have hpoints : tx.inputs.map (fun input => input.previousOutput.toPoint) = points := by
      rw [hinputs, map_map]
      exact map_id points
    calc PaysAsAsked points destinations extraOutputs tx
        ↔ tx.outputs = destinations.map (fun destiny =>
            { value := destiny.2, script := addressScript destiny.1 }) ++ extraOutputs :=
          ⟨fun h => h.outputs, fun h => ⟨h, hpoints⟩⟩
      _ ↔ ∀ destiny ∈ destinations, paymentOutput defaultScriptVersion destiny =
            { value := destiny.2, script := addressScript destiny.1 } := by
          rw [houtputs, append_cancel_right_eq, map_inj_left]
      _ ↔ ∀ destiny ∈ destinations, destiny.1.version ≠ testnetP2sh := by
          simp only [paymentOutput_eq_iff]
  constructor
  · intro h
    by_cases hmoney : ∃ destiny ∈ destinations, currency.maxMoney true < destiny.2.toNat
    · exact .inl hmoney
    · refine .inr (or_iff_not_imp_left.mpr fun hlocktime => ?_)
      have hpayable : ∀ destiny ∈ destinations, Payable currency destiny := by
        intro destiny hdestiny
        refine ⟨?_, (hknown destiny hdestiny).hash⟩
        by_contra hlt
        exact hmoney ⟨destiny, hdestiny, not_le.mp hlt⟩
      exact (hasked rfl rfl).mp (h _ (txEncode_eq_ok_iff.mpr ⟨hpayable, not_not.mp hlocktime, rfl⟩))
  · rintro h tx htx
    obtain ⟨hpayable, hlocktime, rfl⟩ := txEncode_eq_ok_iff.mp htx
    obtain ⟨destiny, hdestiny, hlt⟩ | hne | hversions := h
    · exact absurd (hpayable destiny hdestiny).1 (not_le.mpr hlt)
    · exact absurd hlocktime hne
    · exact (hasked rfl rfl).mpr hversions

/-- A point and an address of a hash that is not null. -/
def spentPoint : Point := ⟨nullHash, 0⟩

def sampleAddress (version : UInt8) : PaymentAddress :=
  ⟨true, version, List.replicate 20 1, by simp⟩

theorem sampleAddress_hash (version : UInt8) : (sampleAddress version).hash ≠ nullShortHash := by
  intro h
  have hbytes : replicate 20 (1 : UInt8) = replicate 20 0 := congrArg Subtype.val h
  exact absurd hbytes (by decide)

/-- A key address and a script address of the main network. -/
def mainnetDestinations : List RawOutput :=
  [(sampleAddress (mainnetP2kh .btc), 1), (sampleAddress mainnetP2sh, 2)]

theorem tx_encode_pays_mainnet :
    (∀ destiny ∈ mainnetDestinations, OfKnownVersion .btc destiny.1) ∧
      ∀ tx, txEncode .btc StealthSample.hashes arithmetic [] [spentPoint]
          mainnetDestinations [] 0 1 defaultScriptVersion = .ok (.ok tx) →
        PaysAsAsked [spentPoint] mainnetDestinations [] tx := by
  have hknown : ∀ destiny ∈ mainnetDestinations, OfKnownVersion .btc destiny.1 := by
    intro destiny hdestiny
    obtain rfl | hdestiny := mem_cons.mp hdestiny
    · exact ⟨rfl, sampleAddress_hash _, .inl rfl⟩
    · obtain rfl := mem_singleton.mp hdestiny
      exact ⟨rfl, sampleAddress_hash _, .inr (.inr (.inl rfl))⟩
  refine ⟨hknown, ?_⟩
  exact (tx_encode_pays_iff .btc StealthSample.hashes arithmetic [] [spentPoint]
    mainnetDestinations hknown [] 0 1).mpr (.inr (.inr (by decide)))

/-- A script address of the test network gets the script of a key hash. -/
theorem tx_encode_testnet_script :
    let destiny : RawOutput := (sampleAddress testnetP2sh, 1)
    OfKnownVersion .btc destiny.1 ∧
      ∃ tx, txEncode .btc StealthSample.hashes arithmetic [] [spentPoint] [destiny] []
          0 1 defaultScriptVersion = .ok (.ok tx) ∧
        tx.outputs = [{ value := 1
                        script := .ofOperations (toPayKeyHashPattern destiny.1.hash.val) }] ∧
        ¬ PaysAsAsked [spentPoint] [destiny] [] tx := by
  intro destiny
  have hknown : OfKnownVersion .btc destiny.1 := ⟨rfl, sampleAddress_hash _, .inr (.inr (.inr rfl))⟩
  have hpayable : ∀ other ∈ [destiny], Payable .btc other := by
    intro other hother
    obtain rfl := mem_singleton.mp hother
    exact ⟨by decide, sampleAddress_hash _⟩
  refine ⟨hknown, _, txEncode_eq_ok_iff.mpr ⟨hpayable, rfl, rfl⟩, rfl, ?_⟩
  intro hpays
  have houtput : paymentOutput defaultScriptVersion destiny =
      { value := destiny.2, script := addressScript destiny.1 } := (List.cons.inj hpays.outputs).1
  exact paymentOutput_eq_iff.mp houtput rfl

end Wallet

end BitprimCore
