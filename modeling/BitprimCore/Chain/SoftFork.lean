import BitprimCore.Chain.Endorsement
import BitprimCore.Chain.Verification
import BitprimCore.Utility.Data

/-!
# Soft forks

The script rules that are deployed as soft forks, and verification with more of them active.
-/

namespace BitprimCore

open Bytes Interpreter Option RuleFork

/-- Which script rules are added; the three witness rules are one deployment. -/
structure SoftForks where
  bip16 : Bool
  bip65 : Bool
  bip66 : Bool
  bip112 : Bool
  segwit : Bool

namespace SoftForks

/-- The fork, if it is added. -/
def flag (added : Bool) (fork : UInt32) : UInt32 := if added then fork else noRules

/-- The fork flags of the added rules. -/
def flags (added : SoftForks) : UInt32 :=
  flag added.bip16 bip16Rule ||| flag added.bip65 bip65Rule |||
    flag added.bip66 bip66Rule ||| flag added.bip112 bip112Rule |||
    flag added.segwit bip9Bit1Group

/-- The forks with the added rules. -/
def addTo (added : SoftForks) (forks : UInt32) : UInt32 := forks ||| added.flags

end SoftForks

section

variable (added : SoftForks) (forks : UInt32)

theorem isEnabled_addTo (fork : UInt32) :
    isEnabled (added.addTo forks) fork = (isEnabled forks fork || isEnabled added.flags fork) :=
  isEnabled_or forks added.flags fork

theorem isEnabled_flags :
    isEnabled added.flags bip16Rule = added.bip16 ∧
      isEnabled added.flags bip141Rule = added.segwit ∧
      isEnabled added.flags bip143Rule = added.segwit ∧
      isEnabled added.flags bip147Rule = added.segwit := by
  obtain ⟨bip16, bip65, bip66, bip112, segwit⟩ := added
  revert bip16 bip65 bip66 bip112 segwit
  decide

/-- The added rules restrict evaluation; for a witness script the signature hash must not change. -/
theorem restricts_addTo {version : ScriptVersion} (h : version = .unversioned ∨
      (added.segwit → isEnabled forks bip143Rule)) :
    Restricts version forks (added.addTo forks) where
  bip65 henabled := by simp [isEnabled_addTo, henabled]
  bip66 henabled := by simp [isEnabled_addTo, henabled]
  bip112 henabled := by simp [isEnabled_addTo, henabled]
  bip147 henabled := by simp [isEnabled_addTo, henabled]
  bip143 := by
    refine h.imp_right fun hsegwit => ?_
    rw [isEnabled_addTo, (isEnabled_flags added).2.2.1]
    cases hadded : added.segwit with
    | false => simp
    | true => simp [hsegwit hadded]

end

/-- A run is followed by what comes next exactly when it has succeeded. -/
theorem bind_run_eq_success_iff {outcome : Outcome}
    {next : ErrorCode × Program → Option ErrorCode} :
    (outcome.bind fun ran => if ran.1 ≠ .success then some ran.1 else next ran) = some .success ↔
      ∃ p, outcome = some (.success, p) ∧ next (.success, p) = some .success := by
  rcases outcome with _ | ⟨result, p⟩
  · simp
  · by_cases hres : result = .success <;> simp [hres]

/-- A stack result is followed by what comes next exactly when it is true. -/
theorem bind_stackResult_eq_success_iff {result : Option Bool} {next : Option ErrorCode} :
    (result.bind fun value => if (!value) = true then some .stackFalse else next) = some .success ↔
      result = some true ∧ next = some .success := by
  rcases result with _ | _ | _ <;> simp

namespace Witness

/-- A witness verifies exactly when its version is reserved, or when the evaluation of the extracted
script leaves a single true element. -/
theorem verify_eq_success_iff {env : Env} {witness : Witness} {tx : Transaction}
    {inputIndex forks : UInt32} {programScript : Script} {value : UInt64} :
    witness.verify env tx inputIndex forks programScript value = some .success ↔
      programScript.version env.currency = .reserved ∨
        programScript.version env.currency = .zero ∧ ∃ script stack p,
          witness.extractEmbeddedScript env programScript = some (script, stack) ∧
          run env { script, transaction := tx, inputIndex, forks, value, version := .zero }
            (.ofStack stack.reverse) = some (.success, p) ∧
          p.stackResult true = some true := by
  unfold Witness.verify
  cases programScript.version env.currency with
  | reserved => simp
  | unversioned => simp
  | zero =>
    cases witness.extractEmbeddedScript env programScript with
    | none => simp
    | some pair =>
      obtain ⟨script, stack⟩ := pair
      simp only [bind_eq_bind, pure_def, bind_run_eq_success_iff]
      constructor
      · rintro ⟨p, hrun, hres⟩
        refine .inr ⟨trivial, script, stack, p, rfl, hrun, ?_⟩
        cases hstack : p.stackResult true with
        | none => simp [hstack] at hres
        | some value => cases value <;> simp [hstack] at hres ⊢
      · rintro (hver | ⟨-, _, _, p, hextract, hrun, hstack⟩)
        · cases hver
        · cases hextract
          exact ⟨p, hrun, by simp [hstack]⟩

end Witness

namespace Script

variable {env : Env} {tx : Transaction} {inputIndex forks : UInt32} {inputScript : Script}
  {inputWitness : Witness} {prevoutScript : Script} {value : UInt64}

/-- What is asked of the witness behind a script that may be a witness program. -/
def WitnessAsked (env : Env) (tx : Transaction) (inputIndex forks : UInt32) (inputWitness : Witness)
    (programScript : Script) (value : UInt64) (clean : Bool) : Prop :=
  if programScript.isPayToWitness env.currency forks then
    clean = true ∧ inputWitness.verify env tx inputIndex forks programScript value = some .success
  else inputWitness.isEmpty = true

variable {p input : Program} {script : Script}

theorem verifyEmbedded_eq_success_iff :
    verifyEmbedded env tx inputIndex forks inputScript inputWitness input value = some .success ↔
      isRelaxedPush (inputScript.operations env.currency) ∧ ∃ encoded rest embedded,
        input.pop = some (encoded, rest) ∧
        run env (.unversioned ⟨encoded⟩ tx inputIndex forks) (.ofStack rest.primary) =
          some (.success, embedded) ∧
        embedded.stackResult false = some true ∧
        WitnessAsked env tx inputIndex forks inputWitness ⟨encoded⟩ value
          (inputScript.size env.currency == 1) := by
  unfold verifyEmbedded verifyPopped WitnessAsked
  cases isRelaxedPush (inputScript.operations env.currency) with
  | false => simp
  | true =>
    rcases input.pop with _ | ⟨encoded, rest⟩
    · simp
    · simp only [bind_eq_bind, pure_def, bind_some, bind_run_eq_success_iff,
        bind_stackResult_eq_success_iff, Bool.not_true, Bool.false_eq_true, if_false, true_and,
        Option.some.injEq, Prod.mk.injEq]
      constructor
      · rintro ⟨embedded, hrun, htrue, hrest⟩
        refine ⟨encoded, rest, embedded, ⟨rfl, rfl⟩, hrun, htrue, ?_⟩
        split_ifs at hrest ⊢ <;> simp_all
      · rintro ⟨_, _, embedded, ⟨rfl, rfl⟩, hrun, htrue, hrest⟩
        refine ⟨embedded, hrun, htrue, ?_⟩
        split_ifs at hrest ⊢ <;> simp_all

theorem verify_eq_success_iff :
    verify env tx inputIndex forks inputScript inputWitness prevoutScript value = some .success ↔
      ∃ input prevout,
        run env (.unversioned inputScript tx inputIndex forks) (.ofStack []) =
          some (.success, input) ∧
        run env (.unversioned prevoutScript tx inputIndex forks) (.ofStack input.primary) =
          some (.success, prevout) ∧
        prevout.stackResult false = some true ∧
        if prevoutScript.isPayToWitness env.currency forks then
          inputScript.isEmpty env.currency ∧
            inputWitness.verify env tx inputIndex forks prevoutScript value = some .success
        else if prevoutScript.isPayToScriptHash env.currency forks then
          verifyEmbedded env tx inputIndex forks inputScript inputWitness input value = some .success
        else inputWitness.isEmpty := by
  unfold verify
  simp only [bind_eq_bind, pure_def, bind_run_eq_success_iff, bind_stackResult_eq_success_iff]
  constructor
  · rintro ⟨input, hinput, prevout, hprevout, htrue, hrest⟩
    refine ⟨input, prevout, hinput, hprevout, htrue, ?_⟩
    split_ifs at hrest ⊢ <;> simp_all
  · rintro ⟨input, prevout, hinput, hprevout, htrue, hrest⟩
    refine ⟨input, hinput, prevout, hprevout, htrue, ?_⟩
    split_ifs at hrest ⊢ <;> simp_all

/-- The evaluations that verification comes to: of the input script, of the script of the previous
output and, where it asks for them, of the embedded script and of the witness script. -/
inductive Evaluates (env : Env) (tx : Transaction) (inputIndex forks : UInt32) (inputScript : Script)
    (inputWitness : Witness) (prevoutScript : Script) (value : UInt64) : Context → Program → Prop
  | input :
      Evaluates env tx inputIndex forks inputScript inputWitness prevoutScript value
        (.unversioned inputScript tx inputIndex forks) (.ofStack [])
  | prevout {input : Program}
      (hinput : run env (.unversioned inputScript tx inputIndex forks) (.ofStack []) =
        some (.success, input)) :
      Evaluates env tx inputIndex forks inputScript inputWitness prevoutScript value
        (.unversioned prevoutScript tx inputIndex forks) (.ofStack input.primary)
  | embedded {input rest : Program} {encoded : DataChunk}
      (hinput : run env (.unversioned inputScript tx inputIndex forks) (.ofStack []) =
        some (.success, input))
      (hpattern : prevoutScript.isPayToScriptHash env.currency forks = true)
      (hpop : input.pop = some (encoded, rest)) :
      Evaluates env tx inputIndex forks inputScript inputWitness prevoutScript value
        (.unversioned ⟨encoded⟩ tx inputIndex forks) (.ofStack rest.primary)
  | witness {script : Script} {stack : List DataChunk}
      (hpattern : prevoutScript.isPayToWitness env.currency forks = true)
      (hextract : inputWitness.extractEmbeddedScript env prevoutScript = some (script, stack)) :
      Evaluates env tx inputIndex forks inputScript inputWitness prevoutScript value
        { script, transaction := tx, inputIndex, forks, value, version := .zero }
        (.ofStack stack.reverse)
  | embeddedWitness {input rest : Program} {encoded : DataChunk} {script : Script}
      {stack : List DataChunk}
      (hinput : run env (.unversioned inputScript tx inputIndex forks) (.ofStack []) =
        some (.success, input))
      (hpattern : prevoutScript.isPayToScriptHash env.currency forks = true)
      (hpop : input.pop = some (encoded, rest))
      (hwitness : isPayToWitness env.currency ⟨encoded⟩ forks = true)
      (hextract : inputWitness.extractEmbeddedScript env ⟨encoded⟩ = some (script, stack)) :
      Evaluates env tx inputIndex forks inputScript inputWitness prevoutScript value
        { script, transaction := tx, inputIndex, forks, value, version := .zero }
        (.ofStack stack.reverse)

/-- The witness as forks without witness rules see it. -/
def visibleWitness (forks : UInt32) (witness : Witness) : Witness :=
  if isEnabled forks bip141Rule then witness else {}

variable {added : SoftForks}

/-- Where the witness is seen already, no more outputs pay to a witness. -/
theorem isPayToWitness_addTo (added : SoftForks) (currency : Currency) (script : Script)
    (hforks : isEnabled forks bip141Rule) :
    script.isPayToWitness currency (added.addTo forks) = script.isPayToWitness currency forks := by
  simp [isPayToWitness, isEnabled_addTo, hforks]

theorem isPayToScriptHash_addTo (added : SoftForks) (currency : Currency) (script : Script)
    (hbip16 : added.bip16 → isEnabled forks bip16Rule) :
    script.isPayToScriptHash currency (added.addTo forks) =
      script.isPayToScriptHash currency forks := by
  simp only [isPayToScriptHash, isEnabled_addTo, (isEnabled_flags added).1]
  cases hadded : added.bip16 with
  | false => simp
  | true => simp [hbip16 hadded]

/-- A witness program has two operations, a script that pays to a script hash three. -/
theorem isPayToWitness_of_isPayToScriptHash {currency : Currency} {forks : UInt32} (forks' : UInt32)
    (h : script.isPayToScriptHash currency forks) :
    script.isPayToWitness currency forks' = false := by
  have hpattern : isPayScriptHashPattern (script.operations currency) :=
    (Bool.and_eq_true_iff.mp h).2
  have hprogram : isWitnessProgramPattern (script.operations currency) = false := by
    unfold isPayScriptHashPattern at hpattern
    split at hpattern
    · rename_i hops
      rw [hops]
      rfl
    · cases hpattern
  rw [isPayToWitness, hprogram, Bool.and_false]

/-- The dummy rule is new only if the segregated witness rules are. -/
theorem nullDummies_or_of_addTo {ctx : Context}
    (hdummies : added.segwit → isEnabled forks bip147Rule = false → NullDummies env ctx p) :
    isEnabled (added.addTo forks) bip147Rule = isEnabled forks bip147Rule ∨
      NullDummies env ctx p := by
  rw [isEnabled_addTo, (isEnabled_flags added).2.2.2]
  cases hsegwit : added.segwit with
  | false => exact .inl (by simp)
  | true =>
    cases hforks : isEnabled forks bip147Rule with
    | true => exact .inl rfl
    | false => exact .inr (hdummies hsegwit hforks)

/-- An evaluation whose dummy elements agree and that succeeds under the added rules. -/
theorem run_of_addTo (hlax : env.LaxExtendsStrict) {q : Program}
    (hdummies : isEnabled (added.addTo forks) bip147Rule = isEnabled forks bip147Rule ∨
      NullDummies env (.unversioned script tx inputIndex (added.addTo forks)) p)
    (hrun : run env (.unversioned script tx inputIndex (added.addTo forks)) p =
      some (.success, q)) :
    run env (.unversioned script tx inputIndex forks) p = some (.success, q) :=
  run_withForks (.unversioned script tx inputIndex 0) hlax
    (restricts_addTo added forks (.inl rfl)) hdummies hrun

theorem verifyWitness_of_addTo (hlax : env.LaxExtendsStrict)
    (hbip143 : added.segwit → isEnabled forks bip143Rule)
    (hdummies : ∀ script stack,
      inputWitness.extractEmbeddedScript env prevoutScript = some (script, stack) →
        isEnabled (added.addTo forks) bip147Rule = isEnabled forks bip147Rule ∨
          NullDummies env
            { script, transaction := tx, inputIndex, forks := added.addTo forks, value,
              version := .zero } (.ofStack stack.reverse))
    (hverify : inputWitness.verify env tx inputIndex (added.addTo forks) prevoutScript value =
      some .success) :
    inputWitness.verify env tx inputIndex forks prevoutScript value = some .success := by
  rw [Witness.verify_eq_success_iff] at hverify ⊢
  refine hverify.imp_right ?_
  rintro ⟨hver, script, stack, p, hextract, hrun, hres⟩
  refine ⟨hver, script, stack, p, hextract, ?_, hres⟩
  exact run_withForks
    { script, transaction := tx, inputIndex, forks := 0, value, version := .zero } hlax
    (restricts_addTo added forks (.inr hbip143)) (hdummies script stack hextract) hrun

/-- What is asked of the witness is given under fewer rules, where it may not be seen. -/
theorem witnessAsked_of_addTo {clean : Bool}
    (hverify : isEnabled forks bip141Rule →
      prevoutScript.isPayToWitness env.currency (added.addTo forks) →
      inputWitness.verify env tx inputIndex (added.addTo forks) prevoutScript value = some .success →
        inputWitness.verify env tx inputIndex forks prevoutScript value = some .success)
    (hasked : WitnessAsked env tx inputIndex (added.addTo forks) inputWitness prevoutScript value
      clean) :
    WitnessAsked env tx inputIndex forks (visibleWitness forks inputWitness) prevoutScript value
      clean := by
  unfold WitnessAsked visibleWitness at *
  cases hforks : isEnabled forks bip141Rule with
  | false =>
    simp only [isPayToWitness, hforks, Bool.false_and, Bool.false_eq_true, if_false]
    rfl
  | true =>
    rw [isPayToWitness_addTo _ _ _ hforks] at hasked hverify
    simp only [if_true]
    split_ifs at hasked ⊢ with hwitness
    · exact ⟨hasked.1, hverify hforks hwitness hasked.2⟩
    · exact hasked

theorem verifyEmbedded_of_addTo (hlax : env.LaxExtendsStrict)
    (hdummies : ∀ encoded rest, input.pop = some (encoded, rest) →
      isEnabled (added.addTo forks) bip147Rule = isEnabled forks bip147Rule ∨
        NullDummies env (.unversioned ⟨encoded⟩ tx inputIndex (added.addTo forks))
          (.ofStack rest.primary)) (hwitness : ∀ encoded rest, input.pop = some (encoded, rest) →
      isEnabled forks bip141Rule →
      isPayToWitness env.currency ⟨encoded⟩ (added.addTo forks) →
      inputWitness.verify env tx inputIndex (added.addTo forks) ⟨encoded⟩ value = some .success →
        inputWitness.verify env tx inputIndex forks ⟨encoded⟩ value = some .success)
    (hverify : verifyEmbedded env tx inputIndex (added.addTo forks) inputScript inputWitness input
      value = some .success) :
    verifyEmbedded env tx inputIndex forks inputScript (visibleWitness forks inputWitness) input
      value = some .success := by
  obtain ⟨hpush, encoded, rest, embedded, hpop, hrun, htrue, hasked⟩ :=
    verifyEmbedded_eq_success_iff.mp hverify
  exact verifyEmbedded_eq_success_iff.mpr ⟨hpush, encoded, rest, embedded, hpop,
    run_of_addTo hlax (hdummies encoded rest hpop) hrun, htrue,
    witnessAsked_of_addTo (hwitness encoded rest hpop) hasked⟩

/-- Added script rules only restrict spending. Where the witness is already seen, the script hash
rule must not be new, since it makes a witness expected, nor the signature hash of witness scripts;
and of a multisig that pushes its result no dummy element may be rejected for the first time. -/
theorem softForks_restrict (hlax : env.LaxExtendsStrict)
    (hbip16 : isEnabled forks bip141Rule = true → added.bip16 = true →
      isEnabled forks bip16Rule = true)
    (hbip143 : isEnabled forks bip141Rule = true → added.segwit = true →
      isEnabled forks bip143Rule = true)
    (hdummies : added.segwit = true → isEnabled forks bip147Rule = false →
      ∀ ctx p, Evaluates env tx inputIndex (added.addTo forks) inputScript inputWitness prevoutScript
        value ctx p → NullDummies env ctx p)
    (hverify : verify env tx inputIndex (added.addTo forks) inputScript inputWitness prevoutScript
      value = some .success) :
    verify env tx inputIndex forks inputScript (visibleWitness forks inputWitness) prevoutScript
      value = some .success := by
  have hagree : ∀ ctx p, Evaluates env tx inputIndex (added.addTo forks) inputScript inputWitness
      prevoutScript value ctx p →
        isEnabled (added.addTo forks) bip147Rule = isEnabled forks bip147Rule ∨
          NullDummies env ctx p := by
    intro ctx p hevaluates
    exact nullDummies_or_of_addTo fun hsegwit hforks => hdummies hsegwit hforks ctx p hevaluates
  obtain ⟨input, prevout, hinput, hprevout, htrue, hrest⟩ := verify_eq_success_iff.mp hverify
  refine verify_eq_success_iff.mpr ⟨input, prevout, run_of_addTo hlax (hagree _ _ .input) hinput,
    run_of_addTo hlax (hagree _ _ (.prevout hinput)) hprevout, htrue, ?_⟩
  have hembedded : prevoutScript.isPayToScriptHash env.currency (added.addTo forks) →
      verifyEmbedded env tx inputIndex (added.addTo forks) inputScript inputWitness input value =
        some .success →
      verifyEmbedded env tx inputIndex forks inputScript (visibleWitness forks inputWitness) input
        value = some .success := by
    intro hpattern
    refine verifyEmbedded_of_addTo hlax
      (fun encoded rest hpop => hagree _ _ (.embedded hinput hpattern hpop))
      fun encoded rest hpop hforks hwitness => ?_
    exact verifyWitness_of_addTo hlax (hbip143 hforks) fun script stack hextract =>
      hagree _ _ (.embeddedWitness hinput hpattern hpop hwitness hextract)
  cases hforks : isEnabled forks bip141Rule with
  | true =>
    have hseen : visibleWitness forks inputWitness = inputWitness := by
      simp [visibleWitness, hforks]
    have hwitness := isPayToWitness_addTo added env.currency prevoutScript hforks
    have hscriptHash := isPayToScriptHash_addTo added env.currency prevoutScript (hbip16 hforks)
    rw [hwitness, hscriptHash] at hrest
    split_ifs at hrest ⊢ with hpayWitness hpayScriptHash
    · rw [hseen]
      refine ⟨hrest.1, verifyWitness_of_addTo hlax (hbip143 hforks) (fun script stack hextract =>
        hagree _ _ (.witness (hwitness.trans hpayWitness) hextract)) hrest.2⟩
    · exact hembedded (hscriptHash.trans hpayScriptHash) hrest
    · rw [hseen]
      exact hrest
  | false =>
    have hpayWitness : prevoutScript.isPayToWitness env.currency forks = false := by
      simp [isPayToWitness, hforks]
    rw [hpayWitness]
    simp only [Bool.false_eq_true, if_false]
    split_ifs with hpayScriptHash
    · -- the script hash rule was active before, and the output is no witness program
      have hactive : isEnabled forks bip16Rule := (Bool.and_eq_true_iff.mp hpayScriptHash).1
      have hpayScriptHash' := isPayToScriptHash_addTo added env.currency prevoutScript
        fun _ => hactive
      rw [isPayToWitness_of_isPayToScriptHash _ hpayScriptHash, hpayScriptHash', hpayScriptHash]
        at hrest
      exact hembedded (hpayScriptHash'.trans hpayScriptHash) (by simpa using hrest)
    · simp only [visibleWitness, hforks, Bool.false_eq_true, if_false]
      rfl

section

/-- Signatures are valid for witness scripts only. The short hash is that of the one script that is
hashed, `1 [0101]`. -/
def versionedEnv : Env where
  currency := .btc
  hashes :=
    { Hashes.ofSha256 with
      ripemd160Hash _ := ofNat 20 0x5461c9b6ed228ca3dea69cd1eeeeeba89ee460af }
  parseDer _ der := some der
  checkSignature _ _ _ _ _ _ version _ := version == .zero

/-- The output pays to the script hash of `1 [0101]`, itself a witness program. -/
def nestedScript : Script := ⟨(ofNat 23 0xa9145461c9b6ed228ca3dea69cd1eeeeeba89ee460af87).val⟩

/-- The output pays to the witness script hash of `[02] checksig`. -/
def witnessScript : Script :=
  ⟨(ofNat 34 0x0020f3fc465f9d33a93a2cc982b211e4b8cdc4232d54f07336605ef68df7a9ee8253).val⟩

/-- The output script `1 0 0 checkmultisig not`. -/
def dummyScript : Script := ⟨[0x51, 0x00, 0x00, 0xae, 0x91]⟩

theorem versionedEnv_lax : versionedEnv.LaxExtendsStrict :=
  fun _ _ h => h

/-- Three outputs that cannot be spent before rules are added and can be spent after: the script hash
rule makes a witness expected, the signature hash of witness scripts changes, and a multisig whose
dummy element is rejected is inverted. -/
theorem softForks_make_spendable :
    versionedEnv.LaxExtendsStrict ∧
      (let added : SoftForks := ⟨true, false, false, false, false⟩
        let spend forks := verify versionedEnv twoOfTwoContext.transaction 0 forks
          ⟨[0x04, 0x51, 0x02, 0x01, 0x01]⟩ (visibleWitness forks ⟨[[0x01]]⟩) nestedScript 0
        spend (added.addTo bip141Rule) = some .success ∧
          spend RuleFork.bip141Rule = some .unexpectedWitness) ∧
      (let added : SoftForks := ⟨false, false, false, false, true⟩
        let spend forks := verify versionedEnv twoOfTwoContext.transaction 0 forks {}
          (visibleWitness forks ⟨[[0x30, 0x01], [0x01, 0x02, 0xac]]⟩) witnessScript 0
        spend (added.addTo bip141Rule) = some .success ∧
          spend RuleFork.bip141Rule = some .stackFalse) ∧
      let added : SoftForks := ⟨false, false, false, false, true⟩
      let spend forks := verify versionedEnv twoOfTwoContext.transaction 0 forks {} {} dummyScript 0
      spend (added.addTo 0) = some .success ∧ spend 0 = some .stackFalse := by
  refine ⟨versionedEnv_lax, ⟨?_, ?_⟩, ⟨?_, ?_⟩, ?_, ?_⟩
  all_goals decide +kernel

/-! ### A multisig in a witness

Two keys sign an input for a two-of-two script. The output pays to the hash of the witness program of
that script. -/

/-- A key and the numbers of its signature. -/
structure Signer where
  key : Bytes 33
  r : Bytes 32
  s : Bytes 32

namespace Signer

/-- The scalars, as the library keeps them. -/
def signature (signer : Signer) : EcSignature := signer.r.val.reverse ++ signer.s.val.reverse

/-- The DER form of the scalars. -/
def der (signer : Signer) : DataChunk :=
  0x30 :: 0x44 :: 0x02 :: 0x20 :: signer.r.val ++ 0x02 :: 0x20 :: signer.s.val

end Signer

/-- Two keys that sign. -/
def signers : List Signer :=
  [⟨ofNat 33 0x034ea70b28d607bf3a2493102001cab35689cf2152530bf8bf8a5b594af6ae31d0,
      ofNat 32 0x5f76be8d94394d0220bf22502e46d03275c43294572849e3aac3916eafb53761,
      ofNat 32 0x4da862e35a0404298efb2336f8f68786efb51ccce6730260557aad6d74f43dcb⟩,
    ⟨ofNat 33 0x03d5b3853bbee336b551ff999b0b1d656e65a7649037ae0dcb02b3c4ff5f29e5be,
      ofNat 32 0x0391e6b9238a120bb35100e7cb8736a66181e5425fbebc3c94694e2b9003e82a,
      ofNat 32 0x2c4b527c1408e447df2f3a1f2058e494f1a20570d2a3d778063d34b3e126fa91⟩]

/-- `2 [key] [key] 2 checkmultisig`. -/
def multisigScript : Script :=
  ⟨0x52 :: (signers.flatMap fun signer => 0x21 :: signer.key.val) ++ [0x52, 0xae]⟩

/-- The witness program of the script. -/
def multisigProgram : DataChunk := 0x00 :: 0x20 :: (Sha256.hash multisigScript.bytes).val

/-- The values of the hash functions and of the curve that the input needs. -/
def multisigEnv : Env :=
  .ofCurve .btc
    { Hashes.ofSha256 with
      ripemd160Hash := fun _ => ofNat 20 0xedb929d0cc4cbd8ac08ce207315e10582d4dc7bd }
    { secretToPublic := fun _ => none
      decompress := fun _ => none
      sign := fun _ _ => none
      encodeSignature := fun _ => none
      parseDer := fun _ der => (signers.find? fun signer => signer.der = der).map Signer.signature
      verifySignature := fun key digest signature =>
        digest = ofNat 32 0x79046d69a987ad3d93b6995f75279cc0f5f31b15f2b6900607943caf9b718093 ∧
          ∃ signer ∈ signers, signer.key.val = key ∧ signer.signature = signature }

def multisigInput : Script := ⟨0x22 :: multisigProgram⟩

def multisigPrevout : Script := ⟨(ofNat 23 0xa914edb929d0cc4cbd8ac08ce207315e10582d4dc7bd87).val⟩

/-- The dummy element, the endorsements and the script. -/
def multisigWitness : Witness :=
  ⟨[] :: signers.map (fun signer => signer.der ++ [0x01]) ++ [multisigScript.bytes]⟩

/-- Spends the output. -/
def multisigTransaction : Transaction where
  version := 1
  locktime := 0
  inputs :=
    [{ previousOutput :=
        { hash := ofNat 32 0xb3807042c92f449bbf79b33ca59d7dfec7f4cc71096704a9c526dddf496ee097
          index := 1 }
       script := multisigInput
       witness := multisigWitness
       sequence := 0xffffffff }]
  outputs :=
    [{ value := 90000
       script := ⟨(ofNat 25 0x76a91418c0bd8d1818f1bf99cb1df2269c645318ef7b7388ac).val⟩ }]

/-- Witnesses are seen and script hashes known before the other rules. -/
def witnessForks : UInt32 := bip16Rule ||| bip141Rule ||| bip143Rule

/-- All rules are added. -/
private def allAdded : SoftForks := ⟨true, true, true, true, true⟩

private theorem nullDummies_multisig {ctx : Context} {p : Program}
    (h : Evaluates multisigEnv multisigTransaction 0 (allAdded.addTo witnessForks) multisigInput
      multisigWitness multisigPrevout 100000 ctx p) : NullDummies multisigEnv ctx p := by
  have hrun : run multisigEnv (.unversioned multisigInput multisigTransaction 0
      (allAdded.addTo witnessForks)) (.ofStack []) =
        some (.success, .ofStack [multisigProgram]) := by
    decide +kernel
  have hpopped : (Program.ofStack [multisigProgram]).pop = some (multisigProgram, .ofStack []) := rfl
  have hscript : multisigWitness.extractEmbeddedScript multisigEnv ⟨multisigProgram⟩ =
      some (multisigScript, [] :: signers.map fun signer => signer.der ++ [0x01]) := by
    decide +kernel
  apply nullDummies_of_visits
  cases h with
  | input => decide +kernel
  | prevout hinput =>
    cases hrun.symm.trans hinput
    decide +kernel
  | embedded hinput _ hpop =>
    cases hrun.symm.trans hinput
    cases hpopped.symm.trans hpop
    decide +kernel
  | witness hpattern _ => exact absurd hpattern (by decide +kernel)
  | embeddedWitness hinput _ hpop _ hextract =>
    cases hrun.symm.trans hinput
    cases hpopped.symm.trans hpop
    cases hscript.symm.trans hextract
    decide +kernel

/-- The input is spent under all rules, and under those before. -/
theorem softForks_restrict_multisig :
    verify multisigEnv multisigTransaction 0 (allAdded.addTo witnessForks) multisigInput
        multisigWitness multisigPrevout 100000 = some .success ∧
      verify multisigEnv multisigTransaction 0 witnessForks multisigInput
        (visibleWitness witnessForks multisigWitness) multisigPrevout 100000 = some .success := by
  have hverify : verify multisigEnv multisigTransaction 0 (allAdded.addTo witnessForks)
      multisigInput multisigWitness multisigPrevout 100000 = some .success := by decide +kernel
  exact ⟨hverify, softForks_restrict (fun _ _ h => h) (by decide) (by decide)
    (fun _ _ _ _ h => nullDummies_multisig h) hverify⟩

end

end Script

end BitprimCore
