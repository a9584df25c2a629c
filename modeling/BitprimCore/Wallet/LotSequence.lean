import BitprimCore.Math.KeyTable
import BitprimCore.Wallet.EncryptedKeysLayout

/-!
# The lot and sequence of a token

A token is to carry the lot and sequence it was made for. They are put together by a logical or, so
the word that the token carries only says whether one of them is not zero.
-/

namespace BitprimCore

open Bytes KeyEncryption Option ParseEncryptedToken

namespace KeyEncryption

variable {env : KeyEncryption} {passphrase : Text} {salt : EkSalt} {lot sequence : UInt32}
  {token : EncryptedToken}

theorem shiftLeft_eq_zero_iff (h : lot ≤ ekMaxLot) : lot <<< 12 = 0 ↔ lot = 0 := by
  have hbound : lot.toNat ≤ 1048575 := UInt32.le_iff_toNat_le.mp h
  have hval : (lot <<< 12).toNat = lot.toNat * 4096 := by
    rw [UInt32.toNat_shiftLeft, Nat.shiftLeft_eq]
    exact Nat.mod_eq_of_lt (by simp; omega)
  rw [← UInt32.toNat_inj, ← UInt32.toNat_inj, hval, UInt32.toNat_zero]
  omega

/-- The word is one, but for the first lot and sequence. -/
theorem lotSequenceWord_eq (h : lot ≤ ekMaxLot) :
    lotSequenceWord lot sequence = if lot = 0 ∧ sequence = 0 then 0 else 1 := by
  have hlot : (lot <<< 12 = 0) = (lot = 0) := propext (shiftLeft_eq_zero_iff h)
  by_cases hzero : lot = 0 ∧ sequence = 0
  · rw [if_pos hzero, hzero.1, hzero.2]
    rfl
  · rw [lotSequenceWord, if_neg hzero, if_pos]
    simp only [Bool.or_eq_true, bne_iff_ne, ne_eq, hlot]
    exact not_and_or.mp hzero

theorem split_lotEntropy (salt : EkSalt) (lot sequence : UInt32) :
    split 4 (lotEntropy salt lot sequence) = (salt, toBigEndian (lotSequenceWord lot sequence)) :=
  split_splice salt _

/-- The pair is only in the entropy. -/
theorem createTokenLot_eq (hlot : lot ≤ ekMaxLot) (hseq : sequence ≤ ekMaxSequence) :
    env.createTokenLot passphrase salt lot sequence =
      some (env.createTokenFrom passphrase salt.val (lotEntropy salt lot sequence)
        (prefixFactory true)) := by
  rw [createTokenLot, if_neg]
  simpa using And.intro hlot hseq

theorem bounds_of_createTokenLot {out : Option EncryptedToken}
    (h : env.createTokenLot passphrase salt lot sequence = some out) :
    lot ≤ ekMaxLot ∧ sequence ≤ ekMaxSequence := by
  by_contra hbounds
  rw [createTokenLot, if_pos] at h
  · cases h
  · simp only [Bool.or_eq_true, decide_eq_true_eq]
    exact (not_and_or.mp hbounds).imp UInt32.not_le.mp UInt32.not_le.mp

/-- A token is written if the factor has a public key, and parsed to the entropy it was made of. -/
theorem createTokenFrom_spec {ownerSalt : DataChunk} {entropy : EkEntropy} {lotSequence : Bool}
    (h : env.createTokenFrom passphrase ownerSalt entropy
      (prefixFactory lotSequence) = some token) :
    ∃ point, env.curve.secretToPublic
        (env.ownerFactor passphrase ownerSalt (ownerSalt.length == 4) entropy) = some point ∧
      parse env.hashes.toHashes token =
        ⟨true, if lotSequence then lotContext
          else defaultContext, entropy, point.val.getD 0 0, pointHash point⟩ := by
  obtain ⟨point, hpoint, htoken⟩ := bind_eq_some_iff.mp h
  obtain rfl := some.inj htoken
  exact ⟨point, hpoint, parse_build_point lotSequence entropy point _⟩

theorem entropy_of_createTokenLot
    (h : env.createTokenLot passphrase salt lot sequence = some (some token)) :
    (parse env.hashes.toHashes token).entropy = lotEntropy salt lot sequence := by
  obtain ⟨hlot, hseq⟩ := bounds_of_createTokenLot h
  rw [createTokenLot_eq hlot hseq] at h
  obtain ⟨point, -, hparse⟩ := createTokenFrom_spec (some.inj h)
  rw [hparse]

/-- A token that is made carries its salt, lot and sequence, and no other lot and sequence give it. -/
def CarriesLotSequence (env : KeyEncryption) (passphrase : Text) (salt : EkSalt)
    (lot sequence : UInt32) : Prop :=
  ∀ out, env.createTokenLot passphrase salt lot sequence = some out →
    ∃ token, out = some token ∧
      let halves := split 4 (parse env.hashes.toHashes token).entropy
      halves.1 = salt ∧
      (fromBigEndian halves.2).toNat = lot.toNat * 4096 + sequence.toNat ∧
      ∀ lot' sequence', (lot', sequence') ≠ (lot, sequence) →
        env.createTokenLot passphrase salt lot' sequence' ≠ some (some token)

/-- What the token carries is the word. -/
theorem value_of_createTokenLot
    (h : env.createTokenLot passphrase salt lot sequence = some (some token)) :
    fromBigEndian (split 4 (parse env.hashes.toHashes token).entropy).2 =
      if lot = 0 ∧ sequence = 0 then 0 else 1 := by
  rw [entropy_of_createTokenLot h, split_lotEntropy, fromBigEndian_toBigEndian,
    lotSequenceWord_eq (bounds_of_createTokenLot h).1]

/-- The token is written if the factor has a public key. -/
theorem createTokenFrom_isSome (salt : EkSalt) (entropy : EkEntropy) (prefixBytes : Bytes 8) :
    (env.createTokenFrom passphrase salt.val entropy prefixBytes).isSome =
      (env.curve.secretToPublic (env.ownerFactor passphrase salt.val true entropy)).isSome := by
  have hlen : (salt.val.length == 4) := beq_iff_eq.mpr salt.2
  rw [createTokenFrom, hlen]
  cases env.curve.secretToPublic (env.ownerFactor passphrase salt.val true entropy) <;> rfl

/-- The token carries its lot and sequence for the first of both only, and if it is written: success
is also returned where the factor has no public key. -/
theorem carriesLotSequence_iff (hlot : lot ≤ ekMaxLot) (hsequence : sequence ≤ ekMaxSequence) :
    env.CarriesLotSequence passphrase salt lot sequence ↔
      (lot = 0 ∧ sequence = 0) ∧
        (env.curve.secretToPublic
          (env.ownerFactor passphrase salt.val true (salt.splice (toBigEndian 0)))).isSome := by
  constructor
  · intro hcarries
    obtain ⟨token, htoken, -, hvalue, hothers⟩ := hcarries _ (createTokenLot_eq hlot hsequence)
    have hcreated : env.createTokenLot passphrase salt lot sequence = some (some token) := by
      rw [createTokenLot_eq hlot hsequence, htoken]
    rw [value_of_createTokenLot hcreated] at hvalue
    by_cases hzero : lot = 0 ∧ sequence = 0
    · refine ⟨hzero, ?_⟩
      obtain ⟨rfl, rfl⟩ := hzero
      have hwritten : (env.createTokenFrom passphrase salt.val (lotEntropy salt 0 0)
          (prefixFactory true)).isSome := by
        rw [htoken]
        rfl
      rwa [createTokenFrom_isSome] at hwritten
    · -- the word is one, so this is the second sequence, and the third has the same word
      rw [if_neg hzero] at hvalue
      have hthird : (lot, sequence) ≠ (0, 2) := by
        rintro ⟨⟩
        cases hvalue
      have hcollides : env.createTokenLot passphrase salt 0 2 = some (some token) := by
        rw [createTokenLot_eq (by decide) (by decide), lotEntropy, lotSequenceWord_eq (by decide),
          if_neg (by decide), ← htoken, lotEntropy, lotSequenceWord_eq hlot, if_neg hzero]
      exact absurd hcollides (hothers 0 2 hthird.symm)
  · rintro ⟨⟨rfl, rfl⟩, hpoint⟩ out hout
    rw [createTokenLot_eq hlot hsequence] at hout
    have hwritten : (env.createTokenFrom passphrase salt.val (lotEntropy salt 0 0)
        (prefixFactory true)).isSome := by
      rw [createTokenFrom_isSome]
      exact hpoint
    obtain ⟨token, htoken⟩ := isSome_iff_exists.mp hwritten
    have hcreated : env.createTokenLot passphrase salt 0 0 = some (some token) := by
      rw [createTokenLot_eq hlot hsequence, htoken]
    refine ⟨token, (some.inj hout).symm.trans htoken, ?_, ?_, ?_⟩
    · rw [entropy_of_createTokenLot hcreated, split_lotEntropy]
    · rw [value_of_createTokenLot hcreated]
      rfl
    · intro lot' sequence' hother hcreated'
      have hvalue := (value_of_createTokenLot hcreated).symm.trans (value_of_createTokenLot hcreated')
      rw [if_pos ⟨rfl, rfl⟩, if_neg (by rintro ⟨rfl, rfl⟩; exact hother rfl)] at hvalue
      cases hvalue

end KeyEncryption

namespace LotSample

def passphrase : Text := "MOLON LABE".toList

def salt : EkSalt := ofNat 4 0x4fca5a97

/-- What scrypt makes of the passphrase and the salt. -/
def derived : Bytes 32 :=
  ofNat 32 0x7f5aee1a080d9e84f4ddf31f8b78356f472c03ac95bff320789d50137e66f279

/-- The factor of the entropy that is one, and its point. -/
def factor : EcSecret := ofNat 32 0x849626a773c5ebd698557fd4c6048df2321e320fc58159c71b803d758eb32081

def point : EcCompressed :=
  ofNat 33 0x02e38738490f61f574caad531ed1b56dab693ecdac967ba7988b4500e3a641b245

/-- The factor of the entropy that is zero, and its point. -/
def firstFactor : EcSecret :=
  ofNat 32 0x58d5fadb84e512b826da530d3513320139a16e4b5a374c86e09f5ab277feb3f3

def firstPoint : EcCompressed :=
  ofNat 33 0x030acae22f4a60a24622e3862c3eb3f6f0392a62e6e2b5ed0d4b92172eff8fa783

def table : KeyTable where
  keys := [(factor, point), (firstFactor, firstPoint)]
  single := by decide

def env : KeyEncryption where
  curve := table.curve
  hashes :=
    { Hashes.ofSha256 with
      hmacSha512Hash := fun _ _ => ⟨List.replicate 64 0, by decide⟩
      scrypt := fun size _ _ _ _ _ =>
        ⟨(derived.val ++ List.replicate size 0).take size, by simp⟩ }
  aes256Encrypt _ block := block
  aes256Decrypt _ block := block
  toNormalNfcForm := id

end LotSample

open LotSample

theorem carriesLotSequence_iff_first : env.CarriesLotSequence passphrase salt 0 0 :=
  (carriesLotSequence_iff (by decide) (by decide)).mpr ⟨⟨rfl, rfl⟩, by decide +kernel⟩

/-- Two lots have the token of one passphrase and salt, and it carries neither of them. -/
theorem lot_sequence_lost :
    (∃ token, env.createTokenLot passphrase salt 263183 1 = some (some token) ∧
      env.createTokenLot passphrase salt 263184 2 = some (some token)) ∧
      ¬ env.CarriesLotSequence passphrase salt 263183 1 := by
  have hwritten : (env.createTokenLot passphrase salt 263183 1).join.isSome := by
    decide +kernel
  obtain ⟨token, htoken⟩ := isSome_iff_exists.mp hwritten
  have hcreated := join_eq_some_iff.mp htoken
  have hword : lotSequenceWord 263184 2 = lotSequenceWord 263183 1 := by
    decide
  constructor
  · refine ⟨token, hcreated, ?_⟩
    rw [createTokenLot_eq (by decide) (by decide)] at hcreated ⊢
    rw [lotEntropy, hword]
    exact hcreated
  · intro hcarries
    obtain ⟨token', htoken', -, hvalue, -⟩ := hcarries _ hcreated
    obtain rfl := some.inj htoken'
    rw [value_of_createTokenLot hcreated] at hvalue
    cases hvalue

end BitprimCore
