import BitprimCore.Wallet.HdKey

/-!
# The text of extended keys

A key is read without a look at its checksum, at the byte in front of the secret, or at what follows
a null. So the text of the key that was read is the text it was read from only if these are as they
are written.
-/

namespace BitprimCore

open HdKey HdPrivate List

namespace HdKey

variable (key : HdKey) (prefixes : UInt64)

/-- The fields of a key, in their order. -/
theorem cut_eq :
    FixedLayout.cut [4, 1, 4, 4, 32, 33, 4] key.val =
      (key.lineage prefixes).fields key.version ++ [key.chain.val, key.point.val, key.val.drop 78] := by
  have hdepth : (key.val.drop 4).take 1 = [key.val.getD 4 0] := Bytes.take_one_drop key (by decide)
  have hsum : (key.val.drop 78).take 4 = key.val.drop 78 := by
    apply take_of_length_le
    rw [length_drop, key.2]
  simp only [FixedLayout.cut, drop_drop, Nat.reduceAdd, hdepth, hsum, HdLineage.fields,
    lineage, version, Bytes.toBigEndian_fromBigEndian]
  rfl

/-- What the checksum is made of. -/
theorem take_eq :
    key.val.take 78 =
      ((key.lineage prefixes).fields key.version ++ [key.chain.val, key.point.val]).flatten := by
  have hkey : (FixedLayout.cut [4, 1, 4, 4, 32, 33, 4] key.val).flatten = key.val :=
    FixedLayout.flatten_cut key.2
  have hsplit : ((key.lineage prefixes).fields key.version ++
      [key.chain.val, key.point.val]).flatten ++ key.val.drop 78 = key.val := by
    rw [cut_eq key prefixes] at hkey
    simpa using hkey
  exact append_cancel_right ((take_append_drop 78 key.val).trans hsplit.symm)

/-- The byte in front of the secret and the secret take the place of a point. -/
theorem point_eq : key.point.val = key.padding :: key.secret.val := by
  have hpadding : (key.val.drop 45).take 1 = [key.padding] := Bytes.take_one_drop key (by decide)
  have hpoint : (key.val.drop 45).take (1 + 32) =
      (key.val.drop 45).take 1 ++ ((key.val.drop 45).drop 1).take 32 := take_add
  rw [hpadding, drop_drop] at hpoint
  exact hpoint

/-- Writing a key again gives the key if its checksum is right, for the same key bytes. -/
theorem build_eq_iff (hashes : Hashes) (key : HdKey) (prefixes : UInt64) (point : Bytes 33) :
    (build hashes (key.lineage prefixes) key.version key.chain point).val = key.val ↔
      hashes.verifyChecksum key.val ∧ point = key.point := by
  have hlen : key.val.length - 4 = 78 := by rw [key.2]
  rw [Hashes.verifyChecksum_iff (by rw [key.2]; decide), hlen, take_eq key prefixes]
  constructor
  · intro hbuild
    set front := (key.lineage prefixes).fields key.version
    have hkey : (front ++ [key.chain.val, key.point.val]).flatten ++ key.val.drop 78 = key.val := by
      rw [← take_eq key prefixes, take_append_drop]
    have hlengths : (front ++ [key.chain.val, point.val]).flatten.length =
        (front ++ [key.chain.val, key.point.val]).flatten.length := by
      simp [point.2, key.point.2]
    have hbody := (append_inj (hbuild.trans hkey.symm) hlengths).1
    have hpoint : point = key.point := by
      simp only [flatten_append, flatten_cons, flatten_nil, append_nil] at hbody
      exact Subtype.ext (append_cancel_left (append_cancel_left hbody))
    subst hpoint
    exact ⟨hbuild, rfl⟩
  · rintro ⟨hsum, rfl⟩
    exact hsum

end HdKey

theorem HdPublic.toPrefix_toUInt64 (version : UInt32) :
    HdPublic.toPrefix version.toUInt64 = version := by
  have hlt := version.toNat_lt
  apply UInt32.toNat_inj.mp
  rw [HdPublic.toPrefix, UInt64.toNat_toUInt32, UInt64.toNat_and, UInt32.toNat_toUInt64]
  have hmask : (0x00000000ffffffff : UInt64).toNat = 2 ^ 32 - 1 := rfl
  rw [hmask, Nat.and_two_pow_sub_one_eq_mod, Nat.mod_mod, Nat.mod_eq_of_lt hlt]

theorem HdPrivate.toPrefix_toPrefixes (privatePrefix publicPrefix : UInt32) :
    toPrefix (toPrefixes privatePrefix publicPrefix) = privatePrefix := by
  have hprivate := privatePrefix.toNat_lt
  have hpublic := publicPrefix.toNat_lt
  have hshift : (privatePrefix.toUInt64 <<< 32).toNat = privatePrefix.toNat <<< 32 := by
    rw [UInt64.toNat_shiftLeft, UInt32.toNat_toUInt64]
    refine Nat.mod_eq_of_lt ?_
    rw [Nat.shiftLeft_eq]
    change privatePrefix.toNat * 2 ^ 32 < 2 ^ 64
    omega
  apply UInt32.toNat_inj.mp
  rw [toPrefix, toPrefixes, UInt64.toNat_toUInt32, UInt64.toNat_shiftRight,
    UInt64.toNat_or, hshift, UInt32.toNat_toUInt64, ← Nat.shiftLeft_add_eq_or_of_lt hpublic]
  change (privatePrefix.toNat <<< 32 + publicPrefix.toNat) >>> 32 % 2 ^ 32 = _
  rw [Nat.shiftRight_eq_div_pow, Nat.shiftLeft_eq]
  omega

/-- The text of a valid key is the text it was read from. -/
def HdPublic.ReadsBack (hashes : Hashes) (key : HdPublic) (text : Text) : Prop :=
  key.valid = true → key.encoded hashes = text

def HdPrivate.ReadsBack {curve : KeyArithmetic} (hashes : Hashes)
    (key : HdPrivate curve.toEllipticCurve) (text : Text) : Prop :=
  key.valid = true → key.encoded hashes = text

/-- The text has no null, and the key has its checksum. -/
structure HdKey.Sealed (hashes : Hashes) (text : Text) (key : HdKey) : Prop where
  noNull : '\x00' ∉ text
  checksum : hashes.verifyChecksum key.val = true

section

variable {hashes : Hashes} {text : Text} {key : HdKey}

/-- What is written again is the text if it is what was read, without a null. -/
theorem HdKey.encode_build_iff (h : decodeBase58Array 82 text = some key) (prefixes : UInt64)
    (point : Bytes 33) :
    encodeBase58 (build hashes (key.lineage prefixes) key.version key.chain point).val = text ↔
      key.Sealed hashes text ∧ point = key.point := by
  rw [encodeBase58_eq_iff h, build_eq_iff]
  constructor
  · rintro ⟨hnull, hsum, hpoint⟩
    exact ⟨⟨hnull, hsum⟩, hpoint⟩
  · rintro ⟨⟨hnull, hsum⟩, hpoint⟩
    exact ⟨hnull, hsum, hpoint⟩

theorem HdPublic.readsBack_fromKeyVersion (h : decodeBase58Array 82 text = some key)
    (version : UInt32) :
    (HdPublic.fromKeyVersion key version).ReadsBack hashes text ↔
      (key.version = version → key.Sealed hashes text) := by
  by_cases hver : key.version = version
  · subst hver
    have hencoded : (HdPublic.fromKeyVersion key key.version).encoded hashes =
        encodeBase58 (build hashes (key.lineage key.version.toUInt64) key.version key.chain
          key.point).val := by
      rw [HdPublic.fromKeyVersion, if_neg (not_not.mpr rfl), HdPublic.encoded, HdPublic.toHdKey]
      change encodeBase58 (build hashes _ (HdPublic.toPrefix key.version.toUInt64) _ _).val = _
      rw [HdPublic.toPrefix_toUInt64]
    have hvalid : (HdPublic.fromKeyVersion key key.version).valid := by
      rw [HdPublic.fromKeyVersion, if_neg (not_not.mpr rfl)]
    rw [HdPublic.ReadsBack, hencoded, encode_build_iff h]
    simp [hvalid]
  · have hinvalid : HdPublic.fromKeyVersion key version = {} := if_pos hver
    rw [HdPublic.ReadsBack, hinvalid]
    simp [hver]

variable {curve : KeyArithmetic}

theorem HdKey.splice_eq_point_iff (key : HdKey) :
    Bytes.splice (Bytes.toArray 0x00) key.secret = key.point ↔ key.padding = 0 := by
  rw [← Subtype.val_inj, point_eq]
  change 0 :: key.secret.val = _ ↔ _
  rw [List.cons.injEq, eq_comm]
  exact and_iff_left rfl

/-- A key with a point is valid, and holds what it was made of. -/
theorem HdPrivate.ofSecret_valid_iff (secret : EcSecret) (chain : Bytes 32) (lineage : HdLineage) :
    (ofSecret curve secret chain lineage).valid ↔ (curve.secretToPublic secret).isSome := by
  change (HdPublic.fromSecret curve.toEllipticCurve secret chain lineage).valid = true ↔ _
  unfold HdPublic.fromSecret
  cases curve.secretToPublic secret <;> simp

theorem HdPrivate.toHdKey_ofSecret {secret : EcSecret} {chain : Bytes 32} {lineage : HdLineage}
    (h : (curve.secretToPublic secret).isSome) :
    (ofSecret curve secret chain lineage).toHdKey hashes =
      build hashes lineage (toPrefix lineage.prefixes) chain
        (Bytes.splice (Bytes.toArray 0x00) secret) := by
  obtain ⟨point, hpoint⟩ := Option.isSome_iff_exists.mp h
  have hpublic : (ofSecret curve secret chain lineage).toHdPublic =
      ⟨true, chain, lineage, point⟩ := by
    change HdPublic.fromSecret curve.toEllipticCurve secret chain lineage = _
    rw [HdPublic.fromSecret, hpoint]
  rw [toHdKey, hpublic]
  rfl

theorem HdPrivate.readsBack_fromKeyPrefixes (h : decodeBase58Array 82 text = some key)
    (prefixes : UInt64) :
    (fromKeyPrefixes curve key prefixes).ReadsBack hashes text ↔
      (key.version = toPrefix prefixes → (curve.secretToPublic key.secret).isSome →
        key.Sealed hashes text ∧ key.padding = 0) := by
  by_cases hver : key.version = toPrefix prefixes
  · have hkey : fromKeyPrefixes curve key prefixes =
        ofSecret curve key.secret key.chain (key.lineage prefixes) :=
      if_neg (not_not.mpr hver)
    rw [hkey, HdPrivate.ReadsBack, ofSecret_valid_iff, imp_iff_right hver]
    refine imp_congr_right fun hpoint => ?_
    rw [encoded, toHdKey_ofSecret hpoint]
    change encodeBase58 (build hashes _ (toPrefix prefixes) _ _).val = text ↔ _
    rw [← hver, encode_build_iff h, splice_eq_point_iff]
  · have hkey : fromKeyPrefixes curve key prefixes = invalid curve :=
      if_pos hver
    constructor
    · exact fun _ hequal => absurd hequal hver
    · intro _ hvalid
      rw [hkey] at hvalid
      cases hvalid

end

/-- The text of the key that was read from a text is the text, if and only if no null ends the text
early, the checksum is that of the key and, for a private key, the byte in front of the secret is
zero. -/
theorem hd_text_iff (curve : KeyArithmetic) (hashes : Hashes) (text : Text) :
    (∀ prefixes, (fromStringPrefixes curve text prefixes).ReadsBack hashes text ↔
      ∀ key : HdKey, decodeBase58Array 82 text = some key →
        key.version = toPrefix prefixes → (curve.secretToPublic key.secret).isSome = true →
          key.Sealed hashes text ∧ key.padding = 0) ∧
    (∀ publicPrefix, (fromString curve text publicPrefix).ReadsBack hashes text ↔
      ∀ key : HdKey, decodeBase58Array 82 text = some key →
        (curve.secretToPublic key.secret).isSome = true → key.Sealed hashes text ∧ key.padding = 0) ∧
    (∀ version, (HdPublic.fromStringVersion text version).ReadsBack hashes text ↔
      ∀ key : HdKey, decodeBase58Array 82 text = some key → key.version = version →
        key.Sealed hashes text) ∧
    ((HdPublic.fromString text).ReadsBack hashes text ↔
      ∀ key : HdKey, decodeBase58Array 82 text = some key → key.Sealed hashes text) := by
  cases hdecode : decodeBase58Array 82 text with
  | none =>
    have hprivate : (invalid curve).ReadsBack hashes text := nofun
    have hpublic : HdPublic.ReadsBack hashes {} text := nofun
    simp only [fromStringPrefixes, fromString, HdPublic.fromStringVersion,
      HdPublic.fromString, hdecode, hprivate, hpublic, true_iff]
    exact ⟨nofun, nofun, nofun, nofun⟩
  | some key =>
    simp only [fromStringPrefixes, fromString, HdPublic.fromStringVersion,
      HdPublic.fromString, hdecode, Option.some.injEq, forall_eq']
    refine ⟨fun prefixes => readsBack_fromKeyPrefixes hdecode prefixes, ?_, ?_, ?_⟩
    · intro publicPrefix
      rw [fromKey, readsBack_fromKeyPrefixes hdecode, toPrefix_toPrefixes]
      exact imp_iff_right rfl
    · exact fun version => HdPublic.readsBack_fromKeyVersion hdecode version
    · rw [HdPublic.fromKey, HdPublic.readsBack_fromKeyVersion hdecode]
      exact imp_iff_right rfl

/-- Eighty-two zeros are read as a key, whatever their checksum. -/
theorem corrupted_checksum_accepted :
    (HdPublic.fromString (List.replicate 82 '1')).valid = true ∧
      ¬ (HdPublic.fromString (List.replicate 82 '1')).ReadsBack .ofSha256 (List.replicate 82 '1') := by
  have hvalid : (HdPublic.fromString (replicate 82 '1')).valid := by decide +kernel
  refine ⟨hvalid, fun h => ?_⟩
  have htext := h hvalid
  revert htext
  decide +kernel

end BitprimCore
