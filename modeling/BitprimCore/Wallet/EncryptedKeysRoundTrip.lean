import BitprimCore.Wallet.LotSequence

/-!
# Encrypted keys are decrypted to what was encrypted

A secret comes back under its passphrase. The keys of a pair that was made from a token come back
as the secret and the point of one key: the maker of the pair multiplies the point of the token, and
the owner multiplies the factor behind it.
-/

namespace BitprimCore

open Bytes List Option

variable {parse : ParseEncryptedPrivate} {lotSequence : Bool} {secret : EcSecret}
  {point : EcCompressed}

theorem flags_setFlags (compressed lotSequence multiplied : Bool) :
    let flags := setFlags compressed lotSequence multiplied
    (flags &&& EkFlag.ecCompressedKey != 0) = compressed ∧
      (flags &&& EkFlag.lotSequenceKey != 0) = lotSequence ∧
      (flags &&& EkFlag.ecNonMultiplied == 0) = multiplied := by
  cases compressed <;> cases lotSequence <;> cases multiplied <;> decide

/-- The flags and the version are read from the bytes that were written. -/
theorem ParseEncryptedPrivate.fields_eq {version : UInt8} {compressed multiplied : Bool}
    (hcontext : parse.context = (if multiplied then multipliedContext else defaultContext) + version)
    (hflags : parse.flags = setFlags compressed lotSequence multiplied) :
    parse.compressed = compressed ∧ parse.lotSequence = lotSequence ∧
      parse.multiplied = multiplied ∧ parse.addressVersion = version := by
  have hset := flags_setFlags compressed lotSequence multiplied
  rw [← hflags] at hset
  obtain ⟨hcompressed, hlot, hmult : parse.multiplied = multiplied⟩ := hset
  refine ⟨hcompressed, hlot, hmult, ?_⟩
  rw [addressVersion, hmult, hcontext, UInt8.add_comm, UInt8.add_sub_cancel]

theorem ParseEncryptedPublic.fields_eq {parse : ParseEncryptedPublic} {version : UInt8}
    {compressed multiplied : Bool} (hcontext : parse.context = defaultContext + version)
    (hflags : parse.flags = setFlags compressed lotSequence multiplied) :
    parse.compressed = compressed ∧ parse.lotSequence = lotSequence ∧
      parse.addressVersion = version := by
  have hset := flags_setFlags compressed lotSequence multiplied
  rw [← hflags] at hset
  refine ⟨hset.1, hset.2.1, ?_⟩
  rw [addressVersion, hcontext, UInt8.add_comm, UInt8.add_sub_cancel]

/-- The sign of a point is masked twice. -/
@[simp] theorem pointSign_pointSign (byte : UInt8) (hash : Bytes 32) :
    pointSign (pointSign byte hash) hash = byte := by
  rw [pointSign, pointSign, UInt8.xor_assoc, UInt8.xor_self, UInt8.xor_zero]

namespace KeyEncryption

variable {env : KeyEncryption} {passphrase : Text} {version : UInt8} {compressed : Bool}
  {salt : EkSalt} {entropy : EkEntropy} {token : EncryptedToken}

/-- What encryption relies on. The products of a secret and of its point with a factor are a secret
and its point, and fail together. -/
structure Lawful (env : KeyEncryption) : Prop where
  decrypt_encrypt : ∀ key block, env.aes256Decrypt key (env.aes256Encrypt key block) = block
  multiplyPoint_eq : ∀ secret factor point, env.curve.secretToPublic secret = some point →
    env.curve.multiplyPoint point factor =
      (env.curve.multiplySecret secret factor).bind env.curve.secretToPublic
  multiplySecret_comm : ∀ a b, (env.curve.secretToPublic a).isSome →
    (env.curve.secretToPublic b).isSome → env.curve.multiplySecret a b = env.curve.multiplySecret b a
  decompress_isSome : ∀ secret point, env.curve.secretToPublic secret = some point →
    (env.curve.decompress point).isSome

/-- The salt of an address validates it. -/
theorem addressValidate_of_addressSalt {address : PaymentAddress}
    (h : env.addressSalt address = some salt) : env.addressValidate salt address := by
  by_cases hvalid : address.valid = true
  · rw [addressSalt, if_pos hvalid] at h
    rw [addressValidate, if_pos hvalid, Option.some.inj h, beq_self_eq_true]
  · rw [addressSalt, if_neg hvalid] at h
    cases h

theorem secretAddress_eq (h : env.curve.secretToPublic secret = some point) :
    env.secretAddress secret version compressed = env.pointAddress point version compressed :=
  PaymentAddress.fromPrivate_ofSecret h version compressed

theorem exists_addressSalt (hlawful : env.Lawful)
    (h : env.curve.secretToPublic secret = some point) :
    ∃ salt, env.addressSalt (env.secretAddress secret version compressed) = some salt := by
  have hvalid : (env.secretAddress secret version compressed).valid := by
    rw [secretAddress_eq h]
    exact PaymentAddress.fromPublic_valid (hlawful.decompress_isSome secret point h) _ _
  exact ⟨_, if_pos hvalid⟩

/-- A block that was masked and encrypted is decrypted and unmasked. -/
theorem unmask_mask (hlawful : env.Lawful) {size : Nat} (key : Bytes 32) (data : Bytes size)
    (derived : Bytes 32) {offset1 offset2 : Nat} (h1 : offset1 + 16 ≤ size) (h2 : offset2 + 16 ≤ 32)
    (h : 0 + 16 ≤ 16) :
    (xorData 16 (env.aes256Decrypt key (env.aes256Encrypt key
        (xorData 16 data derived offset1 offset2 h1 h2))) derived 0 offset2 h h2).val =
      (data.val.drop offset1).take 16 := by
  rw [hlawful.decrypt_encrypt]
  exact xorData_xorData data derived h1 h2 h

/-- The bytes are found by unmasking both blocks together. -/
theorem xorData_halfBlocks (hlawful : env.Lawful) (derived : Bytes 32 × Bytes 32)
    (data : Bytes 32) (h : 0 + 32 ≤ 32) :
    xorData 32 ((env.aes256Decrypt derived.2 (env.halfBlocks derived data).1).splice
      (env.aes256Decrypt derived.2 (env.halfBlocks derived data).2)) derived.1 0 0 h h = data := by
  rw [halfBlocks, hlawful.decrypt_encrypt, hlawful.decrypt_encrypt, splice_xorData,
    xorData_zero, xor_xor_cancel]

/-- The bytes are found by unmasking one block after the other. -/
theorem splice_halfBlocks (hlawful : env.Lawful) (derived : Bytes 32 × Bytes 32)
    (data : Bytes 32) (h : 0 + 16 ≤ 16) (h0 : 0 + 16 ≤ 32) (h16 : 16 + 16 ≤ 32) :
    (xorData 16 (env.aes256Decrypt derived.2 (env.halfBlocks derived data).1) derived.1 0 0 h
      h0).splice (xorData 16 (env.aes256Decrypt derived.2 (env.halfBlocks derived data).2)
        derived.1 0 16 h h16) = data := by
  apply Subtype.ext
  change (xorData 16 _ _ _ _ _ _).val ++ (xorData 16 _ _ _ _ _ _).val = _
  rw [halfBlocks, unmask_mask hlawful, unmask_mask hlawful]
  exact slice_append_slice 16 data (by decide)

/-- The first block is parsed as the entropy and the first data. -/
theorem parse_encrypt (passphrase : Text)
    (hsalt : env.addressSalt (env.secretAddress secret version compressed) = some salt) :
    let derived := split 32 (env.scryptPrivate (env.normal passphrase) salt.val)
    let blocks := env.halfBlocks derived secret
    ∃ key, env.encrypt secret passphrase version compressed = some key ∧
      ParseEncryptedPrivate.parse env.hashes.toHashes key =
        ⟨⟨true, ParseEncryptedPrivate.defaultContext + version, setFlags compressed false false,
          salt, (split 8 blocks.1).1⟩, (split 8 blocks.1).2, blocks.2⟩ := by
  intro derived blocks
  have hblock : (split 8 blocks.1).1.val ++ (split 8 blocks.1).2.val = blocks.1.val :=
    congrArg Subtype.val (splice_split 8 blocks.1)
  refine ⟨_, by rw [encrypt, hsalt]; rfl, ?_⟩
  rw [← ParseEncryptedPrivate.parse_build _ _ salt _ _ _ (by
    simp [ParseEncryptedPrivate.magic.2, salt.2, (split 8 blocks.1).1.2,
      (split 8 blocks.1).2.2, blocks.2.2])]
  congr 1
  apply Hashes.buildCheckedArray_congr
  simp only [flatten_cons, flatten_nil, append_nil]
  rw [← append_assoc (split 8 blocks.1).1.val, hblock]
  exact append_assoc _ _ _

/-- The secret is found in its blocks. -/
theorem decryptSecret_eq (hlawful : env.Lawful)
    (hblocks : (parse.entropy.splice parse.data1, parse.data2) = env.halfBlocks
      (split 32 (env.scryptPrivate (env.normal passphrase) parse.salt.val)) secret)
    (hvalidate : env.addressValidate parse.salt
      (env.secretAddress secret parse.addressVersion parse.compressed)) :
    env.decryptSecret parse passphrase = some secret := by
  have hsecret := xorData_halfBlocks hlawful
    (split 32 (env.scryptPrivate (env.normal passphrase) parse.salt.val)) secret (by decide)
  rw [← hblocks] at hsecret
  unfold decryptSecret
  simp only [hsecret, hvalidate]
  rfl

/-- A key that is valid is decrypted the way its flags say. -/
theorem decryptPrivate_eq {key : EncryptedPrivate}
    (hparse : ParseEncryptedPrivate.parse env.hashes.toHashes key = parse)
    (hvalid : parse.valid) :
    env.decryptPrivate key passphrase =
      (if parse.multiplied then env.decryptMultiplied parse passphrase
        else env.decryptSecret parse passphrase).map
          fun secret => (secret, parse.addressVersion, parse.compressed) := by
  unfold decryptPrivate
  simp only [hparse, hvalid]
  cases (if parse.multiplied then env.decryptMultiplied parse passphrase
    else env.decryptSecret parse passphrase) <;> rfl

/-- An encrypted secret is decrypted. -/
theorem decryptPrivate_encrypt (hlawful : env.Lawful)
    (h : (env.curve.secretToPublic secret).isSome) :
    ∃ key, env.encrypt secret passphrase version compressed = some key ∧
      env.decryptPrivate key passphrase = some (secret, version, compressed) := by
  obtain ⟨point, hpoint⟩ := isSome_iff_exists.mp h
  obtain ⟨salt, hsalt⟩ : ∃ salt,
      env.addressSalt (env.secretAddress secret version compressed) = some salt :=
    exists_addressSalt hlawful hpoint
  obtain ⟨key, hkey, hparse⟩ := parse_encrypt passphrase hsalt
  refine ⟨key, hkey, ?_⟩
  set parse := ParseEncryptedPrivate.parse env.hashes.toHashes key with hparse'
  obtain ⟨hcomp, -, hmult, hver⟩ :
      parse.compressed = compressed ∧ parse.lotSequence = false ∧ parse.multiplied = false ∧
        parse.addressVersion = version :=
    ParseEncryptedPrivate.fields_eq (by rw [hparse]; rfl) (by rw [hparse])
  have hsecret : env.decryptSecret parse passphrase = some secret := by
    apply decryptSecret_eq hlawful
    · rw [hparse]
      exact Prod.ext (splice_split 8 _) rfl
    · rw [hcomp, hver, hparse]
      exact addressValidate_of_addressSalt hsalt
  rw [decryptPrivate_eq hparse'.symm (by rw [hparse]), hmult, hver, hcomp,
    if_neg Bool.false_ne_true, hsecret]
  rfl

theorem parse_createPrivateKey (env : KeyEncryption) (flags : UInt8) (salt : EkSalt)
    (entropy : EkEntropy) (derived : Bytes 32 × Bytes 32) (seed : EkSeed) (version : UInt8) :
    ParseEncryptedPrivate.parse env.hashes.toHashes
        (env.createPrivateKey flags salt entropy derived seed version) =
      ⟨⟨true, ParseEncryptedPrivate.multipliedContext + version, flags, salt, entropy⟩,
        (env.seedBlocks derived seed).1, (env.seedBlocks derived seed).2⟩ := by
  set blocks := env.seedBlocks derived seed
  rw [← ParseEncryptedPrivate.parse_build _ flags salt entropy blocks.1 blocks.2 (by
    simp [ParseEncryptedPrivate.magic.2, salt.2, entropy.2, blocks.1.2, blocks.2.2])]
  -- the prefix is the magic number and the context, so both arrays are the same
  rfl

/-- The second block gives what the first one lacks, and the two give the seed. -/
theorem seed_of_seedBlocks (hlawful : env.Lawful) (derived : Bytes 32 × Bytes 32) (seed : EkSeed) :
    let blocks := env.seedBlocks derived seed
    let decrypt2 := xorData 16 (env.aes256Decrypt derived.2 blocks.2) derived.1 0 16
    let part := split 8 decrypt2
    (xorData 16 (env.aes256Decrypt derived.2 (blocks.1.splice part.1)) derived.1 0 0).val ++
      part.2.val = seed.val := by
  intro blocks decrypt2 part
  set encrypt1 := env.aes256Encrypt derived.2 (xorData 16 seed derived.1 0 0) with hencrypt1
  set combined : Bytes 16 := (encrypt1.slice 8 16).splice (seed.slice 16 24)
  have hunmasked : decrypt2 = combined := by
    apply Subtype.ext
    refine (unmask_mask hlawful derived.2 combined derived.1 _ _ _).trans ?_
    exact take_of_length_le (le_of_eq combined.2)
  have hpart : part = (encrypt1.slice 8 16, seed.slice 16 24) := by
    refine (congrArg (split 8) hunmasked).trans ?_
    exact split_splice _ _
  have hextended : blocks.1.splice part.1 = encrypt1 := by
    rw [hpart]
    exact Subtype.ext (slice_append_slice 8 encrypt1 (by decide))
  rw [hextended, hpart, hencrypt1, unmask_mask hlawful]
  exact slice_append_slice 16 seed (by decide)

/-- The factor of a passphrase for an entropy that holds the owner salt. -/
def tokenFactor (env : KeyEncryption) (passphrase : Text) (lotSequence : Bool)
    (entropy : EkEntropy) : EcSecret :=
  env.ownerFactor passphrase (ownerSalt lotSequence entropy) lotSequence entropy

/-- The mask and the key of the blocks of a pair. -/
def pairKeys (env : KeyEncryption) (point : EcCompressed) (salt : EkSalt) (entropy : EkEntropy) :
    Bytes 32 × Bytes 32 :=
  split 32 (env.scryptPair point.val (salt.val ++ entropy.val))

theorem ownerFactor_eq {parse : ParseEncryptedKey} (hlot : parse.lotSequence = lotSequence) :
    env.ownerFactor passphrase parse.ownerSalt parse.lotSequence parse.entropy =
      env.tokenFactor passphrase lotSequence parse.entropy := by
  rw [ParseEncryptedKey.ownerSalt, hlot]
  rfl

variable {outPoint : EcCompressed} {privateKey : EncryptedPrivate} {publicKey key : EncryptedPublic}
    {seed : EkSeed}

/-- The private key of a pair is decrypted to the product of the factors of the token and of the
seed. -/
theorem decryptPrivate_createPrivateKey (hlawful : env.Lawful) {product : EcSecret}
    (hpoint : env.curve.secretToPublic (env.tokenFactor passphrase lotSequence entropy) = some
      point)
    (hproduct : env.curve.multiplySecret (env.tokenFactor passphrase lotSequence entropy)
      (env.hashes.bitcoinHash seed.val) = some product)
    (hvalidate : env.addressValidate salt (env.secretAddress product version compressed)) :
    env.decryptPrivate (env.createPrivateKey (setFlags compressed lotSequence true) salt entropy
      (env.pairKeys point salt entropy) seed version) passphrase =
        some (product, version, compressed) := by
  have hparse := parse_createPrivateKey env (setFlags compressed lotSequence true) salt entropy
    (env.pairKeys point salt entropy) seed version
  generalize hparsed : ParseEncryptedPrivate.mk _ _ _ = parse at hparse
  obtain ⟨hcomp, hlot, hmult, hver⟩ :
      parse.compressed = compressed ∧ parse.lotSequence = lotSequence ∧ parse.multiplied = true ∧
        parse.addressVersion = version :=
    ParseEncryptedPrivate.fields_eq (by rw [← hparsed]; rfl) (by rw [← hparsed])
  have hdecrypted : env.decryptMultiplied parse passphrase = some product := by
    have hseed := seed_of_seedBlocks hlawful (env.pairKeys point salt entropy) seed
    unfold decryptMultiplied
    simp only [ownerFactor_eq hlot, hver, hcomp]
    subst hparsed
    rw [pairKeys] at hseed
    simp only [hpoint, bind_eq_bind, bind_some, pairKeys, hseed, hproduct, hvalidate]
    rfl
  rw [decryptPrivate_eq hparse (by rw [← hparsed]), hmult, hver, hcomp, if_pos rfl, hdecrypted]
  rfl

theorem parse_createPublicKey {flags : UInt8} {derived : Bytes 32 × Bytes 32}
    (h : env.createPublicKey flags salt entropy derived secret version = some key) :
    ∃ point, env.curve.secretToPublic secret = some point ∧
      ParseEncryptedPublic.parse env.hashes.toHashes key =
        ⟨⟨true, ParseEncryptedPublic.defaultContext + version, flags, salt, entropy⟩,
          pointSign (point.val.getD 0 0) derived.2,
          (env.halfBlocks derived (pointHash point)).1.splice
            (env.halfBlocks derived (pointHash point)).2⟩ := by
  obtain ⟨point, hpoint, hkey⟩ := bind_eq_some_iff.mp h
  obtain rfl := Option.some.inj hkey
  refine ⟨point, hpoint, ?_⟩
  set blocks := env.halfBlocks derived (pointHash point)
  rw [← ParseEncryptedPublic.parse_build _ flags salt entropy _ (blocks.1.splice blocks.2) (by
    simp [ParseEncryptedPublic.magic.2, salt.2, entropy.2, (blocks.1.splice blocks.2).2])]
  congr 1
  apply Hashes.buildCheckedArray_congr
  simp only [flatten_cons, flatten_nil, append_nil]
  rfl

/-- The public key of a pair is decrypted to the product of the point of the seed with the factor of
the token. -/
theorem decryptPublic_createPublicKey (hlawful : env.Lawful) {seedPoint product : EcCompressed}
    (hpoint : env.curve.secretToPublic (env.tokenFactor passphrase lotSequence entropy) = some
      point)
    (hseedPoint : env.curve.secretToPublic secret = some seedPoint)
    (hproduct : env.curve.multiplyPoint seedPoint (env.tokenFactor passphrase lotSequence entropy) =
      some product)
    (hvalidate : env.addressValidate salt (env.pointAddress product version compressed))
    (hkey : env.createPublicKey (setFlags compressed lotSequence true) salt entropy
      (env.pairKeys point salt entropy) secret version = some key) :
    env.decryptPublic key passphrase = some (product, version, compressed) := by
  obtain ⟨seedPoint', hseedPoint', hparse⟩ := parse_createPublicKey hkey
  obtain rfl := Option.some.inj (hseedPoint'.symm.trans hseedPoint)
  generalize hparsed : ParseEncryptedPublic.mk _ _ _ = parse at hparse
  obtain ⟨hcomp, hlot, hver⟩ :
      parse.compressed = compressed ∧ parse.lotSequence = lotSequence ∧
        parse.addressVersion = version :=
    ParseEncryptedPublic.fields_eq (by rw [← hparsed]) (by rw [← hparsed])
  unfold decryptPublic
  simp only [hparse, ownerFactor_eq hlot, hver, hcomp]
  subst hparsed
  simp only [hpoint, bind_eq_bind, bind_some, pairKeys, split_splice,
    pointSign_pointSign, splice_halfBlocks hlawful, toArray_splice_pointHash, hproduct, hvalidate]
  rfl

/-- A token that was made from a passphrase, with or without a lot and sequence. -/
def MadeFrom (env : KeyEncryption) (passphrase : Text) (token : EncryptedToken) : Prop :=
  (∃ entropy, env.createToken passphrase entropy = some token) ∨
    ∃ salt lot sequence, env.createTokenLot passphrase salt lot sequence = some (some token)

/-- A token is parsed to its entropy and the point of the factor, and the owner salt is in the
entropy. -/
theorem MadeFrom.parse_eq (h : env.MadeFrom passphrase token) :
    ∃ lotSequence entropy point,
      env.curve.secretToPublic (env.tokenFactor passphrase lotSequence entropy) = some point ∧
      ParseEncryptedToken.parse env.hashes.toHashes token =
        ⟨true, if lotSequence then ParseEncryptedToken.lotContext
          else ParseEncryptedToken.defaultContext, entropy, point.val.getD 0 0, pointHash point⟩ := by
  obtain ⟨entropy, htoken⟩ | ⟨salt, lot, sequence, htoken⟩ := h
  · obtain ⟨point, hpoint, hparse⟩ := createTokenFrom_spec htoken
    have hlen : (entropy.val.length == 4) = false := by rw [entropy.2]; rfl
    rw [hlen] at hpoint
    exact ⟨false, entropy, point, hpoint, hparse⟩
  · obtain ⟨hlot, hseq⟩ := bounds_of_createTokenLot htoken
    rw [createTokenLot_eq hlot hseq] at htoken
    obtain ⟨point, hpoint, hparse⟩ := createTokenFrom_spec (Option.some.inj htoken)
    have hsalt : ownerSalt true (lotEntropy salt lot sequence) = salt.val := take_left' salt.2
    rw [beq_iff_eq.mpr salt.2, ← hsalt] at hpoint
    exact ⟨true, lotEntropy salt lot sequence, point, hpoint, hparse⟩

/-- What a pair is made of. -/
theorem createKeyPair_spec (hparse : ParseEncryptedToken.parse env.hashes.toHashes token =
      ⟨true, if lotSequence then ParseEncryptedToken.lotContext
        else ParseEncryptedToken.defaultContext, entropy, point.val.getD 0 0, pointHash point⟩)
    (h : env.createKeyPair token seed version compressed = some (privateKey, publicKey, outPoint)) :
    ∃ salt, env.curve.multiplyPoint point (env.hashes.bitcoinHash seed.val) = some outPoint ∧
      env.addressSalt (env.pointAddress outPoint version compressed) = some salt ∧
      let flags := setFlags compressed lotSequence true
      env.createPublicKey flags salt entropy (env.pairKeys point salt entropy)
        (env.hashes.bitcoinHash seed.val) version = some publicKey ∧
      privateKey = env.createPrivateKey flags salt entropy (env.pairKeys point salt entropy) seed
        version := by
  have hlot : (ParseEncryptedToken.parse env.hashes.toHashes token).lotSequence = lotSequence := by
    rw [hparse]
    cases lotSequence <;> rfl
  have hpoint : (toArray (ParseEncryptedToken.parse env.hashes.toHashes token).sign).splice
      (ParseEncryptedToken.parse env.hashes.toHashes token).data = point := by
    rw [hparse]
    exact toArray_splice_pointHash point
  have hent : (ParseEncryptedToken.parse env.hashes.toHashes token).entropy = entropy := by
    rw [hparse]
  unfold createKeyPair at h
  simp only [hlot, hpoint, hent, Option.bind_eq_bind, Option.bind_eq_some_iff, Option.pure_def,
    Option.some.injEq, Prod.mk.injEq] at h
  obtain ⟨-, -, product, hproduct, salt, hsalt, outPublic, hpublic, rfl, rfl, rfl⟩ := h
  exact ⟨salt, hproduct, hsalt, hpublic, rfl⟩

/-- Both keys of a pair are decrypted, to a secret and to its point. -/
theorem decrypt_createKeyPair (hlawful : env.Lawful) (htoken : env.MadeFrom passphrase token)
    (h : env.createKeyPair token seed version compressed = some (privateKey, publicKey, outPoint)) :
    (∃ secret, env.decryptPrivate privateKey passphrase = some (secret, version, compressed) ∧
        env.curve.secretToPublic secret = some outPoint) ∧
      env.decryptPublic publicKey passphrase = some (outPoint, version, compressed) := by
  obtain ⟨lotSequence, entropy, point, hpoint, hparse⟩ := htoken.parse_eq
  obtain ⟨salt, hmultiply, hsalt, hpublic, hprivate⟩ := createKeyPair_spec hparse h
  obtain ⟨seedPoint, hseedPoint, -⟩ := parse_createPublicKey hpublic
  set factor := env.tokenFactor passphrase lotSequence entropy
  obtain ⟨product, hproduct, hout⟩ : ∃ product,
      env.curve.multiplySecret factor (env.hashes.bitcoinHash seed.val) = some product ∧
        env.curve.secretToPublic product = some outPoint := by
    rw [hlawful.multiplyPoint_eq factor _ point hpoint] at hmultiply
    exact bind_eq_some_iff.mp hmultiply
  have hvalidate := addressValidate_of_addressSalt hsalt
  constructor
  · refine ⟨product, ?_, hout⟩
    rw [hprivate]
    apply decryptPrivate_createPrivateKey hlawful hpoint hproduct
    rw [secretAddress_eq hout]
    exact hvalidate
  · -- the point of the seed times the factor of the token is the same product
    have hcommutes : env.curve.multiplyPoint seedPoint factor = some outPoint := by
      rw [hlawful.multiplyPoint_eq _ factor seedPoint hseedPoint,
        hlawful.multiplySecret_comm _ factor (by rw [hseedPoint]; rfl) (by rw [hpoint]; rfl), hproduct,
        bind_some, hout]
    exact decryptPublic_createPublicKey hlawful hpoint hseedPoint hcommutes hvalidate hpublic

/-- Keys are decrypted under their passphrase to what was encrypted, with their version and form:
every secret that has a public key, and both keys of every pair that is made from a token. -/
theorem decrypt_encrypted (hlawful : env.Lawful) (passphrase : Text) (version : UInt8)
    (compressed : Bool) :
    (∀ secret, (env.curve.secretToPublic secret).isSome →
      ∃ key, env.encrypt secret passphrase version compressed = some key ∧
        env.decryptPrivate key passphrase = some (secret, version, compressed)) ∧
      ∀ token seed privateKey publicKey outPoint, env.MadeFrom passphrase token →
        env.createKeyPair token seed version compressed = some (privateKey, publicKey, outPoint) →
        (∃ secret, env.decryptPrivate privateKey passphrase = some (secret, version, compressed) ∧
            env.curve.secretToPublic secret = some outPoint) ∧
          env.decryptPublic publicKey passphrase = some (outPoint, version, compressed) := by
  constructor
  · intro secret hsecret
    exact decryptPrivate_encrypt hlawful hsecret
  · intro token seed privateKey publicKey outPoint htoken hpair
    exact decrypt_createKeyPair hlawful htoken hpair

end KeyEncryption

namespace EkSample

def seed : EkSeed := ⟨(List.range 24).map fun i => UInt8.ofNat (i + 1), by decide⟩

/-- The factor of the seed, and its point. -/
def seedFactor : EcSecret :=
  ofNat 32 0x0b152f7e6a59a83c09e7523e9ee641b75e4b02e5c84194fb8c2bfc49019ce957

def seedPoint : EcCompressed :=
  ofNat 33 0x026a5f1269b521c73d67b7ddc10807466405352f7c8e44de10a29449c4b4587091

/-- The product with the factor of the token, and its point. -/
def product : EcSecret :=
  ofNat 32 0x901c37dcf73d554781859d5e639230acf2cff3fd44761052e925fd5276bc5900

def productPoint : EcCompressed :=
  ofNat 33 0x0344182a668d83182854abb74c31b26c63a84176f7cb7bca50aa8d3c54193b5c71

def table : KeyTable where
  keys := [(LotSample.factor, LotSample.point), (seedFactor, seedPoint), (product, productPoint)]
  single := by decide

/-- What scrypt makes of the passphrase and the salt of the first address. -/
def secretDerived : Bytes 64 :=
  (ofNat 32 0xa29ff7fde17aadec28ce5378b90b6195f96fe06238d05b5c86ac4aac4f4ac577).splice
    (ofNat 32 0xca4008e9f8179694e7b1398131de49773dfc2ee6b9dc07ea4d30bbc64b2abc58)

/-- What scrypt makes of the point of the token and the salt of the second address. -/
def pairDerived : Bytes 64 :=
  (ofNat 32 0x76cf41f09cdc432d8d523d730dfa78e310561fb20792c88055c930ae3ac6510a).splice
    (ofNat 32 0xea25cc337a39121ca47d280ba0bb823b30c6fa4face5d89514c32d42b6f312b2)

/-- The blocks that are encrypted here, under their keys. -/
def blocks : List (Bytes 32 × Bytes 16 × Bytes 16) :=
  [((split 32 secretDerived).2,
      ofNat 16 0x2609d15a92bf463ab09b2cac7f0fec67,
      ofNat 16 0x1eada0118b16ef3b873db6bfa109faea),
    ((split 32 secretDerived).2,
      ofNat 16 0xcb71d26dfd51029b9d2c77d9c1f9e5f6,
      ofNat 16 0x876802dbb3eb8e35db6047bed415dda9),
    ((split 32 pairDerived).2,
      ofNat 16 0x77cd42f499da44258458367f00f477f3,
      ofNat 16 0x2be7050f4c621ec3adf578056d1bf74e),
    ((split 32 pairDerived).2,
      ofNat 16 0xbda367b76a893fce44db23ba2fd04612,
      ofNat 16 0x01dde78867de7dd5bc6806a19b689fde),
    ((split 32 pairDerived).2,
      ofNat 16 0x1c90539929fd8410eae5e0b205fd3e87,
      ofNat 16 0x7fe20882f658c97f12e96e9e7aa40bd5),
    ((split 32 pairDerived).2,
      ofNat 16 0x156330ce89d61690f75d796a8e9e219b,
      ofNat 16 0x1a5f62817e2f37e4a749890ed84d6a72)]

/-- A permutation of all blocks that is AES on those. -/
def cipher (key : Bytes 32) : Equiv.Perm (Bytes 16) :=
  blocks.foldr (fun block rest =>
    if block.1 = key then (Equiv.swap block.2.1 block.2.2).trans rest else rest) (Equiv.refl _)

def hashes : KeyHashes :=
  { LotSample.env.hashes with
    ripemd160Hash := fun data =>
      if data = (Sha256.hash productPoint.val).val then
        ofNat 20 0x067c41dfbca5411df3ee060a19cfd78b7c94eccd
      else
        ofNat 20 0x4949e0d5cec91b64828ace8e3362a28d8af905d9
    scrypt := fun size _ salt n _ _ =>
      let derived :=
        if n = 1024 then pairDerived.val
        else if salt = LotSample.salt.val then LotSample.derived.val else secretDerived.val
      ⟨(derived ++ List.replicate size 0).take size, by simp⟩ }

def env : KeyEncryption where
  curve := table.curve
  hashes := hashes
  aes256Encrypt key block := cipher key block
  aes256Decrypt key block := (cipher key).symm block
  toNormalNfcForm := id

theorem lawful : env.Lawful where
  decrypt_encrypt key block := (cipher key).symm_apply_apply block
  multiplyPoint_eq _ _ _ h := KeyTable.combinePoint_eq h
  multiplySecret_comm _ _ _ _ := KeyTable.combine_comm Nat.mul_comm
  decompress_isSome secret point h := by
    have hkeys : ∀ key ∈ table.keys, (env.curve.decompress key.2).isSome := by decide +kernel
    exact hkeys (secret, point) (KeyTable.mem_of_secretToPublic h)

end EkSample

open EkSample

theorem decrypt_encrypted_pair :
    (∃ key, env.encrypt LotSample.factor LotSample.passphrase 0 true = some key ∧
      env.decryptPrivate key LotSample.passphrase = some (LotSample.factor, 0, true)) ∧
    ∃ token privateKey publicKey outPoint,
      env.createTokenLot LotSample.passphrase LotSample.salt 0 1 = some (some token) ∧
      env.createKeyPair token seed 0 true = some (privateKey, publicKey, outPoint) ∧
      (∃ secret, env.decryptPrivate privateKey LotSample.passphrase =
          some (secret, 0, true) ∧ env.curve.secretToPublic secret = some outPoint) ∧
      env.decryptPublic publicKey LotSample.passphrase = some (outPoint, 0, true) := by
  have hspec := KeyEncryption.decrypt_encrypted lawful LotSample.passphrase 0 true
  have hpair : ((env.createTokenLot LotSample.passphrase LotSample.salt 0 1).join.bind
      fun token => env.createKeyPair token seed 0 true).isSome := by
    decide +kernel
  obtain ⟨⟨privateKey, publicKey, outPoint⟩, hcreated⟩ := isSome_iff_exists.mp hpair
  obtain ⟨token, htoken, hcreated⟩ := bind_eq_some_iff.mp hcreated
  have htoken := join_eq_some_iff.mp htoken
  constructor
  · exact hspec.1 LotSample.factor (by decide)
  · refine ⟨token, privateKey, publicKey, outPoint, htoken, hcreated, ?_⟩
    exact hspec.2 token seed privateKey publicKey outPoint (.inr ⟨_, _, _, htoken⟩) hcreated

end BitprimCore
