import BitprimCore.Wallet.CashAddress

/-!
# Cash addresses, there and back

A text is accepted if it spells a version byte and a hash of the size that the byte announces. Only
two of the version bytes are written, so the text of the address that was read is the text itself for
these two only. Of the others some are read as addresses of scripts, and those that announce longer
hashes overrun the array that the hash is copied into.
-/

namespace BitprimCore.PaymentAddress

open Cashaddr List Positional

variable {data : DataChunk}

variable (version : UInt8) (hash : DataChunk)

/-- The values of five bits that a version byte and a hash are packed into. -/
def pack : DataChunk := (convertBits 8 5 true (version :: hash)).2

theorem toNat_lt_two_pow (data : DataChunk) : ∀ d ∈ data, d.toNat < 2 ^ 8 :=
  fun d _ => d.toNat_lt

theorem mem_map_toNat {bound : Nat} (h : ∀ d ∈ data, d.toNat < bound) :
    ∀ n ∈ data.map UInt8.toNat, n < bound := by
  intro n hn
  obtain ⟨d, hd, rfl⟩ := mem_map.mp hn
  exact h d hd

theorem map_toNat_injective : Function.Injective (map UInt8.toNat) :=
  map_injective_iff.mpr fun _ _ => UInt8.toNat_inj.mp

theorem map_toNat_pack :
    (pack version hash).map UInt8.toNat = regroupPadded 8 5 ((version :: hash).map UInt8.toNat) :=
  convertBits_padded (by decide) (by decide) (toNat_lt_two_pow _)

theorem pack_lt : ∀ d ∈ pack version hash, d < 32 := by
  intro d hd
  have hmem : d.toNat ∈ (pack version hash).map UInt8.toNat := mem_map_of_mem hd
  rw [map_toNat_pack] at hmem
  exact lt_of_mem_regroupPadded hmem

/-- The bytes are found back. -/
theorem convertBits_pack : (convertBits 5 8 false (pack version hash)).2 = version :: hash := by
  apply map_toNat_injective
  rw [convertBits_unpadded (by decide) (by decide) (pack_lt version hash), map_toNat_pack]
  exact regroup_regroupPadded (by decide) (by decide) (mem_map_toNat (toNat_lt_two_pow _))

theorem pack_ne_nil : pack version hash ≠ [] := by
  intro hnil
  have hbytes := convertBits_pack version hash
  rw [hnil] at hbytes
  cases hbytes

/-- The mask of the padding looks at the low bits of the last value. -/
theorem and_mask_eq_zero_iff (last : UInt8) {extrabits : Nat} (h : extrabits < 5) :
    last &&& (1 <<< UInt8.ofNat extrabits - 1) = 0 ↔ last.toNat % 2 ^ extrabits = 0 := by
  have hmask : ∀ extrabits < 5,
      (1 <<< UInt8.ofNat extrabits - 1 : UInt8).toNat = 2 ^ extrabits - 1 := by
    decide
  rw [← UInt8.toNat_inj, UInt8.toNat_and, hmask extrabits h, Nat.and_two_pow_sub_one_eq_mod]
  rfl

theorem isPadded_iff {payload : DataChunk} (hne : payload ≠ []) :
    isPadded payload ↔
      payload.length * 5 % 8 < 5 ∧ value (2 ^ 5) (payload.map UInt8.toNat) %
        2 ^ (payload.length * 5 % 8) = 0 := by
  obtain ⟨front, last, rfl⟩ := eq_nil_or_concat' payload |>.resolve_left hne
  set extrabits := (front ++ [last]).length * 5 % 8 with hextrabits
  have hlast : (front ++ [last]).getLastD 0 = last := by simp
  rw [isPadded, hlast, Bool.and_eq_true, decide_eq_true_iff, beq_iff_eq]
  refine and_congr_right fun hfew => ?_
  have hdvd : 2 ^ extrabits ∣ 2 ^ 5 := Nat.pow_dvd_pow 2 (le_of_lt hfew)
  rw [and_mask_eq_zero_iff last hfew, map_append, map_singleton, value_concat,
    Nat.add_mod, Nat.mod_eq_zero_of_dvd (Dvd.dvd.mul_left hdvd _), zero_add, Nat.mod_mod]

theorem isPadded_pack : isPadded (pack version hash) := by
  rw [isPadded_iff (pack_ne_nil version hash)]
  have hbytes : ∀ n ∈ (version :: hash).map UInt8.toNat, n < 2 ^ 8 :=
    mem_map_toNat (toNat_lt_two_pow _)
  rw [← length_map UInt8.toNat, map_toNat_pack]
  exact rest_regroupPadded (by decide) (by decide) hbytes

/-- Values with no more than zero bits of padding are the packing of their bytes. -/
theorem eq_pack {payload : DataChunk} {version : UInt8} (hne : payload ≠ [])
    (h : ∀ d ∈ payload, d < 32) (hpadded : isPadded payload)
    (hdata : (convertBits 5 8 false payload).2 = version :: data) :
    payload = pack version data := by
  rw [isPadded_iff hne] at hpadded
  have hbytes : (convertBits 5 8 false payload).2.map UInt8.toNat =
      regroup 5 8 (payload.map UInt8.toNat) :=
    convertBits_unpadded (by decide) (by decide) h
  apply map_toNat_injective
  rw [map_toNat_pack, ← hdata, hbytes, regroupPadded_regroup (by decide) (by decide)
    (mem_map_toNat h)]
  · rw [length_map]
    exact hpadded.1
  · rw [length_map]
    exact hpadded.2

/-- The text spells a version byte, without the reserved bit, and a hash of the size that the byte
announces, under the configured prefix. -/
structure Announces (configured address : Text) (version : UInt8) (hash : DataChunk) : Prop where
  unreserved : version < 0x80
  size : hash.length = hashSize version
  decoded : decode address configured = some (configured, pack version hash)

theorem and_reserved_iff : version &&& 0x80 ≠ 0 ↔ ¬ version < 0x80 := by
  have hall : ∀ n < 256, UInt8.ofNat n &&& 0x80 ≠ 0 ↔ ¬ UInt8.ofNat n < 0x80 := by
    decide +kernel
  have hspec := hall version.toNat version.toNat_lt
  rwa [UInt8.ofNat_toNat] at hspec

variable {configured address : Text} {version : UInt8} {hash : DataChunk}

/-- Every hash of an accepted text is copied, also one that is too long. -/
theorem fromStringCashaddr_of_announces (h : Announces configured address version hash) :
    fromStringCashaddr configured address =
      if hsize : hash.length = 20 then
        .ok (ofCashaddrType configured ((version >>> 3) &&& 0x1f) ⟨hash, hsize⟩)
      else .error .copy := by
  have hreserved : ¬ (version &&& 0x80 ≠ 0) := by
    rw [and_reserved_iff]
    exact not_not.mpr h.unreserved
  have hempty : (pack version hash).isEmpty = false := by
    rw [isEmpty_eq_false_iff]
    exact pack_ne_nil version hash
  rw [fromStringCashaddr, h.decoded]
  simp [hempty, isPadded_pack, convertBits_pack, fromCashaddrData, hreserved, h.size]

/-- Data that is not a version and a hash of its size is not accepted. -/
theorem fromCashaddrData_of_not {prefixText : Text}
    (h : ∀ version hash, data = version :: hash → version < 0x80 → hash.length ≠ hashSize version) :
    fromCashaddrData prefixText data = .ok {} := by
  cases data with
  | nil => rfl
  | cons version hash =>
    by_cases hreserved : version &&& 0x80 ≠ 0
    · simp only [fromCashaddrData, headD_cons]
      exact if_pos hreserved
    · rw [and_reserved_iff, not_not] at hreserved
      have hsize := h version hash rfl hreserved
      simp [fromCashaddrData, hsize]

/-- A text that announces nothing is not accepted. -/
theorem fromStringCashaddr_of_not
    (h : ∀ version hash, ¬ Announces configured address version hash) :
    fromStringCashaddr configured address = .error .cut ∨
      fromStringCashaddr configured address = .ok {} := by
  unfold fromStringCashaddr
  split
  · exact .inl rfl
  · rename_i prefixText payload hdec
    right
    split_ifs with hknown hempty hpadded
    · rfl
    · rfl
    · rfl
    · rw [not_not] at hknown
      subst hknown
      rw [Bool.not_eq_true, Bool.not_eq_false'] at hpadded
      have hne : payload ≠ [] := by simpa using hempty
      have hlt := ((decode_spec hdec).resolve_left fun hfail => hne hfail.2).1
      apply fromCashaddrData_of_not
      intro version hash hdata hreserved hsize
      have hpack := eq_pack hne hlt hpadded hdata
      exact h version hash ⟨hreserved, hsize, hpack ▸ hdec⟩

/-- The prefixes that the library knows. -/
def IsKnownPrefix (configured : Text) : Prop :=
  configured = cashaddrPrefixMainnet ∨ configured = cashaddrPrefixTestnet

/-- The address is one of the network that the prefix stands for; every prefix but that of the
mainnet stands for a test network. -/
def OfNetwork (configured : Text) (wallet : PaymentAddress) : Prop :=
  if configured = cashaddrPrefixMainnet then
    wallet.version = mainnetP2kh .bch ∨ wallet.version = mainnetP2sh
  else wallet.version = testnetP2kh ∨ wallet.version = testnetP2sh

/-- The prefix that the text of a network's addresses has. -/
def networkPrefix (configured : Text) : Text :=
  if configured = cashaddrPrefixMainnet then cashaddrPrefixMainnet else cashaddrPrefixTestnet

theorem networkPrefix_eq_iff :
    networkPrefix configured = configured ↔ IsKnownPrefix configured := by
  unfold networkPrefix IsKnownPrefix
  split_ifs with hmainnet
  · simp [hmainnet]
  · simp [hmainnet, eq_comm]

theorem packAddrData_eq (hash : ShortHash) (type : UInt8) :
    packAddrData hash.val type = some (pack (type <<< 3) hash.val) := by
  rw [packAddrData, hash.2]
  exact congrArg (fun version => some (pack version hash.val)) UInt8.or_zero

/-- The text of an address that was made from a type. -/
theorem encodedCashaddr_ofCashaddrType (configured : Text) (type : UInt8) (hash : ShortHash) :
    (ofCashaddrType configured type hash).encodedCashaddr =
      some (encode (networkPrefix configured)
        (pack (if type = pubkeyType then 0x00 else 0x08) hash.val)) := by
  unfold ofCashaddrType networkPrefix
  split_ifs
  · change (packAddrData hash.val pubkeyType).map _ = _
    rw [packAddrData_eq]
    rfl
  · change (packAddrData hash.val scriptType).map _ = _
    rw [packAddrData_eq]
    rfl
  · change (packAddrData hash.val pubkeyType).map _ = _
    rw [packAddrData_eq]
    rfl
  · change (packAddrData hash.val scriptType).map _ = _
    rw [packAddrData_eq]
    rfl

theorem valid_ofCashaddrType (configured : Text) (type : UInt8) (hash : ShortHash) :
    (ofCashaddrType configured type hash).valid := by
  unfold ofCashaddrType
  split_ifs <;> rfl

theorem ofNetwork_ofCashaddrType (configured : Text) (type : UInt8) (hash : ShortHash) :
    OfNetwork configured (ofCashaddrType configured type hash) := by
  unfold OfNetwork ofCashaddrType
  split_ifs
  · exact .inl rfl
  · exact .inr rfl
  · exact .inl rfl
  · exact .inr rfl

/-- A valid address of a network is one that is made from a type. -/
theorem exists_type {wallet : PaymentAddress} (hvalid : wallet.valid)
    (h : OfNetwork configured wallet) :
    ∃ type hash, (type = pubkeyType ∨ type = scriptType) ∧
      wallet = ofCashaddrType configured type hash := by
  obtain ⟨valid, version, hash⟩ := wallet
  cases hvalid
  unfold OfNetwork at h
  unfold ofCashaddrType
  split_ifs at h ⊢
  · obtain rfl | rfl := h
    · exact ⟨pubkeyType, hash, .inl rfl, rfl⟩
    · exact ⟨scriptType, hash, .inr rfl, rfl⟩
  · obtain rfl | rfl := h
    · exact ⟨pubkeyType, hash, .inl rfl, rfl⟩
    · exact ⟨scriptType, hash, .inr rfl, rfl⟩

theorem networkPrefix_letters (configured : Text) :
    networkPrefix configured ≠ [] ∧ ∀ c ∈ networkPrefix configured, 'a' ≤ c ∧ c ≤ 'z' := by
  let _ (text : Text) : Decidable (∀ c ∈ text, 'a' ≤ c ∧ c ≤ 'z') := decidableBAll _ text
  unfold networkPrefix
  split_ifs
  · exact ⟨by decide, by decide⟩
  · exact ⟨by decide, by decide⟩

theorem decode_networkPrefix (configured defaultPrefix : Text) (version : UInt8)
    (hash : DataChunk) :
    decode (encode (networkPrefix configured) (pack version hash)) defaultPrefix =
      some (networkPrefix configured, pack version hash) :=
  decode_encode (networkPrefix_letters configured).1 (networkPrefix_letters configured).2
    (pack_lt version hash) defaultPrefix

/-- Every valid address of the network is read back from its text. -/
def RoundTrips (configured : Text) : Prop :=
  ∀ wallet : PaymentAddress, wallet.valid = true → OfNetwork configured wallet →
    ∃ text, wallet.encodedCashaddr = some text ∧ fromStringCashaddr configured text = .ok wallet

theorem roundTrips_iff (configured : Text) : RoundTrips configured ↔ IsKnownPrefix configured := by
  rw [← networkPrefix_eq_iff]
  constructor
  · intro h
    by_contra hknown
    -- the text of a test network's address has another prefix, which is not accepted
    obtain ⟨text, htext, hread⟩ := h (ofCashaddrType configured pubkeyType nullShortHash)
      (valid_ofCashaddrType _ _ _) (ofNetwork_ofCashaddrType _ _ _)
    rw [encodedCashaddr_ofCashaddrType] at htext
    cases htext
    rw [fromStringCashaddr, decode_networkPrefix] at hread
    have hinvalid : PaymentAddress.mk false 0 nullShortHash =
        ofCashaddrType configured pubkeyType nullShortHash := by
      simpa [hknown] using hread
    have hvalid := valid_ofCashaddrType configured pubkeyType nullShortHash
    rw [← hinvalid] at hvalid
    cases hvalid
  · intro hknown wallet hvalid hnetwork
    obtain ⟨type, hash, htype, rfl⟩ := exists_type hvalid hnetwork
    refine ⟨_, encodedCashaddr_ofCashaddrType configured type hash, ?_⟩
    have hdec := decode_networkPrefix configured configured
      (if type = pubkeyType then 0x00 else 0x08) hash.val
    rw [hknown] at hdec ⊢
    obtain rfl | rfl := htype
    · have hannounces : Announces configured _ 0x00 hash.val := ⟨by decide, hash.2, hdec⟩
      exact (fromStringCashaddr_of_announces hannounces).trans (dif_pos hash.2)
    · have hannounces : Announces configured _ 0x08 hash.val := ⟨by decide, hash.2, hdec⟩
      exact (fromStringCashaddr_of_announces hannounces).trans (dif_pos hash.2)

/-- A text that gives a valid address is, in lower case and behind the prefix, the text of that
address, and the hash is copied within its array. -/
def ReadsBack (configured address : Text) : Prop :=
  fromStringCashaddr configured address ≠ .error .copy ∧
    ∀ wallet, fromStringCashaddr configured address = .ok wallet → wallet.valid = true →
      wallet.encodedCashaddr = some (canonical address configured)

theorem canonical_of_announces (h : Announces configured address version hash) :
    canonical address configured = encode configured (pack version hash) :=
  ((decode_spec h.decoded).resolve_left fun hfail =>
    pack_ne_nil version hash hfail.2).2

/-- The two version bytes that are written. -/
theorem version_of_type {version : UInt8} (h : version = 0x00 ∨ version = 0x08) :
    hashSize version = 20 ∧
      (if (version >>> 3) &&& 0x1f = pubkeyType then (0x00 : UInt8) else 0x08) = version := by
  obtain rfl | rfl := h
  · exact ⟨rfl, rfl⟩
  · exact ⟨rfl, rfl⟩

theorem readsBack_iff (configured address : Text) :
    ReadsBack configured address ↔
      ∀ version hash, Announces configured address version hash →
        IsKnownPrefix configured ∧ (version = 0x00 ∨ version = 0x08) := by
  constructor
  · rintro ⟨hcopy, hread⟩ version hash hannounces
    have hres := fromStringCashaddr_of_announces hannounces
    by_cases hsize : hash.length = 20
    · rw [dif_pos hsize] at hres
      have htext := hread _ hres (valid_ofCashaddrType _ _ _)
      rw [encodedCashaddr_ofCashaddrType, canonical_of_announces hannounces, Option.some.injEq] at htext
      have hsep : ':' ∉ networkPrefix configured := by
        intro hmem
        exact absurd ((networkPrefix_letters configured).2 ':' hmem) (by decide)
      obtain ⟨hknown, hpack⟩ := encode_inj hsep (pack_lt _ _) (pack_lt _ _) htext
      have hbytes := congrArg (fun values => (convertBits 5 8 false values).2) hpack
      simp only [convertBits_pack, List.cons.injEq, and_true] at hbytes
      refine ⟨networkPrefix_eq_iff.mp hknown, ?_⟩
      rw [← hbytes]
      split_ifs
      · exact .inl rfl
      · exact .inr rfl
    · rw [dif_neg hsize] at hres
      exact absurd hres hcopy
  · intro h
    by_cases hsome : ∃ version hash, Announces configured address version hash
    · obtain ⟨version, hash, hannounces⟩ := hsome
      obtain ⟨hknown, hver⟩ := h version hash hannounces
      obtain ⟨hsize, htype⟩ := version_of_type hver
      have hres := (fromStringCashaddr_of_announces hannounces).trans
        (dif_pos (hannounces.size.trans hsize))
      constructor
      · rw [hres]
        exact nofun
      · intro wallet hwallet _
        cases hres.symm.trans hwallet
        rw [encodedCashaddr_ofCashaddrType, htype, networkPrefix_eq_iff.mpr hknown,
          canonical_of_announces hannounces]
    · have hnone : ∀ version hash, ¬ Announces configured address version hash :=
        fun version hash hannounces => hsome ⟨version, hash, hannounces⟩
      rcases fromStringCashaddr_of_not hnone with hres | hres
      · rw [ReadsBack, hres]
        exact ⟨by decide, nofun⟩
      · rw [ReadsBack, hres]
        refine ⟨nofun, fun wallet hwallet hvalid => ?_⟩
        cases hwallet
        cases hvalid

/-- Texts and addresses determine each other for the prefixes that the library knows and for the
two version bytes that it writes, and for no others. -/
theorem cash_address_iff (configured : Text) :
    (RoundTrips configured ↔ IsKnownPrefix configured) ∧
      ∀ address, ReadsBack configured address ↔
        ∀ version hash, Announces configured address version hash →
          IsKnownPrefix configured ∧ (version = 0x00 ∨ version = 0x08) :=
  ⟨roundTrips_iff configured, readsBack_iff configured⟩

/-- A type that is never written is read as that of a script, and a longer hash is copied past the
end of its array. -/
theorem unknown_type_accepted :
    ¬ ReadsBack cashaddrPrefixMainnet
        "bitcoincash:zqqqqqqqqqqqqqqqqqqqqqqqqqqqqqqqqqweyg7usz".toList ∧
      fromStringCashaddr cashaddrPrefixMainnet
        "bitcoincash:qyqqqqqqqqqqqqqqqqqqqqqqqqqqqqqqqqqqqqqq493vhgr9".toList = .error .copy := by
  constructor
  · rintro ⟨-, hread⟩
    have hresult : fromStringCashaddr cashaddrPrefixMainnet
        "bitcoincash:zqqqqqqqqqqqqqqqqqqqqqqqqqqqqqqqqqweyg7usz".toList =
          .ok ⟨true, mainnetP2sh, nullShortHash⟩ := by
      decide +kernel
    have htext := hread _ hresult rfl
    revert htext
    decide +kernel
  · decide +kernel

end BitprimCore.PaymentAddress
