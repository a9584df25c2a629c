import BitprimCore.Formats.Base58
import BitprimCore.Math.Checksum
import BitprimCore.Math.Crypto
import BitprimCore.Utility.BinaryRuns

/-!
# Stealth addresses

The address that a sender derives a payment address from: a key to scan for payments with, the keys
that spend and a filter (`wallet/stealth_address`). A spend key that is the scan key is not written
but marked by a flag, and read back as the first of the keys.

## Implementation notes

An iterator over the bytes is the list of what it has not passed. The parser compares the size of
the bytes with what it needs before it reads on, so no read is behind the end.
-/

namespace BitprimCore

open List

/-- A stealth address. -/
structure StealthAddress where
  valid : Bool := false
  version : UInt8 := 0
  scanKey : EcCompressed := nullCompressedPoint
  spendKeys : List EcCompressed := []
  signatures : UInt8 := 0
  filter : Binary := {}

namespace StealthAddress

def mainnetP2kh : UInt8 := 0x2a
def reuseKeyFlag : UInt8 := 1
def maxFilterBits : Nat := 32
def maxSpendKeyCount : Nat := 255

/-- The size without spend keys and filter. -/
def minAddressSize : Nat := 1 + 1 + 33 + 1 + 1 + 1 + 4

/-- Ensure that there is a spend key and coerce the signatures to a valid range. -/
def fromParts (filter : Binary) (scanKey : EcCompressed) (spendKeys : List EcCompressed)
    (signatures version : UInt8) : StealthAddress :=
  let spenders := if spendKeys.isEmpty then [scanKey] else spendKeys
  let spendKeysSize := spenders.length
  if spendKeysSize > maxSpendKeyCount then {}
  else if filter.size > maxFilterBits then {}
  else
    let maximum := signatures == 0 || decide (signatures.toNat > spendKeysSize)
    let coerced := if maximum then UInt8.ofNat spendKeysSize else signatures
    { valid := true, version, scanKey, spendKeys := spenders, signatures := coerced, filter }

/-- The 33 bytes of a point. -/
def toPoint (iterator : DataChunk) : EcCompressed :=
  if h : (iterator.take 33).length = 33 then ⟨iterator.take 33, h⟩ else nullCompressedPoint

/-- Reads points. -/
def readKeys : Nat → DataChunk → List EcCompressed × DataChunk
  | 0, iterator => ([], iterator)
  | count + 1, iterator =>
    let keys := readKeys count (iterator.drop 33)
    (toPoint iterator :: keys.1, keys.2)

/-- Invalid if the data is malformed. -/
def fromStealth (hashes : Hashes) (decoded : DataChunk) : StealthAddress :=
  -- the size is guarded until the number of keys
  let requiredSize := minAddressSize
  if decoded.length < requiredSize || !hashes.verifyChecksum decoded then {}
  else
    let version := decoded.headD 0
    let iterator := decoded.drop 1
    let options := iterator.headD 0
    if options > reuseKeyFlag then {}
    else
      let iterator := iterator.drop 1
      let scanKey := toPoint iterator
      let iterator := iterator.drop 33
      let numberSpendPubkeys := (iterator.headD 0).toNat
      let iterator := iterator.drop 1
      let requiredSize := requiredSize + numberSpendPubkeys * 33
      if decoded.length < requiredSize then {}
      else
        let reused := if options = reuseKeyFlag then [scanKey] else []
        let keys := readKeys numberSpendPubkeys iterator
        let spendKeys := reused ++ keys.1
        let iterator := keys.2
        let signatures := iterator.headD 0
        let iterator := iterator.drop 1
        let filterBits := (iterator.headD 0).toNat
        if filterBits > maxFilterBits then {}
        else
          let iterator := iterator.drop 1
          let filterBytes := (filterBits + (8 - 1)) / 8
          let requiredSize := requiredSize + filterBytes
          if decoded.length ≠ requiredSize then {}
          else
            let rawFilter := iterator.take filterBytes
            let filter := Binary.ofBlocks filterBits rawFilter
            fromParts filter scanKey spendKeys signatures version

/-- Invalid if it does not decode. -/
def fromString (hashes : Hashes) (encoded : Text) : StealthAddress :=
  match decodeBase58 encoded with
  | some decoded => fromStealth hashes decoded
  | none => {}

section

variable (hashes : Hashes) (address : StealthAddress)

/-- The scan key is one of the spend keys. -/
def reuseKey : Bool := address.spendKeys.contains address.scanKey

/-- The options byte. -/
def options : UInt8 := if address.reuseKey then reuseKeyFlag else 0

/-- The data with a checksum. -/
def toChunk : DataChunk :=
  -- the number of keys was guarded against more than 255
  let size := UInt8.ofNat address.spendKeys.length
  let numberSpendPubkeys := if address.reuseKey then size - 1 else size
  let written := address.spendKeys.filter fun key => key != address.scanKey
  hashes.appendChecksum ([address.version, address.options] ++ address.scanKey.val ++
    [numberSpendPubkeys] ++ written.flatMap Subtype.val ++
    [address.signatures, UInt8.ofNat address.filter.size] ++ address.filter.blocks)

/-- The comparison of addresses (`operator==`). -/
def equal (other : StealthAddress) : Bool :=
  address.valid == other.valid && address.version == other.version &&
    address.scanKey == other.scanKey && address.spendKeys == other.spendKeys &&
    address.signatures == other.signatures && address.filter.equal other.filter

end

theorem toPoint_append (key : EcCompressed) (rest : DataChunk) :
    toPoint (key.val ++ rest) = key := by
  have htake : (key.val ++ rest).take 33 = key.val := take_left' key.2
  simp only [toPoint, htake, key.2, dite_true]

theorem readKeys_append (keys : List EcCompressed) (rest : DataChunk) :
    readKeys keys.length (keys.flatMap Subtype.val ++ rest) = (keys, rest) := by
  induction keys with
  | nil => rfl
  | cons key keys ih =>
    rw [flatMap_cons, append_assoc, length_cons, readKeys, toPoint_append, drop_left' key.2, ih]

theorem length_flatMap_keys (keys : List EcCompressed) :
    (keys.flatMap Subtype.val).length = 33 * keys.length := by
  induction keys with
  | nil => rfl
  | cons key keys ih =>
    rw [flatMap_cons, length_append, key.2, ih, length_cons]
    omega

/-- The fields of an address in a row, before their checksum. -/
def fields (version options : UInt8) (scanKey : EcCompressed) (number : UInt8)
    (written : List EcCompressed) (signatures filterBits : UInt8) (blocks : DataChunk) : DataChunk :=
  [version, options] ++ scanKey.val ++ [number] ++ written.flatMap Subtype.val ++
    [signatures, filterBits] ++ blocks

section

variable {hashes : Hashes} {version options number signatures filterBits : UInt8}
  {scanKey : EcCompressed} {written : List EcCompressed} {blocks : DataChunk}

/-- The fields one by one, with their checksum behind them. -/
theorem exists_decoded :
    ∃ checksum, let decoded := version :: options :: (scanKey.val ++ number ::
        (written.flatMap Subtype.val ++ signatures :: filterBits :: (blocks ++ checksum)))
      hashes.appendChecksum
        (fields version options scanKey number written signatures filterBits blocks) = decoded ∧
      decoded.length = minAddressSize + 33 * written.length + blocks.length ∧
      hashes.verifyChecksum decoded = true := by
  set data := fields version options scanKey number written signatures filterBits blocks with hdata
  have hdecoded : hashes.appendChecksum data = version :: options :: (scanKey.val ++ number ::
      (written.flatMap Subtype.val ++ signatures :: filterBits :: (blocks ++
        LittleEndian.ofNat 4 (hashes.bitcoinChecksum data).toNat))) := by
    simp only [Hashes.appendChecksum, hdata, fields, append_assoc, cons_append, nil_append]
  refine ⟨_, hdecoded, ?_, ?_⟩
  · rw [← hdecoded, Hashes.length_appendChecksum, hdata, fields, minAddressSize]
    simp only [length_append, length_cons, length_nil, length_flatMap_keys, scanKey.2]
    omega
  · rw [← hdecoded]
    exact Hashes.verifyChecksum_appendChecksum data

/-- The parser takes the fields apart. -/
theorem fromStealth_fields (hnum : number.toNat = written.length)
    (hoptions : options ≤ reuseKeyFlag) (hbits : filterBits.toNat ≤ maxFilterBits)
    (hblocks : blocks.length = (filterBits.toNat + (8 - 1)) / 8) :
    fromStealth hashes (hashes.appendChecksum
        (fields version options scanKey number written signatures filterBits blocks)) =
      fromParts (Binary.ofBlocks filterBits.toNat blocks) scanKey
        ((if options = reuseKeyFlag then [scanKey] else []) ++ written) signatures version := by
  obtain ⟨checksum, hdecoded, hlength, hsum⟩ :=
    @exists_decoded hashes version options number signatures filterBits scanKey written blocks
  have hmin : ¬ minAddressSize + 33 * written.length + blocks.length < minAddressSize := by omega
  have hkeys : ¬ minAddressSize + 33 * written.length + blocks.length <
      minAddressSize + written.length * 33 := by omega
  have hsize : ¬ minAddressSize + 33 * written.length + blocks.length ≠
      minAddressSize + written.length * 33 + blocks.length := by omega
  simp only [hdecoded, fromStealth, hlength, hsum, hmin, Bool.not_true, Bool.or_false,
    decide_false, Bool.false_eq_true, if_false, headD_cons, drop_succ_cons, drop_zero,
    UInt8.not_lt.mpr hoptions, toPoint_append, drop_left' scanKey.2, hnum, hkeys,
    readKeys_append, not_lt.mpr hbits, ← hblocks, hsize, take_left]

/-- The parser rejects fewer keys than their number. -/
theorem fromStealth_fields_of_lt (hnum : written.length < number.toNat)
    (hblocks : blocks.length < 33) :
    (fromStealth hashes (hashes.appendChecksum
        (fields version options scanKey number written signatures filterBits blocks))).valid =
      false := by
  obtain ⟨checksum, hdecoded, hlength, hsum⟩ :=
    @exists_decoded hashes version options number signatures filterBits scanKey written blocks
  have hmin : ¬ minAddressSize + 33 * written.length + blocks.length < minAddressSize := by omega
  have hkeys : minAddressSize + 33 * written.length + blocks.length <
      minAddressSize + number.toNat * 33 := by omega
  simp only [hdecoded, fromStealth, hlength, hsum, hmin, Bool.not_true, Bool.or_false,
    decide_false, Bool.false_eq_true, if_false, headD_cons, drop_succ_cons, drop_zero,
    toPoint_append, drop_left' scanKey.2, hkeys, if_true]
  split_ifs <;> rfl

end

section

variable {filter : Binary} {scanKey : EcCompressed} {spendKeys : List EcCompressed}
  {signatures version : UInt8}

/-- The keys that an address is built with. -/
def spenders (scanKey : EcCompressed) (spendKeys : List EcCompressed) : List EcCompressed :=
  if spendKeys.isEmpty then [scanKey] else spendKeys

/-- The signatures in range. -/
def coerce (signatures : UInt8) (count : Nat) : UInt8 :=
  if signatures == 0 || decide (signatures.toNat > count) then UInt8.ofNat count else signatures

theorem fromParts_eq (hfilter : filter.size ≤ maxFilterBits)
    (hkeys : (spenders scanKey spendKeys).length ≤ maxSpendKeyCount) :
    fromParts filter scanKey spendKeys signatures version =
      { valid := true, version, scanKey, spendKeys := spenders scanKey spendKeys,
        signatures := coerce signatures (spenders scanKey spendKeys).length, filter } := by
  simp only [fromParts, coerce, spenders] at hkeys ⊢
  rw [if_neg (not_lt.mpr hkeys), if_neg (not_lt.mpr hfilter)]
  rfl

theorem toNat_ofNat_of_le {count : Nat} (h : count ≤ maxSpendKeyCount) :
    (UInt8.ofNat count).toNat = count :=
  UInt8.toNat_ofNat_of_lt' (Nat.lt_succ_of_le h)

theorem coerce_coerce {count : Nat} (hpos : 0 < count) (hcount : count ≤ maxSpendKeyCount) :
    coerce (coerce signatures count) count = coerce signatures count := by
  have hbyte := toNat_ofNat_of_le hcount
  by_cases hrange : (signatures == 0 || decide (signatures.toNat > count)) = true
  · have hne : UInt8.ofNat count ≠ 0 := by
      intro hzero
      rw [hzero] at hbyte
      exact hpos.ne hbyte
    simp [coerce, hrange, hbyte, hne]
  · simp only [coerce, hrange, Bool.false_eq_true, if_false]

/-- The blocks of a filter are the bytes that its bits need. -/
theorem length_blocks_filter (hfilter : filter.Reachable) :
    filter.blocks.length = (filter.size + (8 - 1)) / 8 := by
  have hlength := hfilter.represents.length_blocks
  rw [Binary.length_bits, Binary.blocksSize, Binary.bitsPerBlock] at hlength
  rw [hlength]
  split_ifs <;> omega

theorem ofBlocks_filter (hfilter : filter.Reachable) :
    Binary.ofBlocks filter.size filter.blocks = filter :=
  hfilter.represents.ofBlocks.unique hfilter.represents

/-- An address as it is built from keys. -/
def built (filter : Binary) (scanKey : EcCompressed) (keys : List EcCompressed)
    (signatures version : UInt8) : StealthAddress :=
  { valid := true, version, scanKey, spendKeys := keys, signatures := coerce signatures keys.length,
    filter }

/-- The number of keys that is written. -/
theorem toNat_number {count : Nat} (hpos : 0 < count) (hcount : count ≤ maxSpendKeyCount)
    (reused : Bool) :
    (if reused then UInt8.ofNat count - 1 else UInt8.ofNat count).toNat = count - reused.toNat := by
  have hbyte := toNat_ofNat_of_le hcount
  cases reused with
  | false => simpa using hbyte
  | true =>
    have hle : (1 : UInt8) ≤ UInt8.ofNat count := by
      rw [UInt8.le_iff_toNat_le, hbyte]
      exact hpos
    rw [if_pos rfl, UInt8.toNat_sub_of_le _ _ hle, hbyte]
    rfl

theorem toNat_filterBits (hsize : filter.size ≤ maxFilterBits) :
    (UInt8.ofNat filter.size).toNat = filter.size :=
  toNat_ofNat_of_le (hsize.trans (by decide))

theorem equal_built {keys others : List EcCompressed} :
    ({ built filter scanKey keys signatures version with spendKeys := others } :
        StealthAddress).equal (built filter scanKey keys signatures version) ↔
      others = keys := by
  simp [equal, built, Binary.equal_iff]

theorem length_filter_add_count (key : EcCompressed) (keys : List EcCompressed) :
    (keys.filter fun other => other != key).length + keys.count key = keys.length := by
  rw [count_eq_length_filter, add_comm]
  exact (length_eq_length_filter_add _).symm

theorem filter_bne_eq_self {key : EcCompressed} {keys : List EcCompressed} (h : key ∉ keys) :
    (keys.filter fun other => other != key) = keys := by
  rw [filter_eq_self]
  intro other hother
  exact bne_iff_ne.mpr fun heq => h (heq ▸ hother)

section

variable (hashes : Hashes) {keys : List EcCompressed} (hfilter : filter.Reachable)
  (hsize : filter.size ≤ maxFilterBits) (hpos : 0 < keys.length)
  (hlength : keys.length ≤ maxSpendKeyCount)

include hfilter hsize hpos hlength

/-- With a count that is right the keys are read back, the scan key as the first. -/
theorem fromStealth_built {reused : Bool} (hreuse : keys.contains scanKey = reused)
    (hwritten : (keys.filter fun key => key != scanKey).length + reused.toNat = keys.length) :
    fromStealth hashes ((built filter scanKey keys signatures version).toChunk hashes) =
      { built filter scanKey keys signatures version with
        spendKeys := (if reused then [scanKey] else []) ++
          keys.filter fun key => key != scanKey } := by
  have hcount : ((if reused then [scanKey] else []) ++
      keys.filter fun key => key != scanKey).length = keys.length := by
    rw [length_append, ← hwritten]
    cases reused <;> simp [add_comm]
  have hspenders : spenders scanKey ((if reused then [scanKey] else []) ++
      keys.filter fun key => key != scanKey) = (if reused then [scanKey] else []) ++
      keys.filter fun key => key != scanKey := by
    rw [spenders, if_neg]
    rw [isEmpty_iff_length_eq_zero, hcount]
    omega
  have hoptions : (built filter scanKey keys signatures version).options =
      if reused then reuseKeyFlag else 0 := by rw [options, reuseKey, built, hreuse]
  have hflag : (if (if reused then reuseKeyFlag else 0) = reuseKeyFlag then [scanKey] else []) =
      if reused then [scanKey] else [] := by cases reused <;> rfl
  have hparsed := @fromStealth_fields hashes version (if reused then reuseKeyFlag else 0)
    (if reused then UInt8.ofNat keys.length - 1 else UInt8.ofNat keys.length)
    (coerce signatures keys.length) (UInt8.ofNat filter.size) scanKey
    (keys.filter fun key => key != scanKey) filter.blocks
    (by rw [toNat_number hpos hlength]; omega) (by cases reused <;> decide)
    (by rw [toNat_filterBits hsize]; exact hsize)
    (by rw [toNat_filterBits hsize]; exact length_blocks_filter hfilter)
  rw [toNat_filterBits hsize, ofBlocks_filter hfilter, hflag,
    fromParts_eq hsize (by rw [hspenders, hcount]; exact hlength), hspenders, hcount,
    coerce_coerce hpos hlength] at hparsed
  rw [toChunk, hoptions, reuseKey]
  simp only [built, hreuse]
  exact hparsed

/-- A scan key that is used again more than once leaves fewer keys than their number. -/
theorem fromStealth_built_of_lt (hreuse : keys.contains scanKey)
    (hwritten : (keys.filter fun key => key != scanKey).length + 1 < keys.length) :
    (fromStealth hashes
      ((built filter scanKey keys signatures version).toChunk hashes)).valid = false := by
  have hnum := toNat_number hpos hlength true
  rw [if_pos rfl, Bool.toNat_true] at hnum
  have hblocks : filter.blocks.length < 33 := by
    have hbytes := length_blocks_filter hfilter
    rw [maxFilterBits] at hsize
    omega
  rw [toChunk, reuseKey]
  simp only [built, hreuse, if_true]
  exact fromStealth_fields_of_lt (by omega) hblocks

/-- The address is read back unless the scan key is a spend key behind the first. -/
theorem built_iff :
    ((fromStealth hashes ((built filter scanKey keys signatures version).toChunk hashes)).valid ∧
      (fromStealth hashes ((built filter scanKey keys signatures version).toChunk hashes)).equal
        (built filter scanKey keys signatures version)) ↔ scanKey ∉ keys.tail := by
  by_cases hmem : scanKey ∈ keys
  · have hreuse : keys.contains scanKey := contains_iff_mem.mpr hmem
    have hcount := length_filter_add_count scanKey keys
    have hcountPos := count_pos_iff.mpr hmem
    by_cases honce : keys.count scanKey = 1
    · rw [fromStealth_built hashes hfilter hsize hpos hlength hreuse
        (by rw [Bool.toNat_true]; omega), equal_built]
      simp only [built, if_true, true_and, singleton_append]
      obtain ⟨first, rest, rfl⟩ := exists_cons_of_length_pos hpos
      rw [tail_cons]
      constructor
      · intro hkeys
        obtain ⟨rfl, -⟩ := List.cons.inj hkeys
        rw [count_cons_self] at honce
        exact count_eq_zero.mp (by omega)
      · intro htail
        obtain rfl : scanKey = first := (mem_cons.mp hmem).resolve_right htail
        simp [filter_bne_eq_self htail]
    · have hwritten : (keys.filter fun key => key != scanKey).length + 1 < keys.length := by omega
      rw [fromStealth_built_of_lt hashes hfilter hsize hpos hlength hreuse hwritten]
      have htail : scanKey ∈ keys.tail := by
        obtain ⟨first, rest, rfl⟩ := exists_cons_of_length_pos hpos
        rw [tail_cons]
        apply count_pos_iff.mp
        rw [count_cons] at honce hcountPos
        split_ifs at honce hcountPos <;> omega
      simp [htail]
  · have hreuse : keys.contains scanKey = false := by
      rw [← Bool.not_eq_true, contains_iff_mem]
      exact hmem
    have hall := filter_bne_eq_self hmem
    rw [fromStealth_built hashes hfilter hsize hpos hlength hreuse (by simp [hall]), equal_built,
      hall]
    have htail : scanKey ∉ keys.tail := fun h => hmem (mem_of_mem_tail h)
    simp [built, htail]

end

end

variable (scanKey : EcCompressed)

theorem spenders_tail (spendKeys : List EcCompressed) :
    (spenders scanKey spendKeys).tail = spendKeys.tail := by
  cases spendKeys <;> rfl

theorem spenders_length_pos (spendKeys : List EcCompressed) :
    0 < (spenders scanKey spendKeys).length := by
  cases spendKeys <;> simp [spenders]

theorem spenders_length_le {spendKeys : List EcCompressed}
    (h : spendKeys.length ≤ maxSpendKeyCount) :
    (spenders scanKey spendKeys).length ≤ maxSpendKeyCount := by
  cases spendKeys with
  | nil => exact Nat.le_of_ble_eq_true rfl
  | cons key keys => exact h

/-- The addresses that are built of few enough keys and a short enough filter are valid, and those
are read back whose scan key is no spend key behind the first. -/
theorem round_trip_iff (hashes : Hashes) (filter : Binary) (hfilter : filter.Reachable)
    (hsize : filter.size ≤ 32) (scanKey : EcCompressed) (spendKeys : List EcCompressed)
    (hkeys : spendKeys.length ≤ 255) (signatures version : UInt8) :
    let address := fromParts filter scanKey spendKeys signatures version
    let parsed := fromStealth hashes (address.toChunk hashes)
    address.valid = true ∧
      ((parsed.valid = true ∧ parsed.equal address = true) ↔ scanKey ∉ spendKeys.tail) := by
  have hlength := spenders_length_le scanKey hkeys
  have haddress := @fromParts_eq filter scanKey spendKeys signatures version hsize hlength
  rw [haddress]
  refine ⟨rfl, ?_⟩
  rw [← spenders_tail scanKey spendKeys]
  exact built_iff hashes hfilter hsize (spenders_length_pos scanKey spendKeys) hlength

/-- A key of one byte repeated. -/
def sampleKey (byte : UInt8) : EcCompressed := ⟨List.replicate 33 byte, by simp⟩

theorem round_trip_iff_reused :
    let address := fromParts {} (sampleKey 2) [sampleKey 2, sampleKey 3] 1 mainnetP2kh
    let parsed := fromStealth Hashes.ofSha256 (address.toChunk Hashes.ofSha256)
    parsed.valid = true ∧ parsed.equal address = true := by
  have h := round_trip_iff Hashes.ofSha256 {} .empty (by decide) (sampleKey 2)
    [sampleKey 2, sampleKey 3] (by decide) 1 mainnetP2kh
  exact h.2.mpr (by decide)

/-- The scan key as the second key comes back as the first, and the scan key twice makes an address
that is not valid. -/
theorem round_trip_reordered :
    let address := fromParts {} (sampleKey 2) [sampleKey 3, sampleKey 2] 1 mainnetP2kh
    let parsed := fromStealth Hashes.ofSha256 (address.toChunk Hashes.ofSha256)
    let twice := fromParts {} (sampleKey 2) [sampleKey 2, sampleKey 2] 1 mainnetP2kh
    address.valid = true ∧ parsed.spendKeys = [sampleKey 2, sampleKey 3] ∧
      parsed.equal address = false ∧ twice.valid = true ∧
      (fromStealth Hashes.ofSha256 (twice.toChunk Hashes.ofSha256)).valid = false := by
  intro address parsed twice
  have haddress : address = built {} (sampleKey 2) [sampleKey 3, sampleKey 2] 1 mainnetP2kh := rfl
  have htwice : twice = built {} (sampleKey 2) [sampleKey 2, sampleKey 2] 1 mainnetP2kh := rfl
  have hparsed : parsed = { address with spendKeys := [sampleKey 2, sampleKey 3] } :=
    @fromStealth_built {} (sampleKey 2) 1 mainnetP2kh Hashes.ofSha256
      [sampleKey 3, sampleKey 2] .empty (by decide) (by decide) (by decide) true (by decide)
      (by decide)
  refine ⟨rfl, by rw [hparsed], ?_, rfl, ?_⟩
  · rw [← Bool.not_eq_true, hparsed, haddress, equal_built]
    decide
  · rw [htwice]
    exact fromStealth_built_of_lt Hashes.ofSha256 .empty (by decide) (by decide) (by decide)
      (by decide) (by decide)

end StealthAddress

end BitprimCore
