import BitprimCore.Library.BitBlocks
import BitprimCore.Library.BitGroups
import BitprimCore.Math.Sha256
import BitprimCore.Utility.Data
import Mathlib.Data.List.Nodup

/-!
# Mnemonics

The words of an entropy and the test of a list of words (`wallet/mnemonic`, BIP 39). The bits of the
entropy, followed by some bits of its hash, are cut into groups of eleven, each the position of a
word.

## Implementation notes

`none` is an access out of bounds: of the bytes of the entropy and its hash, of the bytes that a list
of words is read into, of the dictionary, or of the words that a mnemonic is compared with. Sizes
are natural numbers: the bits of what is in memory do not overflow a `size_t`.
-/

namespace BitprimCore

open BitGroups List Option

/-- A dictionary has exactly 2048 words. -/
abbrev Dictionary := { words : List Text // words.length = 2048 }

namespace Mnemonic

def bitsPerWord : Nat := 11
def entropyBitDivisor : Nat := 32
def mnemonicWordMultiple : Nat := 3
def mnemonicSeedMultiple : Nat := 4
def byteBits : Nat := 8

/-- The mask of a bit. -/
def bip39Shift (bit : Nat) : UInt8 := UInt8.ofNat (1 <<< (byteBits - bit % byteBits - 1))

/-- The place of the first element that is equal, and `none` for `-1`. -/
def findPosition (list : List Text) (value : Text) : Option Nat := list.findIdx? (· == value)

/-- The number of the bits from one on. -/
def readPosition (data : DataChunk) (start : Nat) : (loop : Nat) → Option Nat
  | 0 => some 0
  | loop + 1 => do
    let position ← readPosition data start loop
    let bit := start + loop
    let byte ← data[bit / byteBits]?
    let position := position <<< 1
    return if byte &&& bip39Shift bit > 0 then position + 1 else position

/-- The word of eleven bits. -/
def readWord (data : DataChunk) (lexicon : Dictionary) (word : Nat) : Option Text := do
  let position ← readPosition data (word * bitsPerWord) bitsPerWord
  lexicon.val[position]?

end Mnemonic

open Mnemonic

/-- The words of entropy. -/
def createMnemonic (hashes : Hashes) (entropy : DataChunk) (lexicon : Dictionary) :
    Option (List Text) :=
  if entropy.length % mnemonicSeedMultiple ≠ 0 then some []
  else
    let entropyBits := entropy.length * byteBits
    let checkBits := entropyBits / entropyBitDivisor
    let totalBits := entropyBits + checkBits
    let wordCount := totalBits / bitsPerWord
    let data := entropy ++ (hashes.sha256Hash entropy).val
    (List.range wordCount).mapM (readWord data lexicon)

namespace Mnemonic

/-- Sets bits of a byte. -/
def orAt (data : DataChunk) (index : Nat) (mask : UInt8) : Option DataChunk := do
  let byte ← data[index]?
  return data.set index (byte ||| mask)

/-- The bits of a position that are set, from one on. -/
def writePosition (position bit : Nat) (data : DataChunk) : (loop : Nat) → Option DataChunk
  | 0 => some data
  | loop + 1 => do
    let data ← writePosition position bit data loop
    if position &&& (1 <<< (bitsPerWord - loop - 1)) ≠ 0 then
      orAt data ((bit + loop) / byteBits) (bip39Shift (bit + loop))
    else return data

/-- A word that is not in the dictionary ends the loop with `some none`. -/
def writeWords (lexicon : Dictionary) : List Text → Nat → DataChunk → Option (Option DataChunk)
  | [], _, data => some (some data)
  | word :: words, bit, data =>
    match findPosition lexicon.val word with
    | none => some none
    | some position => do
      let data ← writePosition position bit data bitsPerWord
      writeWords lexicon words (bit + bitsPerWord) data

/-- The elements of the first list compared with as many of the second (`std::equal`). -/
def equal : List Text → List Text → Option Bool
  | [], _ => some true
  | _ :: _, [] => none
  | word :: words, other :: others => if word = other then equal words others else some false

end Mnemonic

/-- The checksum is right. -/
def validateMnemonic (hashes : Hashes) (words : List Text) (lexicon : Dictionary) : Option Bool :=
  let wordCount := words.length
  if wordCount % mnemonicWordMultiple ≠ 0 then some false
  else do
    let totalBits := bitsPerWord * wordCount
    let checkBits := totalBits / (entropyBitDivisor + 1)
    let entropyBits := totalBits - checkBits
    let data := List.replicate ((totalBits + byteBits - 1) / byteBits) 0
    match ← writeWords lexicon words 0 data with
    | none => return false
    | some data =>
      let mnemonic ← createMnemonic hashes (resizeChunk data (entropyBits / byteBits)) lexicon
      equal mnemonic words

namespace Mnemonic

open BitBlocks

theorem bip39Shift_eq (bit : Nat) : bip39Shift bit = shiftLeft 1 (7 - bit % 8) := by
  rw [bip39Shift, byteBits, Nat.sub_right_comm]
  rfl

theorem bit_bip39Shift (bit i : Nat) : BitBlocks.bit (bip39Shift bit) i = decide (i = bit % 8) := by
  have hlt : bit % 8 < 8 := Nat.mod_lt bit (by decide)
  rw [bip39Shift_eq, bit_shiftLeft, bit_one, decide_eq_decide]
  omega

theorem and_bip39Shift (byte : UInt8) (bit : Nat) :
    byte &&& bip39Shift bit > 0 ↔ BitBlocks.bit byte (bit % 8) := by
  rw [bip39Shift_eq]
  exact and_shiftLeft_one_ne_zero_iff byte (Nat.mod_lt bit (by decide))

theorem readPosition_succ {data : DataChunk} {bit : Nat} (h : bit < 8 * data.length) :
    ∃ byte, data[bit / byteBits]? = some byte ∧ (byte &&& bip39Shift bit > 0 ↔ bitAt data bit) := by
  have hidx : bit / byteBits < data.length := Nat.div_lt_of_lt_mul h
  refine ⟨data[bit / byteBits], getElem?_eq_getElem hidx, ?_⟩
  rw [and_bip39Shift, bitAt, ← getD_eq_getElem data 0 hidx]
  rfl

/-- Within the bytes a group of bits is read. -/
theorem readPosition_eq {data : DataChunk} {start loop : Nat}
    (h : start + loop ≤ 8 * data.length) :
    readPosition data start loop = some (value (bitAt data) start loop) := by
  induction loop with
  | zero => rfl
  | succ loop ih =>
    obtain ⟨byte, hbyte, hbit⟩ := readPosition_succ (show start + loop < 8 * data.length by omega)
    simp only [readPosition, ih (show start + loop ≤ 8 * data.length by omega), hbyte, hbit,
      Option.bind_eq_bind, Option.bind_some, Option.pure_def, value, Nat.shiftLeft_eq]
    cases bitAt data (start + loop) <;> simp [mul_comm]

theorem readPosition_eq_none {data : DataChunk} {start loop : Nat}
    (h : 8 * data.length < start + (loop + 1)) : readPosition data start (loop + 1) = none := by
  have hidx : data.length ≤ (start + loop) / byteBits :=
    (Nat.le_div_iff_mul_le (by decide)).mpr (by rw [byteBits]; omega)
  simp only [readPosition, getElem?_eq_none hidx]
  cases readPosition data start loop <;> rfl

theorem readWord_eq {data : DataChunk} {word : Nat} (lexicon : Dictionary)
    (h : bitsPerWord * (word + 1) ≤ 8 * data.length) :
    readWord data lexicon word =
      some (lexicon.val.getD (value (bitAt data) (bitsPerWord * word) bitsPerWord) []) := by
  have hlt : value (bitAt data) (bitsPerWord * word) bitsPerWord < lexicon.val.length := by
    rw [lexicon.property]
    exact value_lt _ _ bitsPerWord
  rw [readWord, mul_comm, readPosition_eq (by rwa [Nat.mul_succ] at h), bind_eq_bind,
    bind_some, getElem?_eq_getElem hlt, getD_eq_getElem _ _ hlt]

/-- The words of the groups of bits. -/
def wordsOf (lexicon : Dictionary) (positions : List Nat) : List Text :=
  positions.map fun position => lexicon.val.getD position []

theorem mapM_readWord_eq {data : DataChunk} {count : Nat} (lexicon : Dictionary)
    (h : bitsPerWord * count ≤ 8 * data.length) :
    (range count).mapM (readWord data lexicon) =
      some (wordsOf lexicon (groups (bitAt data) bitsPerWord count)) := by
  induction count with
  | zero => rfl
  | succ count ih =>
    have hcount : bitsPerWord * count ≤ 8 * data.length :=
      (Nat.mul_le_mul_left _ (Nat.le_succ count)).trans h
    rw [range_succ, mapM_append, ih hcount, mapM_cons, readWord_eq lexicon h]
    simp [wordsOf, groups, range_succ]

theorem mapM_readWord_eq_none {data : DataChunk} {count : Nat} (lexicon : Dictionary)
    (h : 8 * data.length < bitsPerWord * count) :
    (range count).mapM (readWord data lexicon) = none := by
  cases count with
  | zero => exact absurd h (Nat.not_lt_zero _)
  | succ count =>
    have hlast : readWord data lexicon count = none := by
      rw [readWord, mul_comm, bitsPerWord, readPosition_eq_none (by rwa [Nat.mul_succ] at h)]
      rfl
    rw [range_succ, mapM_append, mapM_cons, hlast]
    cases (range count).mapM (readWord data lexicon) <;> rfl

section

variable (hashes : Hashes) (lexicon : Dictionary)

variable {k : Nat} (entropy : DataChunk)

/-- An entropy and its hash. -/
def checked : DataChunk := entropy ++ (hashes.sha256Hash entropy).val

theorem length_checked : (checked hashes entropy).length = entropy.length + 32 := by
  rw [checked, length_append, (hashes.sha256Hash entropy).property]

/-- One bit of the hash is used for each four bytes of the entropy. -/
theorem createMnemonic_eq_mapM {entropy : DataChunk} (hlen : entropy.length = 4 * k) :
    createMnemonic hashes entropy lexicon =
      (range (3 * k)).mapM (readWord (checked hashes entropy) lexicon) := by
  have hmult : ¬ entropy.length % 4 ≠ 0 := by omega
  have hcount : (entropy.length * 8 + entropy.length * 8 / 32) / 11 = 3 * k := by omega
  simp only [createMnemonic, mnemonicSeedMultiple, hmult, if_false, byteBits, entropyBitDivisor,
    bitsPerWord, hcount, checked]

theorem createMnemonic_eq {entropy : DataChunk} (hlen : entropy.length = 4 * k) (hk : k ≤ 256) :
    createMnemonic hashes entropy lexicon =
      some (wordsOf lexicon (groups (bitAt (checked hashes entropy)) 11 (3 * k))) := by
  rw [createMnemonic_eq_mapM hashes lexicon hlen, mapM_readWord_eq]
  · rfl
  · rw [length_checked, bitsPerWord]
    omega

theorem createMnemonic_eq_none {entropy : DataChunk} (hlen : entropy.length = 4 * k)
    (hk : 256 < k) : createMnemonic hashes entropy lexicon = none := by
  rw [createMnemonic_eq_mapM hashes lexicon hlen, mapM_readWord_eq_none]
  rw [length_checked, bitsPerWord]
  omega

/-- All accesses are within bounds unless the hash has too few bits for the entropy. -/
theorem createMnemonic_ne_none_iff :
    createMnemonic hashes entropy lexicon ≠ none ↔
      (4 ∣ entropy.length → entropy.length ≤ 1024) := by
  by_cases hmult : 4 ∣ entropy.length
  · obtain ⟨k, hk⟩ := hmult
    by_cases hle : k ≤ 256
    · have hbound : entropy.length ≤ 1024 := by omega
      simp [createMnemonic_eq hashes lexicon hk hle, hbound]
    · have hbound : 1024 < 4 * k := by omega
      simp [createMnemonic_eq_none hashes lexicon hk (not_le.mp hle), hbound, hk]
  · have hmod : entropy.length % 4 ≠ 0 := fun h => hmult (Nat.dvd_of_mod_eq_zero h)
    simp [createMnemonic, mnemonicSeedMultiple, hmod, hmult]

end

theorem orAt_spec {data : DataChunk} {bit : Nat} (h : bit < 8 * data.length) :
    ∃ data', orAt data (bit / byteBits) (bip39Shift bit) = some data' ∧
      data'.length = data.length ∧ ∀ i, bitAt data' i = (bitAt data i || decide (i = bit)) := by
  have hidx : bit / 8 < data.length := Nat.div_lt_of_lt_mul h
  refine ⟨data.set (bit / 8) (data[bit / 8] ||| bip39Shift bit), ?_, List.length_set, fun i => ?_⟩
  · simp only [orAt, byteBits, List.getElem?_eq_getElem hidx, Option.bind_eq_bind,
      Option.bind_some, Option.pure_def]
  · rw [bitAt_set hidx, bit_or, bit_bip39Shift, ← List.getD_eq_getElem data 0 hidx]
    split_ifs with hbyte
    · have hsame : i % 8 = bit % 8 ↔ i = bit := by omega
      rw [bitAt, hbyte]
      simp only [hsame]
    · have hne : i ≠ bit := fun heq => hbyte (by rw [heq])
      simp [hne]

theorem and_shiftLeft_one_iff (position place : Nat) :
    position &&& (1 <<< place) ≠ 0 ↔ position.testBit place := by
  have hpow : 0 < 2 ^ place := Nat.two_pow_pos place
  rw [Nat.one_shiftLeft, Nat.and_two_pow]
  cases position.testBit place <;> simp

theorem writePosition_spec {data : DataChunk} {position bit loop : Nat} (hloop : loop ≤ 11)
    (h : bit + loop ≤ 8 * data.length) :
    ∃ data', writePosition position bit data loop = some data' ∧ data'.length = data.length ∧
      ∀ i, bitAt data' i = (bitAt data i ||
        (decide (bit ≤ i ∧ i < bit + loop) && position.testBit (10 - (i - bit)))) := by
  induction loop with
  | zero =>
    refine ⟨data, rfl, rfl, fun i => ?_⟩
    simp
  | succ loop ih =>
    obtain ⟨first, hfirst, hlen, hbits⟩ := ih (by omega) (by omega)
    have hplace : bitsPerWord - loop - 1 = 10 - loop := by rw [bitsPerWord]; omega
    by_cases hset : position.testBit (10 - loop) = true
    · obtain ⟨data', hor, hlen', hbits'⟩ := @orAt_spec first (bit + loop) (by omega)
      refine ⟨data', ?_, hlen'.trans hlen, fun i => ?_⟩
      · have hmask := (and_shiftLeft_one_iff position (10 - loop)).mpr hset
        simp only [writePosition, hfirst, bind_eq_bind, bind_some, hplace]
        rw [if_pos hmask, hor]
      · by_cases hi : i = bit + loop
        · subst hi
          simp [hbits', hset]
        · have hrange : (bit ≤ i ∧ i < bit + (loop + 1)) ↔ (bit ≤ i ∧ i < bit + loop) := by omega
          simp [hbits', hbits, hi, hrange]
    · refine ⟨first, ?_, hlen, fun i => ?_⟩
      · have hmask := mt (and_shiftLeft_one_iff position (10 - loop)).mp hset
        simp only [writePosition, hfirst, bind_eq_bind, bind_some, hplace]
        rw [if_neg hmask]
        rfl
      · by_cases hi : i = bit + loop
        · subst hi
          simp [hbits, hset]
        · have hrange : (bit ≤ i ∧ i < bit + (loop + 1)) ↔ (bit ≤ i ∧ i < bit + loop) := by omega
          simp only [hbits, hrange]

/-- The positions of words, and zero for a word that is not in the dictionary. -/
def positionsOf (lexicon : Dictionary) (words : List Text) : List Nat :=
  words.map fun word => (findPosition lexicon.val word).getD 0

theorem findPosition_eq_none_iff {list : List Text} {word : Text} :
    findPosition list word = none ↔ word ∉ list := by
  rw [findPosition, findIdx?_eq_none_iff]
  constructor
  · intro h hmem
    simpa using h word hmem
  · intro hmem other hother
    exact beq_false_of_ne fun heq => hmem (heq ▸ hother)

theorem exists_findPosition {list : List Text} {word : Text} (h : word ∈ list) :
    ∃ position, findPosition list word = some position :=
  ne_none_iff_exists'.mp fun hnone => findPosition_eq_none_iff.mp hnone h

/-- The words are written one behind the other. -/
theorem writeWords_spec {lexicon : Dictionary} {words : List Text} {bit : Nat} {data : DataChunk}
    (hwords : ∀ word ∈ words, word ∈ lexicon.val)
    (hbound : bit + 11 * words.length ≤ 8 * data.length) :
    ∃ data', writeWords lexicon words bit data = some (some data') ∧ data'.length = data.length ∧
      ∀ i, bitAt data' i = (bitAt data i ||
        (decide (bit ≤ i) && bitOf 11 (positionsOf lexicon words) (i - bit))) := by
  induction words generalizing bit data with
  | nil => exact ⟨data, rfl, rfl, fun i => by simp [positionsOf, bitOf]⟩
  | cons word words ih =>
    rw [forall_mem_cons] at hwords
    rw [length_cons] at hbound
    obtain ⟨position, hposition⟩ := exists_findPosition hwords.1
    obtain ⟨first, hfirst, hlen, hbits⟩ :=
      @writePosition_spec data position bit 11 le_rfl (by omega)
    obtain ⟨data', hdata', hlen', hbits'⟩ := @ih (bit + 11) first hwords.2 (by omega)
    refine ⟨data', ?_, hlen'.trans hlen, fun i => ?_⟩
    · simp only [writeWords, hposition, bitsPerWord, hfirst, bind_eq_bind, bind_some, hdata']
    · have hpositions : positionsOf lexicon (word :: words) =
          position :: positionsOf lexicon words := by simp [positionsOf, hposition]
      rw [hbits', hbits, hpositions]
      -- before the word, in it and after it
      by_cases hbefore : bit ≤ i
      · by_cases hin : i - bit < 11
        · have hlast : ¬ bit + 11 ≤ i := by omega
          have hlt : i < bit + 11 := by omega
          simp [bitOf_cons_of_lt _ _ hin, hbefore, hlast, hlt]
        · have hlast : bit + 11 ≤ i := by omega
          have hlt : ¬ i < bit + 11 := by omega
          simp [bitOf_cons_of_le _ _ _ (not_lt.mp hin), hbefore, hlast, hlt, Nat.sub_sub]
      · have hlast : ¬ bit + 11 ≤ i := by omega
        simp [hbefore, hlast]

theorem writeWords_of_not_mem {lexicon : Dictionary} {words : List Text} {bit : Nat}
    {data : DataChunk} (hwords : ¬ ∀ word ∈ words, word ∈ lexicon.val)
    (hbound : bit + 11 * words.length ≤ 8 * data.length) :
    writeWords lexicon words bit data = some none := by
  induction words generalizing bit data with
  | nil => simp at hwords
  | cons word words ih =>
    rw [length_cons] at hbound
    cases hposition : findPosition lexicon.val word with
    | none => simp only [writeWords, hposition]
    | some position =>
      have hmem : word ∈ lexicon.val := by
        by_contra hnot
        rw [findPosition_eq_none_iff.mpr hnot] at hposition
        cases hposition
      obtain ⟨first, hfirst, hlen, -⟩ := @writePosition_spec data position bit 11 le_rfl (by omega)
      have hrest : ¬ ∀ word ∈ words, word ∈ lexicon.val := fun hall =>
        hwords (forall_mem_cons.mpr ⟨hmem, hall⟩)
      simp only [writeWords, hposition, bitsPerWord, hfirst, bind_eq_bind, bind_some]
      exact ih hrest (by omega)

section

variable (hashes : Hashes) {lexicon : Dictionary} {words : List Text} {k : Nat}

theorem resizeChunk_of_le {data : DataChunk} {size : Nat} (h : size ≤ data.length) :
    resizeChunk data size = data.take size := by
  rw [resizeChunk, Nat.sub_eq_zero_of_le h]
  exact append_nil _

/-- Words of the dictionary are compared with the mnemonic of their first bits. -/
theorem validateMnemonic_eq (hlen : words.length = 3 * k)
    (hwords : ∀ word ∈ words, word ∈ lexicon.val) :
    ∃ entropy : DataChunk, entropy.length = 4 * k ∧
      (∀ i < 32 * k, bitAt entropy i = bitOf 11 (positionsOf lexicon words) i) ∧
      validateMnemonic hashes words lexicon =
        (createMnemonic hashes entropy lexicon >>= fun mnemonic => equal mnemonic words) := by
  have hmult : ¬ words.length % 3 ≠ 0 := by omega
  have hent : (11 * words.length - 11 * words.length / (32 + 1)) / 8 = 4 * k := by omega
  obtain ⟨data, hdata, hsize, hbits⟩ := @writeWords_spec lexicon words 0
    (replicate ((11 * words.length + 8 - 1) / 8) 0) hwords
    (by rw [length_replicate]; omega)
  rw [length_replicate] at hsize
  refine ⟨data.take (4 * k), ?_, fun i hi => ?_, ?_⟩
  · rw [length_take]
    omega
  · have hin : i < 8 * (4 * k) := by omega
    simp [bitAt_take, hin, hbits, bitAt_replicate_zero]
  · simp only [validateMnemonic, mnemonicWordMultiple, hmult, if_false, bitsPerWord,
      entropyBitDivisor, byteBits, hdata, bind_eq_bind, bind_some, hent]
    rw [resizeChunk_of_le (by omega)]

theorem validateMnemonic_of_not_mem (hwords : ¬ ∀ word ∈ words, word ∈ lexicon.val) :
    validateMnemonic hashes words lexicon = some false := by
  by_cases hmult : words.length % 3 ≠ 0
  · simp [validateMnemonic, mnemonicWordMultiple, hmult]
  · have hdata := @writeWords_of_not_mem lexicon words 0
      (List.replicate ((11 * words.length + 8 - 1) / 8) 0) hwords
      (by rw [List.length_replicate]; omega)
    simp only [validateMnemonic, mnemonicWordMultiple, hmult, if_false, bitsPerWord, byteBits,
      hdata, Option.bind_eq_bind, Option.bind_some, Option.pure_def]

theorem equal_ne_none {mnemonic others : List Text} (h : mnemonic.length = others.length) :
    equal mnemonic others = some (decide (mnemonic = others)) := by
  induction mnemonic generalizing others with
  | nil => simp [equal, eq_nil_of_length_eq_zero h.symm]
  | cons word mnemonic ih =>
    cases others with
    | nil => simp at h
    | cons other others =>
      by_cases hword : word = other
      · simp [equal, hword, ih (Nat.succ.inj h)]
      · simp [equal, hword]

theorem length_wordsOf (lexicon : Dictionary) (positions : List Nat) :
    (wordsOf lexicon positions).length = positions.length := length_map ..

theorem mem_of_mem_wordsOf {positions : List Nat} (h : ∀ position ∈ positions, position < 2048) :
    ∀ word ∈ wordsOf lexicon positions, word ∈ lexicon.val := by
  intro word hword
  obtain ⟨position, hposition, rfl⟩ := mem_map.mp hword
  have hlt : position < lexicon.val.length := by
    rw [lexicon.property]
    exact h position hposition
  rw [getD_eq_getElem _ _ hlt]
  exact getElem_mem hlt

/-- Words pass if they are the mnemonic of their first bits. -/
theorem validateMnemonic_eq_decide (hlen : words.length = 3 * k) (hk : k ≤ 256)
    (hwords : ∀ word ∈ words, word ∈ lexicon.val) :
    ∃ entropy : DataChunk, entropy.length = 4 * k ∧
      (∀ i < 32 * k, bitAt entropy i = bitOf 11 (positionsOf lexicon words) i) ∧
      validateMnemonic hashes words lexicon =
        some (decide (createMnemonic hashes entropy lexicon = some words)) := by
  obtain ⟨entropy, hent, hbits, hvalidate⟩ := validateMnemonic_eq hashes hlen hwords
  refine ⟨entropy, hent, hbits, ?_⟩
  rw [hvalidate, createMnemonic_eq hashes lexicon hent hk, bind_eq_bind, bind_some,
    equal_ne_none (by rw [length_wordsOf, length_groups, hlen])]
  simp only [Option.some.injEq]

theorem length_createMnemonic {entropy : DataChunk} (hlen : entropy.length = 4 * k) (hk : k ≤ 256)
    (h : createMnemonic hashes entropy lexicon = some words) : words.length = 3 * k := by
  rw [createMnemonic_eq hashes lexicon hlen hk, Option.some.injEq] at h
  rw [← h, length_wordsOf, length_groups]

/-- All accesses are within bounds unless there are too many words. -/
theorem validateMnemonic_ne_none_iff (lexicon : Dictionary) (words : List Text) :
    validateMnemonic hashes words lexicon ≠ none ↔
      (3 ∣ words.length → (∀ word ∈ words, word ∈ lexicon.val) → words.length ≤ 768) := by
  by_cases hmult : 3 ∣ words.length
  · by_cases hwords : ∀ word ∈ words, word ∈ lexicon.val
    · obtain ⟨k, hk⟩ := hmult
      by_cases hle : k ≤ 256
      · obtain ⟨entropy, -, -, hvalidate⟩ := validateMnemonic_eq_decide hashes hk hle hwords
        have hbound : words.length ≤ 768 := by omega
        simp [hvalidate, hbound]
      · obtain ⟨entropy, hent, -, hvalidate⟩ := validateMnemonic_eq hashes hk hwords
        have hbound : ¬ words.length ≤ 768 := by omega
        rw [hvalidate, createMnemonic_eq_none hashes lexicon hent (not_le.mp hle)]
        simp only [bind_eq_bind, bind_none, ne_eq, not_true_eq_false, false_iff]
        exact fun himp => hbound (himp (Dvd.intro k hk.symm) hwords)
    · simp [validateMnemonic_of_not_mem hashes hwords, hwords]
  · have hmod : words.length % 3 ≠ 0 := fun h => hmult (Nat.dvd_of_mod_eq_zero h)
    simp [validateMnemonic, mnemonicWordMultiple, hmod, hmult]

end

/-- The accesses of both functions are within bounds for exactly the entropies and lists whose
checksum is no longer than a hash. -/
theorem in_bounds_iff (hashes : Hashes) (lexicon : Dictionary) (entropy : DataChunk)
    (words : List Text) :
    (createMnemonic hashes entropy lexicon ≠ none ↔ (4 ∣ entropy.length → entropy.length ≤ 1024)) ∧
      (validateMnemonic hashes words lexicon ≠ none ↔
        (3 ∣ words.length → (∀ word ∈ words, word ∈ lexicon.val) → words.length ≤ 768)) :=
  ⟨createMnemonic_ne_none_iff hashes lexicon entropy,
    validateMnemonic_ne_none_iff hashes lexicon words⟩

/-- A dictionary with a word of each length. -/
def tallyDictionary : Dictionary :=
  ⟨(List.range 2048).map fun n => List.replicate (n + 1) 'a', by
    rw [List.length_map, List.length_range]⟩

theorem tallyDictionary_nodup : tallyDictionary.val.Nodup := by
  simp only [tallyDictionary]
  refine List.Nodup.map (fun m n h => ?_) nodup_range
  have hlen := congrArg length h
  rw [length_replicate, length_replicate] at hlen
  exact Nat.succ.inj hlen

/-- An entropy of 1028 bytes has 257 bits of checksum, and 771 words are read into such an entropy. -/
theorem out_of_bounds_sample :
    createMnemonic Hashes.ofSha256 (List.replicate 1028 0) tallyDictionary = none ∧
      validateMnemonic Hashes.ofSha256 (List.replicate 771 ['a']) tallyDictionary = none := by
  constructor
  · apply createMnemonic_eq_none (k := 257)
    · rw [length_replicate]
    · decide
  · by_contra hsome
    have hmem : ['a'] ∈ tallyDictionary.val := by
      simp only [tallyDictionary]
      exact List.mem_map.mpr ⟨0, List.mem_range.mpr (by decide), rfl⟩
    have hbound := (validateMnemonic_ne_none_iff _ _ _).mp hsome
      (by rw [length_replicate]; decide)
      (fun word hword => by rw [eq_of_mem_replicate hword]; exact hmem)
    rw [length_replicate] at hbound
    exact absurd hbound (by decide)

section

variable {lexicon : Dictionary} (hdistinct : lexicon.val.Nodup)

include hdistinct

theorem findPosition_getD {position : Nat} (h : position < 2048) :
    findPosition lexicon.val (lexicon.val.getD position []) = some position := by
  have hlt : position < lexicon.val.length := by rwa [lexicon.property]
  rw [findPosition, getD_eq_getElem _ _ hlt, findIdx?_eq_some_iff_getElem]
  refine ⟨hlt, beq_self_eq_true _, fun j hj => ?_⟩
  have hne : lexicon.val[j] ≠ lexicon.val[position] := fun heq =>
    hj.ne (hdistinct.getElem_inj_iff.mp heq)
  simpa using hne

theorem positionsOf_wordsOf {positions : List Nat} (h : ∀ position ∈ positions, position < 2048) :
    positionsOf lexicon (wordsOf lexicon positions) = positions := by
  rw [positionsOf, wordsOf, List.map_map]
  refine (List.map_congr_left fun position hmem => ?_).trans (List.map_id positions)
  simp only [Function.comp_apply, findPosition_getD hdistinct (h position hmem), Option.getD_some, id]

/-- The bits of the words of an entropy are the bits of the entropy and of its hash. -/
theorem bitOf_positionsOf (hashes : Hashes) {entropy : DataChunk} {words : List Text} {k : Nat}
    (hlen : entropy.length = 4 * k) (hk : k ≤ 256)
    (hcreate : createMnemonic hashes entropy lexicon = some words) {i : Nat} (hi : i < 32 * k) :
    bitOf 11 (positionsOf lexicon words) i = bitAt entropy i := by
  rw [createMnemonic_eq hashes lexicon hlen hk, Option.some.injEq] at hcreate
  have hin : i < 8 * entropy.length := by omega
  rw [← hcreate, positionsOf_wordsOf hdistinct fun _ => lt_of_mem_groups _,
    bitOf_groups _ (by omega), checked, bitAt_append, if_pos hin]

/-- Words have one entropy. -/
theorem createMnemonic_injective (hashes : Hashes) {entropy other : DataChunk}
    (hent : 4 ∣ entropy.length) (hother : 4 ∣ other.length) {words : List Text}
    (h : createMnemonic hashes entropy lexicon = some words)
    (h' : createMnemonic hashes other lexicon = some words) : entropy = other := by
  obtain ⟨k, hk⟩ := hent
  obtain ⟨k', hk'⟩ := hother
  have hle := (createMnemonic_ne_none_iff hashes lexicon entropy).mp (by simp [h]) ⟨k, hk⟩
  have hle' := (createMnemonic_ne_none_iff hashes lexicon other).mp (by simp [h']) ⟨k', hk'⟩
  have hwords : words.length = 3 * k := length_createMnemonic hashes hk (by omega) h
  have hwords' : words.length = 3 * k' := length_createMnemonic hashes hk' (by omega) h'
  obtain rfl : k = k' := by omega
  refine ext_bitAt (hk.trans hk'.symm) fun i => ?_
  by_cases hi : i < 32 * k
  · rw [← bitOf_positionsOf hdistinct hashes hk (by omega) h hi,
      bitOf_positionsOf hdistinct hashes hk' (by omega) h' hi]
  · rw [bitAt_of_length_le (by omega), bitAt_of_length_le (by omega)]

end

/-- With distinct words the lists that pass are exactly the mnemonics of entropies, each of one. -/
theorem mnemonics_encode_entropy (hashes : Hashes) (lexicon : Dictionary)
    (hdistinct : lexicon.val.Nodup) :
    (∀ (entropy : DataChunk) (k : Nat), entropy.length = 4 * k → k ≤ 256 →
      ∃ words, createMnemonic hashes entropy lexicon = some words ∧
        validateMnemonic hashes words lexicon = some true) ∧
    (∀ (entropy other : DataChunk) (k l : Nat), entropy.length = 4 * k → k ≤ 256 →
      other.length = 4 * l → l ≤ 256 → entropy ≠ other →
      createMnemonic hashes entropy lexicon ≠ createMnemonic hashes other lexicon) ∧
    ∀ words : List Text, words.length ≤ 768 → validateMnemonic hashes words lexicon = some true →
      ∃! entropy : DataChunk, 4 ∣ entropy.length ∧
        createMnemonic hashes entropy lexicon = some words := by
  refine ⟨fun entropy k hlength hk => ?_, fun entropy other k l hlength hk hother hl hne heq => ?_,
    fun words hwords hvalid => ?_⟩
  · have hcreate := createMnemonic_eq hashes lexicon hlength hk
    have hsize := length_createMnemonic hashes hlength hk hcreate
    obtain ⟨entropy', hlength', hbits, hvalidate⟩ :=
      validateMnemonic_eq_decide hashes hsize hk (mem_of_mem_wordsOf fun _ => lt_of_mem_groups _)
    obtain rfl : entropy' = entropy := by
      refine ext_bitAt (hlength'.trans hlength.symm) fun i => ?_
      by_cases hi : i < 32 * k
      · rw [hbits i hi, bitOf_positionsOf hdistinct hashes hlength hk hcreate hi]
      · rw [bitAt_of_length_le (by omega), bitAt_of_length_le (by omega)]
    exact ⟨_, hcreate, by rw [hvalidate, hcreate]; simp⟩
  · have hcreate := createMnemonic_eq hashes lexicon hlength hk
    exact hne (createMnemonic_injective hdistinct hashes ⟨k, hlength⟩ ⟨l, hother⟩ hcreate
      (heq ▸ hcreate))
  · have hmem : ∀ word ∈ words, word ∈ lexicon.val := by
      by_contra hnot
      simp [validateMnemonic_of_not_mem hashes hnot] at hvalid
    have hmultiple : words.length % 3 = 0 := by
      by_contra hmod
      simp [validateMnemonic, mnemonicWordMultiple, hmod] at hvalid
    obtain ⟨k, hk⟩ := Nat.dvd_of_mod_eq_zero hmultiple
    obtain ⟨entropy, hlength, -, hvalidate⟩ := validateMnemonic_eq_decide hashes hk (by omega) hmem
    have hcreate : createMnemonic hashes entropy lexicon = some words := by
      simpa [hvalidate] using hvalid
    exact ⟨entropy, ⟨⟨k, hlength⟩, hcreate⟩, fun other hother =>
      createMnemonic_injective hdistinct hashes hother.1 ⟨k, hlength⟩ hother.2 hcreate⟩

theorem mnemonics_encode_entropy_tally :
    tallyDictionary.val.Nodup ∧
      ∃ words, createMnemonic Hashes.ofSha256 [0, 0, 0, 0] tallyDictionary = some words ∧
        validateMnemonic Hashes.ofSha256 words tallyDictionary = some true :=
  ⟨tallyDictionary_nodup,
    (mnemonics_encode_entropy Hashes.ofSha256 tallyDictionary tallyDictionary_nodup).1
      [0, 0, 0, 0] 1 rfl (by decide)⟩

end Mnemonic

end BitprimCore
