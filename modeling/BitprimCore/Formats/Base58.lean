import BitprimCore.Library.BaseConversion
import BitprimCore.Utility.Data

/-!
# Base 58

The text of bytes as a number in base 58, behind as many ones as there are zeros in front of the
bytes (`formats/base_58`). Both directions compute in place, in a width that is estimated from the
number of bytes or characters. The estimates suffice, so the text is read back and a text that is
read is the text of what was read.
-/

namespace BitprimCore

open List Option Positional

variable {factor base index : Nat} {text : Text} (data : DataChunk)

/-- No zero, I, O or l. -/
def base58Chars : List Char := "123456789ABCDEFGHJKLMNPQRSTUVWXYZabcdefghijkmnopqrstuvwxyz".toList

/-- Apply "data = data * factor + carry" to digits of a base, from the last one to the first. -/
def mulAddInPlace (factor base : Nat) (data : DataChunk) (carry : Nat) : DataChunk :=
  (data.foldr
    (fun digit state =>
      (UInt8.ofNat ((state.2 + factor * digit.toNat) % base) :: state.1,
        (state.2 + factor * digit.toNat) / base))
    (([], carry) : DataChunk × Nat)).1

/-- Times 256 in base 58. -/
def packValue (indexes : DataChunk) (carry : Nat) : DataChunk := mulAddInPlace 256 58 indexes carry

/-- Times 58 in base 256. -/
def unpackChar (data : DataChunk) (carry : Nat) : DataChunk := mulAddInPlace 58 256 data carry

/-- Leading zeros become ones. -/
def encodeBase58 (unencoded : DataChunk) : Text :=
  let leadingZeros := (unencoded.takeWhile (· == 0)).length
  let numberNonzero := unencoded.length - leadingZeros
  let indexesSize := numberNonzero * 138 / 100 + 1
  let indexes := (unencoded.drop leadingZeros).foldl (fun indexes byte => packValue indexes byte.toNat)
    (List.replicate indexesSize 0)
  List.replicate leadingZeros '1' ++
    (indexes.dropWhile (· == 0)).map fun index => base58Chars.getD index.toNat '\x00'

/-- Leading ones become zeros. -/
def decodeBase58 (text : Text) : Option DataChunk := do
  let leadingZeros := (text.takeWhile (· == '1')).length
  let dataSize := text.length * 733 / 1000 + 1
  let data ← (text.drop leadingZeros).foldlM
    (fun data c => (base58Chars.idxOf? c).map (unpackChar data)) (List.replicate dataSize 0)
  return List.replicate leadingZeros 0 ++ data.dropWhile (· == 0)

/-- Decoding into an array goes by way of a pointer to characters, so the text ends at a null. -/
def decodeBase58Array (size : Nat) (text : Text) : Option (Bytes size) :=
  (decodeBase58 (text.takeWhile (· != '\x00'))).bind fun buffer =>
    if h : buffer.length = size then some ⟨buffer, h⟩ else none

/-- What is left of the carry behind the first digit. -/
def carryInPlace (factor base : Nat) (data : DataChunk) (carry : Nat) : Nat :=
  (data.foldr
    (fun digit state =>
      (UInt8.ofNat ((state.2 + factor * digit.toNat) % base) :: state.1,
        (state.2 + factor * digit.toNat) / base))
    (([], carry) : DataChunk × Nat)).2

theorem mulAddInPlace_carryInPlace (hpos : 0 < base) (hbyte : base ≤ 256) (data : DataChunk)
    (carry : Nat) :
    ((mulAddInPlace factor base data carry).map UInt8.toNat, carryInPlace factor base data carry) =
      mulAdd base factor (data.map UInt8.toNat) carry := by
  unfold mulAddInPlace carryInPlace
  induction data with
  | nil => rfl
  | cons digit data ih =>
    have hlt : ∀ n, n % base < 256 := fun n => lt_of_lt_of_le (Nat.mod_lt n hpos) hbyte
    rw [map_cons, mulAdd_cons, ← ih, foldr_cons]
    simp only [map_cons, UInt8.toNat_ofNat', Nat.mod_eq_of_lt (hlt _)]

theorem map_toNat_mulAddInPlace (hpos : 0 < base) (hbyte : base ≤ 256) (data : DataChunk)
    (carry : Nat) :
    (mulAddInPlace factor base data carry).map UInt8.toNat =
      (mulAdd base factor (data.map UInt8.toNat) carry).1 :=
  congrArg Prod.fst (mulAddInPlace_carryInPlace hpos hbyte data carry)

theorem toNat_beq_zero (byte : UInt8) : (byte.toNat == 0) = (byte == 0) := by
  rw [Bool.eq_iff_iff, beq_iff_eq, beq_iff_eq, ← UInt8.toNat_inj]
  rfl

theorem zeros_map_toNat : (data.takeWhile (· == 0)).length = zeros (data.map UInt8.toNat) := by
  rw [zeros, takeWhile_map, length_map]
  simp only [Function.comp_def, toNat_beq_zero]

theorem map_toNat_dropWhile :
    (data.dropWhile (· == 0)).map UInt8.toNat = (data.map UInt8.toNat).dropWhile (· == 0) := by
  rw [dropWhile_map]
  simp only [Function.comp_def, toNat_beq_zero]

/-- In a width that suffices the loop leaves the digits of the number, behind zeros. -/
theorem dropWhile_foldl_mulAddInPlace {width : Nat} (hbase : 1 < base) (hbyte : base ≤ 256)
    (hfactor : 0 < factor) {digits : List Nat} (h : value factor digits < base ^ width) :
    ((digits.foldl (mulAddInPlace factor base) (replicate width 0)).dropWhile
      (· == 0)).map UInt8.toNat =
      significant base (value factor digits) := by
  have hpos : 0 < base := Nat.lt_of_succ_lt hbase
  have hmap : ∀ data : DataChunk, (digits.foldl (mulAddInPlace factor base) data).map UInt8.toNat =
      digits.foldl (fun out digit => (mulAdd base factor out digit).1) (data.map UInt8.toNat) := by
    clear h
    induction digits with
    | nil => exact fun _ => rfl
    | cons digit digits ih =>
      intro data
      rw [foldl_cons, foldl_cons, ih, map_toNat_mulAddInPlace hpos hbyte]
  obtain ⟨-, hlt, hval⟩ := foldl_mulAdd hpos hfactor h
  rw [map_toNat_dropWhile, hmap, map_replicate, UInt8.toNat_zero, dropWhile_zero_eq hbase hlt, hval]

/-- The digit of a value. -/
def base58Char (index : Nat) : Char := base58Chars.getD index '\x00'

theorem byte_lt : ∀ n ∈ data.map UInt8.toNat, n < 256 := by
  intro n hn
  obtain ⟨byte, -, rfl⟩ := mem_map.mp hn
  exact byte.toNat_lt

theorem map_ofNat_map_toNat : (data.map UInt8.toNat).map UInt8.ofNat = data := by
  rw [List.map_map]
  exact (List.map_congr_left fun byte _ => UInt8.ofNat_toNat).trans (List.map_id' data)

variable {size : Nat} {c : Char} (count : Nat) {carry : Nat}

/-- One hundred and thirty-eight characters hold a hundred bytes. -/
theorem pow_bytes_le : 256 ^ count ≤ 58 ^ (count * 138 / 100 + 1) :=
  pow_le_pow_ratio (by decide) (by decide) (by decide)
    (by decide : 256 ^ 8 ≤ 58 ^ 11) (by decide) count

/-- Seven hundred and thirty-three bytes hold a thousand characters. -/
theorem pow_chars_le : 58 ^ count ≤ 256 ^ (count * 733 / 1000 + 1) :=
  pow_le_pow_ratio (by decide) (by decide) (by decide)
    (by decide +kernel : 58 ^ 71 ≤ 256 ^ 52) (by decide) count

/-- The text is that of the bytes, converted to base 58. -/
theorem encodeBase58_eq :
    encodeBase58 data = (convert 256 58 (data.map UInt8.toNat)).map base58Char := by
  set zeros := zeros (data.map UInt8.toNat) with hzeros
  have hval : value 256 ((data.drop zeros).map UInt8.toNat) = value 256 (data.map UInt8.toNat) := by
    rw [List.map_drop]
    exact value_drop_zeros _
  have hwidth : value 256 ((data.drop zeros).map UInt8.toNat) <
      58 ^ ((data.length - zeros) * 138 / 100 + 1) := by
    refine Nat.lt_of_lt_of_le (value_lt (by decide) (byte_lt _)) ?_
    rw [List.length_map, List.length_drop]
    exact pow_bytes_le _
  have hindexes := dropWhile_foldl_mulAddInPlace (by decide) (by decide) (by decide) hwidth
  rw [hval, List.foldl_map] at hindexes
  rw [convert, ← hindexes, List.map_append, List.map_replicate, List.map_map]
  simp only [encodeBase58, zeros_map_toNat]
  rfl

theorem idxOf_base58Char : ∀ index < 58, base58Chars.idxOf? (base58Char index) = some index := by
  decide +kernel

theorem base58Char_beq_one : ∀ index < 58, (base58Char index == '1') = (index == 0) := by
  decide +kernel

theorem base58Char_ne_null : ∀ index < 58, base58Char index ≠ '\x00' := by
  decide +kernel

theorem base58Char_eq_get (h : index < 58) : base58Char index = base58Chars.get ⟨index, h⟩ := by
  rw [base58Char, getD_eq_getElem?_getD, getElem?_eq_getElem (l := base58Chars) h]
  rfl

theorem exists_index (h : base58Chars.idxOf? c = some index) :
    index < 58 ∧ base58Char index = c := by
  obtain ⟨hlt, hget, -⟩ := idxOf?_eq_some_iff.mp h
  exact ⟨hlt, (base58Char_eq_get hlt).trans hget⟩

variable {digits : List Nat}

theorem zeros_map_base58Char (h : ∀ d ∈ digits, d < 58) :
    ((digits.map base58Char).takeWhile (· == '1')).length = zeros digits := by
  unfold zeros
  induction digits with
  | nil => rfl
  | cons digit digits ih =>
    rw [forall_mem_cons] at h
    rw [map_cons, takeWhile_cons, takeWhile_cons, base58Char_beq_one digit h.1]
    cases digit == 0 with
    | true => exact congrArg Nat.succ (ih h.2)
    | false => rfl

theorem foldlM_map_base58Char (h : ∀ d ∈ digits, d < 58) (data : DataChunk) :
    (digits.map base58Char).foldlM
        (fun data c => (base58Chars.idxOf? c).map (unpackChar data)) data =
      some (digits.foldl (mulAddInPlace 58 256) data) := by
  induction digits generalizing data with
  | nil => rfl
  | cons digit digits ih =>
    rw [forall_mem_cons] at h
    rw [map_cons, foldlM_cons, idxOf_base58Char digit h.1]
    exact ih h.2 _

/-- The text of digits is converted to bytes. -/
theorem decodeBase58_map (h : ∀ d ∈ digits, d < 58) :
    decodeBase58 (digits.map base58Char) = some ((convert 58 256 digits).map UInt8.ofNat) := by
  have hrest : ∀ d ∈ digits.drop (zeros digits), d < 58 :=
    fun d hd => h d (mem_of_mem_drop hd)
  have hwidth : value 58 (digits.drop (zeros digits)) < 256 ^ (digits.length * 733 / 1000 + 1) := by
    rw [value_drop_zeros]
    exact lt_of_lt_of_le (value_lt (by decide) h) (pow_chars_le _)
  have hdata := dropWhile_foldl_mulAddInPlace (by decide) (by decide) (by decide) hwidth
  rw [value_drop_zeros] at hdata
  have hbytes := congrArg (map UInt8.ofNat) hdata
  rw [map_ofNat_map_toNat] at hbytes
  simp only [decodeBase58, zeros_map_base58Char h, ← map_drop, length_map,
    foldlM_map_base58Char hrest, convert, map_append, map_replicate, ← hbytes]
  rfl

theorem exists_digits_of_foldlM {data result : DataChunk}
    (h : text.foldlM (fun data c => (base58Chars.idxOf? c).map (unpackChar data)) data =
      some result) :
    ∃ digits : List Nat, (∀ d ∈ digits, d < 58) ∧ digits.map base58Char = text := by
  induction text generalizing data with
  | nil => exact ⟨[], by simp, rfl⟩
  | cons c text ih =>
    rw [foldlM_cons] at h
    obtain ⟨next, hnext, hrest⟩ := bind_eq_some_iff.mp h
    obtain ⟨index, hidx, -⟩ := map_eq_some_iff.mp hnext
    obtain ⟨hlt, rfl⟩ := exists_index hidx
    obtain ⟨digits, hdigits, rfl⟩ := ih hrest
    exact ⟨index :: digits, forall_mem_cons.mpr ⟨hlt, hdigits⟩, rfl⟩

/-- Only a text of digits is decoded. -/
theorem exists_digits {data : DataChunk} (h : decodeBase58 text = some data) :
    ∃ digits : List Nat, (∀ d ∈ digits, d < 58) ∧ digits.map base58Char = text := by
  obtain ⟨buffer, hfold, -⟩ := bind_eq_some_iff.mp h
  obtain ⟨digits, hdigits, htext⟩ := exists_digits_of_foldlM hfold
  set ones := (text.takeWhile (· == '1')).length
  refine ⟨replicate ones 0 ++ digits, forall_mem_append.mpr ⟨?_, hdigits⟩, ?_⟩
  · intro d hd
    rw [(mem_replicate.mp hd).2]
    decide
  · have hones : text.take ones = replicate ones '1' := by
      rw [← prefix_iff_eq_take.mp ( takeWhile_prefix _)]
      apply eq_replicate_of_mem
      intro c hc
      have hone := mem_takeWhile_imp hc
      exact beq_iff_eq.mp hone
    have hone : base58Char 0 = '1' := rfl
    rw [map_append, map_replicate, hone, htext, ← hones, take_append_drop]

theorem decodeBase58_encodeBase58 : decodeBase58 (encodeBase58 data) = some data := by
  have hdigits : ∀ d ∈ convert 256 58 (data.map UInt8.toNat), d < 58 :=
    fun d hd => lt_of_mem_convert (by decide) hd
  rw [encodeBase58_eq, decodeBase58_map hdigits,
    convert_convert (by decide) (byte_lt data), map_ofNat_map_toNat]

/-- A text that is decoded is the text of what it is decoded to. -/
theorem encodeBase58_of_decodeBase58 {data : DataChunk} (h : decodeBase58 text = some data) :
    encodeBase58 data = text := by
  obtain ⟨digits, hdigits, rfl⟩ := exists_digits h
  rw [decodeBase58_map hdigits] at h
  cases h
  have hbytes : ((convert 58 256 digits).map UInt8.ofNat).map UInt8.toNat =
      convert 58 256 digits := by
    rw [List.map_map]
    refine (map_congr_left fun d hd => ?_).trans (map_id' _)
    exact UInt8.toNat_ofNat_of_lt' (lt_of_mem_convert (by decide) hd)
  rw [encodeBase58_eq, hbytes, convert_convert (by decide) hdigits]

/-- A null is never written. -/
theorem null_notMem_encodeBase58 : '\x00' ∉ encodeBase58 data := by
  rw [encodeBase58_eq]
  intro hmem
  obtain ⟨d, hd, hchar⟩ := mem_map.mp hmem
  exact base58Char_ne_null d (lt_of_mem_convert (by decide) hd) hchar

theorem takeWhile_encodeBase58 :
    (encodeBase58 data).takeWhile (· != '\x00') = encodeBase58 data := by
  rw [takeWhile_eq_self_iff]
  intro c hc
  rw [bne_iff_ne]
  rintro rfl
  exact null_notMem_encodeBase58 data hc

theorem decodeBase58Array_encodeBase58 (key : Bytes size) :
    decodeBase58Array size (encodeBase58 key.val) = some key := by
  rw [decodeBase58Array, takeWhile_encodeBase58, decodeBase58_encodeBase58, bind_some,
    dif_pos key.property]

/-- A text that is decoded into an array is written again from that array only, and only if it has
no null. -/
theorem encodeBase58_eq_iff {key : Bytes size} (h : decodeBase58Array size text = some key)
    (data : DataChunk) :
    encodeBase58 data = text ↔ '\x00' ∉ text ∧ data = key.val := by
  obtain ⟨buffer, hdec, hsize⟩ := bind_eq_some_iff.mp h
  split_ifs at hsize
  cases hsize
  have htext : '\x00' ∉ text → text.takeWhile (· != '\x00') = text := by
    intro hnull
    rw [takeWhile_eq_self_iff]
    intro c hc
    rw [bne_iff_ne]
    rintro rfl
    exact hnull hc
  constructor
  · rintro rfl
    have hnull := null_notMem_encodeBase58 data
    rw [htext hnull, decodeBase58_encodeBase58] at hdec
    exact ⟨hnull, Option.some.inj hdec⟩
  · rintro ⟨hnull, rfl⟩
    rw [htext hnull] at hdec
    exact encodeBase58_of_decodeBase58 hdec

/-- The carries that are asserted to be zero, for each digit taken in. -/
def carriesInPlace (factor base : Nat) : DataChunk → List Nat → List Nat
  | _, [] => []
  | data, digit :: digits =>
    carryInPlace factor base data digit ::
      carriesInPlace factor base (mulAddInPlace factor base data digit) digits

/-- The carries of `pack_value` in the loop of `encode_base58`. -/
def packCarries (unencoded : DataChunk) : List Nat :=
  let leadingZeros := (unencoded.takeWhile (· == 0)).length
  let numberNonzero := unencoded.length - leadingZeros
  let indexesSize := numberNonzero * 138 / 100 + 1
  carriesInPlace 256 58 (List.replicate indexesSize 0)
    ((unencoded.drop leadingZeros).map UInt8.toNat)

/-- The indexes of the characters up to the first one that has none. -/
def base58Indexes : Text → List Nat
  | [] => []
  | c :: text =>
    match base58Chars.idxOf? c with
    | none => []
    | some index => index :: base58Indexes text

/-- The carries of `unpack_char` in the loop of `decode_base58`, which may end at a character that
is not of the alphabet. -/
def unpackCarries (text : Text) : List Nat :=
  let leadingZeros := (text.takeWhile (· == '1')).length
  let dataSize := text.length * 733 / 1000 + 1
  carriesInPlace 58 256 (List.replicate dataSize 0) (base58Indexes (text.drop leadingZeros))

/-- A number that fits in the end fits after each digit. -/
theorem eq_zero_of_mem_carriesInPlace (hpos : 0 < base) (hbyte : base ≤ 256) (hfactor : 0 < factor)
    {data : DataChunk} {digits : List Nat}
    (h : value base (data.map UInt8.toNat) * factor ^ digits.length +
      value factor digits < base ^ data.length)
    (hcarry : carry ∈ carriesInPlace factor base data digits) : carry = 0 := by
  induction digits generalizing data with
  | nil => cases hcarry
  | cons digit digits ih =>
    have hpair : ((mulAddInPlace factor base data digit).map UInt8.toNat,
        carryInPlace factor base data digit) = _ := mulAddInPlace_carryInPlace hpos hbyte data digit
    set number := value base (data.map UInt8.toNat) with hnum
    have htotal : (factor * number + digit) * factor ^ digits.length +
        value factor digits < base ^ data.length := by
      rw [value_cons, length_cons] at h
      calc (factor * number + digit) * factor ^ digits.length + value factor digits
          = number * factor ^ (digits.length + 1) +
            (digit * factor ^ digits.length + value factor digits) := by ring
        _ < base ^ data.length := h
    have hfits : factor * number + digit < base ^ (data.map UInt8.toNat).length := by
      rw [length_map]
      calc factor * number + digit
          ≤ (factor * number + digit) * factor ^ digits.length :=
            Nat.le_mul_of_pos_right _ (Nat.pow_pos hfactor)
        _ ≤ (factor * number + digit) * factor ^ digits.length +
            value factor digits := Nat.le_add_right _ _
        _ < base ^ data.length := htotal
    have hval := value_mulAdd_of_lt hfits
    have hlen : (mulAdd base factor (data.map UInt8.toNat) digit).1.length = _ :=
      length_mulAdd (data.map UInt8.toNat) digit
    rw [← hpair] at hval hlen
    rw [length_map, length_map] at hlen
    rcases mem_cons.mp hcarry with rfl | hrest
    · exact (congrArg Prod.snd hpair).trans (carry_mulAdd_of_lt hfits)
    · refine ih ?_ hrest
      rw [hval, hlen]
      exact htotal

theorem eq_zero_of_mem_packCarries {data : DataChunk} (h : carry ∈ packCarries data) :
    carry = 0 := by
  refine eq_zero_of_mem_carriesInPlace (by decide) (by decide) (by decide) ?_ h
  rw [map_replicate, UInt8.toNat_zero, value_replicate_zero, zero_mul, zero_add, length_replicate]
  refine lt_of_lt_of_le (value_lt (by decide) (byte_lt _)) ?_
  rw [length_map, length_drop]
  exact pow_bytes_le _

theorem lt_of_mem_base58Indexes (h : index ∈ base58Indexes text) : index < 58 := by
  induction text with
  | nil => cases h
  | cons c text ih =>
    unfold base58Indexes at h
    cases hidx : base58Chars.idxOf? c with
    | none =>
      rw [hidx] at h
      cases h
    | some first =>
      rw [hidx] at h
      rcases mem_cons.mp h with rfl | hrest
      · exact (exists_index hidx).1
      · exact ih hrest

theorem length_base58Indexes_le (text : Text) : (base58Indexes text).length ≤ text.length := by
  induction text with
  | nil => exact le_refl 0
  | cons c text ih =>
    unfold base58Indexes
    cases base58Chars.idxOf? c with
    | none => exact Nat.zero_le _
    | some first => exact Nat.succ_le_succ ih

theorem eq_zero_of_mem_unpackCarries (h : carry ∈ unpackCarries text) : carry = 0 := by
  refine eq_zero_of_mem_carriesInPlace (by decide) (by decide) (by decide) ?_ h
  rw [map_replicate, UInt8.toNat_zero, value_replicate_zero, zero_mul, zero_add, length_replicate]
  set rest := text.drop (text.takeWhile (· == '1')).length
  have hlen : (base58Indexes rest).length ≤ text.length :=
    (length_base58Indexes_le rest).trans (drop_suffix _ text).length_le
  calc value 58 (base58Indexes rest)
      < 58 ^ (base58Indexes rest).length :=
        value_lt (by decide) fun index hidx => lt_of_mem_base58Indexes hidx
    _ ≤ 58 ^ text.length := Nat.pow_le_pow_right (by decide) hlen
    _ ≤ 256 ^ (text.length * 733 / 1000 + 1) := pow_chars_le _

/-- A text over the alphabet is one of digits. -/
theorem exists_digits_of_forall_mem (h : ∀ c ∈ text, c ∈ base58Chars) :
    ∃ digits : List Nat, (∀ d ∈ digits, d < 58) ∧ digits.map base58Char = text := by
  induction text with
  | nil => exact ⟨[], by simp, rfl⟩
  | cons c text ih =>
    rw [forall_mem_cons] at h
    obtain ⟨digits, hdigits, rfl⟩ := ih h.2
    obtain ⟨index, hlt, hget⟩ := getElem_of_mem h.1
    refine ⟨index :: digits, forall_mem_cons.mpr ⟨hlt, hdigits⟩, ?_⟩
    rw [map_cons, base58Char_eq_get hlt]
    exact congrArg (· :: _) hget

theorem base58Char_mem (h : index < 58) : base58Char index ∈ base58Chars := by
  rw [base58Char_eq_get h]
  exact get_mem _ _

theorem mem_base58Chars_of_mem {data : DataChunk} (h : c ∈ encodeBase58 data) :
    c ∈ base58Chars := by
  rw [encodeBase58_eq] at h
  obtain ⟨index, hidx, rfl⟩ := mem_map.mp h
  exact base58Char_mem (lt_of_mem_convert (by decide) hidx)

/-- Exactly the texts over the alphabet are decoded, each to the bytes it is the text of, and the
widths suffice in both directions. -/
theorem base58_bijective :
    (∀ data, decodeBase58 (encodeBase58 data) = some data) ∧
      (∀ text, (∀ c ∈ text, c ∈ base58Chars) →
        ∃ data, decodeBase58 text = some data ∧ encodeBase58 data = text) ∧
      (∀ text, (∃ c ∈ text, c ∉ base58Chars) → decodeBase58 text = none) ∧
      (∀ data, ∀ carry ∈ packCarries data, carry = 0) ∧
      ∀ text, ∀ carry ∈ unpackCarries text, carry = 0 := by
  refine ⟨decodeBase58_encodeBase58, ?_, ?_, fun _ _ => eq_zero_of_mem_packCarries,
    fun _ _ => eq_zero_of_mem_unpackCarries⟩
  · intro text htext
    obtain ⟨digits, hdigits, rfl⟩ := exists_digits_of_forall_mem htext
    exact ⟨_, decodeBase58_map hdigits, encodeBase58_of_decodeBase58 (decodeBase58_map hdigits)⟩
  · rintro text ⟨c, hc, hout⟩
    rw [eq_none_iff_forall_ne_some]
    intro data hdecode
    obtain ⟨digits, hdigits, rfl⟩ := exists_digits hdecode
    obtain ⟨d, hd, rfl⟩ := mem_map.mp hc
    exact hout (base58Char_mem (hdigits d hd))

end BitprimCore
