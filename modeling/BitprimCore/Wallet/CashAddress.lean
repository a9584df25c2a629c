import BitprimCore.Wallet.CashaddrText
import BitprimCore.Wallet.PaymentAddress

/-!
# Cash addresses

The text form of a payment address in the `bch` build: a version byte and the hash, regrouped into
values of five bits (`wallet/payment_address`).

## Implementation notes

Reading an address can leave defined behaviour in two ways: decoding cuts the checksum off fewer than
eight values, or a hash that is longer than the array is copied. Both are errors of the model. An
address that is not accepted is the invalid one.
-/

namespace BitprimCore

open List Positional

/-- The variables of `ConvertBits`. -/
structure BitBuffer where
  acc : Nat := 0
  bits : Nat := 0
  out : DataChunk := []

namespace BitBuffer

/-- The inner loop, which runs while the accumulator holds a whole group. -/
def flush (tobits : Nat) : Nat → BitBuffer → BitBuffer
  | 0, buffer => buffer
  | fuel + 1, buffer =>
    if buffer.bits ≥ tobits then
      flush tobits fuel
        { buffer with
          bits := buffer.bits - tobits
          out := buffer.out ++
            [UInt8.ofNat ((buffer.acc >>> (buffer.bits - tobits)) &&& (2 ^ tobits - 1))] }
    else buffer

/-- One turn of the outer loop. The inner loop takes at least one bit in each turn. -/
def next (frombits tobits : Nat) (buffer : BitBuffer) (value : UInt8) : BitBuffer :=
  flush tobits (buffer.bits + frombits)
    { buffer with
      acc := ((buffer.acc <<< frombits) ||| value.toNat) &&& (2 ^ (frombits + tobits - 1) - 1)
      bits := buffer.bits + frombits }

end BitBuffer

/-- The result and what was written, which is there also if the result is false. -/
def convertBits (frombits tobits : Nat) (pad : Bool) (values : DataChunk) : Bool × DataChunk :=
  let buffer := values.foldl (BitBuffer.next frombits tobits) {}
  if !pad && buffer.bits != 0 then (false, buffer.out)
  else if pad && buffer.bits != 0 then
    (true, buffer.out ++
      [UInt8.ofNat ((buffer.acc <<< (tobits - buffer.bits)) &&& (2 ^ tobits - 1))])
  else (true, buffer.out)

section

variable {frombits tobits : Nat} {values : DataChunk}

theorem toNat_and_mask (h : tobits ≤ 8) (n : Nat) :
    (UInt8.ofNat (n &&& (2 ^ tobits - 1))).toNat = n % 2 ^ tobits := by
  have hlt : n % 2 ^ tobits < 2 ^ 8 :=
    Nat.lt_of_lt_of_le (Nat.mod_lt n (Nat.two_pow_pos tobits)) (Nat.pow_le_pow_right (by decide) h)
  rw [Nat.and_two_pow_sub_one_eq_mod, UInt8.toNat_ofNat', Nat.mod_eq_of_lt hlt]

/-- The inner loop writes the groups of a number, as far as the accumulator knows it. -/
theorem BitBuffer.flush_spec (hpos : 0 < tobits) (hbyte : tobits ≤ 8) {n width fuel : Nat}
    {buffer : BitBuffer} (hfuel : buffer.bits ≤ fuel) (hacc : ∀ low, low + tobits ≤ buffer.bits →
      buffer.acc / 2 ^ low % 2 ^ tobits = n / 2 ^ low % 2 ^ tobits)
    (hout : buffer.out.map UInt8.toNat = digits (2 ^ tobits) width (n / 2 ^ buffer.bits)) :
    (flush tobits fuel buffer).acc = buffer.acc ∧
      (flush tobits fuel buffer).bits = buffer.bits % tobits ∧
      (flush tobits fuel buffer).out.map UInt8.toNat =
        digits (2 ^ tobits) (width + buffer.bits / tobits) (n / 2 ^ (buffer.bits % tobits)) := by
  induction fuel generalizing buffer width with
  | zero =>
    have hzero : buffer.bits = 0 := Nat.le_zero.mp hfuel
    rw [flush, hzero, Nat.zero_mod, Nat.zero_div, add_zero]
    rw [hzero] at hout
    exact ⟨rfl, rfl, hout⟩
  | succ fuel ih =>
    by_cases hmore : tobits ≤ buffer.bits
    · have hgroup : n / 2 ^ (buffer.bits - tobits) / 2 ^ tobits = n / 2 ^ buffer.bits := by
        rw [Nat.div_div_eq_div_mul, ← Nat.pow_add, Nat.sub_add_cancel hmore]
      have hwidth : width + 1 + (buffer.bits - tobits) / tobits = width + buffer.bits / tobits := by
        rw [Nat.div_eq_sub_div hpos hmore]
        omega
      rw [flush, if_pos hmore, Nat.mod_eq_sub_mod hmore, ← hwidth]
      apply ih
      · change buffer.bits - tobits ≤ fuel
        omega
      · intro low hlow
        change low + tobits ≤ buffer.bits - tobits at hlow
        exact hacc low (by omega)
      · rw [map_append, hout, map_singleton, toNat_and_mask hbyte,
          Nat.shiftRight_eq_div_pow, hacc _ (by omega), digits_concat, hgroup]
    · rw [flush, if_neg hmore, Nat.mod_eq_of_lt (not_le.mp hmore),
        Nat.div_eq_of_lt (not_le.mp hmore)]
      exact ⟨rfl, rfl, hout⟩

theorem or_and_mask {acc value : Nat} (hval : value < 2 ^ frombits) (width : Nat) :
    ((acc <<< frombits) ||| value) &&& (2 ^ width - 1) =
      (acc * 2 ^ frombits + value) % 2 ^ width := by
  rw [Nat.and_two_pow_sub_one_eq_mod, ← Nat.shiftLeft_add_eq_or_of_lt hval, Nat.shiftLeft_eq]

/-- The low bits of a number tell its groups. -/
theorem mod_two_pow_div {n low width : Nat} (h : low + tobits ≤ width) :
    n % 2 ^ width / 2 ^ low % 2 ^ tobits = n / 2 ^ low % 2 ^ tobits := by
  obtain ⟨rest, rfl⟩ := Nat.exists_eq_add_of_le (le_trans (Nat.le_add_right low tobits) h)
  rw [pow_add, Nat.mod_mul_right_div_self, Nat.mod_mod_of_dvd _ (Nat.pow_dvd_pow 2 (by omega))]

/-- The low bits of a number are all that a filled group shows. -/
theorem mod_mul_mod {n rest : Nat} (h : rest < tobits) :
    n % 2 ^ (frombits + tobits - 1) * 2 ^ (tobits - rest) % 2 ^ tobits =
      n * 2 ^ (tobits - rest) % 2 ^ tobits := by
  have hpow : 2 ^ tobits = 2 ^ rest * 2 ^ (tobits - rest) := by
    rw [← pow_add, Nat.add_sub_cancel' h.le]
  rw [hpow, Nat.mul_mod_mul_right, Nat.mul_mod_mul_right,
    Nat.mod_mod_of_dvd _ (Nat.pow_dvd_pow 2 (by omega))]

/-- The loop has taken in a number of a number of bits. -/
structure BitBuffer.Holds (frombits tobits total n : Nat) (buffer : BitBuffer) : Prop where
  acc : buffer.acc = n % 2 ^ (frombits + tobits - 1)
  bits : buffer.bits = total % tobits
  out : buffer.out.map UInt8.toNat = digits (2 ^ tobits) (total / tobits) (n / 2 ^ (total % tobits))

theorem BitBuffer.Holds.next (hpos : 0 < tobits) (hbyte : tobits ≤ 8) {total n : Nat}
    {buffer : BitBuffer} (hbuffer : buffer.Holds frombits tobits total n) {value : UInt8}
    (hval : value.toNat < 2 ^ frombits) :
    (buffer.next frombits tobits value).Holds frombits tobits (total + frombits)
      (n * 2 ^ frombits + value.toNat) := by
  set taken : BitBuffer :=
    { buffer with
      acc := ((buffer.acc <<< frombits) ||| value.toNat) &&& (2 ^ (frombits + tobits - 1) - 1)
      bits := buffer.bits + frombits } with htaken
  have hacc : taken.acc = (n * 2 ^ frombits + value.toNat) % 2 ^ (frombits + tobits - 1) := by
    change _ &&& _ = _
    rw [or_and_mask hval, hbuffer.acc, Nat.add_mod, Nat.mod_mul_mod, ← Nat.add_mod]
  have hbits : taken.bits = total % tobits + frombits := by
    change buffer.bits + frombits = _
    rw [hbuffer.bits]
  have hgroups : ∀ low, low + tobits ≤ taken.bits →
      taken.acc / 2 ^ low % 2 ^ tobits =
        (n * 2 ^ frombits + value.toNat) / 2 ^ low % 2 ^ tobits := by
    intro low hlow
    have hrest : total % tobits < tobits := Nat.mod_lt total hpos
    rw [hacc, mod_two_pow_div (by omega)]
  -- the groups that are out already do not change: the new value is below them
  have hout : taken.out.map UInt8.toNat = digits (2 ^ tobits) (total / tobits)
      ((n * 2 ^ frombits + value.toNat) / 2 ^ taken.bits) := by
    rw [hbits, add_comm (total % tobits), pow_add, ← Nat.div_div_eq_div_mul, mul_comm n,
      Nat.mul_add_div (Nat.two_pow_pos frombits), Nat.div_eq_of_lt hval, add_zero]
    exact hbuffer.out
  have hdiv : (total + frombits) / tobits = total / tobits + taken.bits / tobits := by
    conv_lhs => rw [← Nat.div_add_mod total tobits, add_assoc, Nat.mul_add_div hpos]
    rw [hbits]
  have hmod : (total + frombits) % tobits = taken.bits % tobits := by
    rw [hbits, Nat.mod_add_mod]
  obtain ⟨haccFlush, hbitsFlush, houtFlush⟩ := flush_spec hpos hbyte (le_refl taken.bits) hgroups hout
  refine ⟨haccFlush.trans hacc, ?_, ?_⟩
  · rw [hmod]
    exact hbitsFlush
  · rw [hmod, hdiv]
    exact houtFlush

/-- After some values the groups are those of the number that they spell. -/
theorem BitBuffer.foldl_next (hpos : 0 < tobits) (hbyte : tobits ≤ 8)
    (h : ∀ v ∈ values, v.toNat < 2 ^ frombits) :
    (values.foldl (next frombits tobits) {}).Holds frombits tobits (values.length * frombits)
      (value (2 ^ frombits) (values.map UInt8.toNat)) := by
  induction values using reverseRecOn with
  | nil => exact ⟨by simp, by simp, by simp [digits]⟩
  | append_singleton values value ih =>
    rw [forall_mem_append, forall_mem_singleton] at h
    rw [foldl_append, map_append, map_singleton, value_concat,
      length_append, length_singleton, Nat.succ_mul]
    exact (ih h.1).next hpos hbyte h.2

theorem convertBits_unpadded (hpos : 0 < tobits) (hbyte : tobits ≤ 8)
    (h : ∀ v ∈ values, v.toNat < 2 ^ frombits) :
    (convertBits frombits tobits false values).2.map UInt8.toNat =
      regroup frombits tobits (values.map UInt8.toNat) := by
  have hout := (BitBuffer.foldl_next hpos hbyte h).out
  have hres : (convertBits frombits tobits false values).2 =
      (values.foldl (BitBuffer.next frombits tobits) {}).out := by
    simp only [convertBits, Bool.false_and, Bool.false_eq_true, if_false]
    split_ifs <;> rfl
  rw [hres, hout, regroup, length_map]

theorem convertBits_padded (hpos : 0 < tobits) (hbyte : tobits ≤ 8)
    (h : ∀ v ∈ values, v.toNat < 2 ^ frombits) :
    (convertBits frombits tobits true values).2.map UInt8.toNat =
      regroupPadded frombits tobits (values.map UInt8.toNat) := by
  obtain ⟨hacc, hbits, hout⟩ := BitBuffer.foldl_next hpos hbyte h
  rw [regroupPadded_eq hpos, length_map, regroup, length_map]
  split_ifs with hfull
  · simp only [convertBits, hbits, hfull, bne_self_eq_false, Bool.and_false, Bool.false_eq_true,
      if_false, hout]
  · have hrest : (values.length * frombits % tobits != 0) := bne_iff_ne.mpr hfull
    simp only [convertBits, hbits, hrest, Bool.not_true, Bool.and_true, Bool.false_eq_true, if_false,
      if_true, map_append, map_singleton, hout, toNat_and_mask hbyte, Nat.shiftLeft_eq,
      hacc, mod_mul_mod (Nat.mod_lt (values.length * frombits) hpos)]

end

namespace PaymentAddress

def cashaddrPrefixMainnet : Text := "bitcoincash".toList

def cashaddrPrefixTestnet : Text := "bchtest".toList

def pubkeyType : UInt8 := 0

def scriptType : UInt8 := 1

/-- The size of a hash in the version byte. -/
def encodedSize : Nat → Option UInt8
  | 160 => some 0
  | 192 => some 1
  | 224 => some 2
  | 256 => some 3
  | 320 => some 4
  | 384 => some 5
  | 448 => some 6
  | 512 => some 7
  | _ => none

/-- Convert the data part to a 5 bit representation; `none` is the exception. -/
def packAddrData (id : DataChunk) (type : UInt8) : Option DataChunk := do
  let size ← encodedSize (id.length * 8)
  return (convertBits 8 5 true ((type <<< 3 ||| size) :: id)).2

/-- Empty for another version. -/
def encodedCashaddr (wallet : PaymentAddress) : Option Text :=
  if wallet.version = mainnetP2kh .bch ∨ wallet.version = mainnetP2sh then
    (packAddrData wallet.hash.val
      (if wallet.version = mainnetP2kh .bch then pubkeyType else scriptType)).map
      (Cashaddr.encode cashaddrPrefixMainnet)
  else if wallet.version = testnetP2kh ∨ wallet.version = testnetP2sh then
    (packAddrData wallet.hash.val
      (if wallet.version = testnetP2kh then pubkeyType else scriptType)).map
      (Cashaddr.encode cashaddrPrefixTestnet)
  else some []

/-- An access out of range. -/
inductive CashaddrFault
  /-- The checksum was cut off fewer than eight values. -/
  | cut
  /-- A hash was copied past the end of the array. -/
  | copy
  deriving DecidableEq

/-- Check that the padding is zero. -/
def isPadded (payload : DataChunk) : Bool :=
  let extrabits := payload.length * 5 % 8
  extrabits < 5 && payload.getLastD 0 &&& (1 <<< UInt8.ofNat extrabits - 1) == 0

/-- The size of the hash that a version announces. -/
def hashSize (version : UInt8) : Nat :=
  let size := 20 + 4 * (version &&& 0x03).toNat
  if version &&& 0x04 ≠ 0 then size * 2 else size

/-- The address of a hash under a prefix. -/
def ofCashaddrType (prefixText : Text) (type : UInt8) (hash : ShortHash) : PaymentAddress :=
  if prefixText = cashaddrPrefixMainnet then
    ⟨true, if type = pubkeyType then mainnetP2kh .bch else mainnetP2sh, hash⟩
  else ⟨true, if type = pubkeyType then testnetP2kh else testnetP2sh, hash⟩

/-- What is done with the data behind the checks of the padding. -/
def fromCashaddrData (prefixText : Text) (data : DataChunk) : Except CashaddrFault PaymentAddress :=
  let version := data.headD 0
  if version &&& 0x80 ≠ 0 then .ok {}
  else if data.length ≠ hashSize version + 1 then .ok {}
  else if h : data.tail.length = 20 then
    .ok (ofCashaddrType prefixText ((version >>> 3) &&& 0x1f) ⟨data.tail, h⟩)
  else .error .copy

/-- Only the prefix that was configured is accepted. -/
def fromStringCashaddr (cashaddrPrefix address : Text) : Except CashaddrFault PaymentAddress :=
  match Cashaddr.decode address cashaddrPrefix with
  | none => .error .cut
  | some (prefixText, payload) =>
    if prefixText ≠ cashaddrPrefix then .ok {}
    else if payload.isEmpty then .ok {}
    else if !isPadded payload then .ok {}
    else fromCashaddrData prefixText (convertBits 5 8 false payload).2

end PaymentAddress

end BitprimCore
