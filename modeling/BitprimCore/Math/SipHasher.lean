import BitprimCore.Library.SignMagnitude
import BitprimCore.Math.SipHash

/-!
# The incremental hasher

The class `sip_hasher` takes its input in any number of calls (`math/sip_hash`). Every call does
what its bytes would do one by one, so a hash depends on the bytes only, and the functions for a
digest are the hasher on the bytes of the digest.
-/

namespace BitprimCore

open List LittleEndian SipHash

/-- The words of the state, the bytes that do not make a word yet and the number of bytes so far.
The number is a signed integer of 32 bits that is never negative. -/
structure SipHasher where
  v : State
  tmp : UInt64
  count : Nat

namespace SipHasher

/-- A hasher before any data. -/
def new (k0 k1 : UInt64) : SipHasher where
  v := initial k0 k1
  tmp := 0
  count := 0

/-- A number above the greatest integer is undefined. -/
def toCount (count : Nat) : Option Nat := if count < 2 ^ 31 then some count else none

/-- The class invariant is asserted. -/
def writeWord (data : UInt64) (hasher : SipHasher) : Option SipHasher := do
  guard (hasher.count % 8 = 0)
  let count ← toCount (hasher.count + 8)
  return { hasher with v := absorb hasher.v data, count }

/-- One round of the loop of `write`. -/
def writeByte (byte : UInt8) (hasher : SipHasher) : Option SipHasher := do
  let t := hasher.tmp ||| byte.toUInt64 <<< UInt64.ofNat (8 * (hasher.count % 8))
  let c ← toCount (hasher.count + 1)
  if c &&& 7 = 0 then return { v := absorb hasher.v t, tmp := 0, count := c }
  else return { hasher with tmp := t, count := c }

def writeBytes : DataChunk → SipHasher → Option SipHasher
  | [], hasher => some hasher
  | byte :: data, hasher => writeByte byte hasher >>= writeBytes data

/-- The hash of what was written. -/
def finalize (hasher : SipHasher) : UInt64 :=
  finish (absorb hasher.v (hasher.tmp ||| UInt64.ofNat hasher.count <<< 56))

/-- The two forms of `write`. -/
inductive Write where
  | word (data : UInt64)
  | bytes (data : DataChunk)

/-- Writes either form. -/
def write : Write → SipHasher → Option SipHasher
  | .word data => writeWord data
  | .bytes data => writeBytes data

/-- Writes in order. -/
def writes : List Write → SipHasher → Option SipHasher
  | [], hasher => some hasher
  | call :: calls, hasher => write call hasher >>= writes calls

/-- The calls write the bytes, and words only at multiples of eight from the number of bytes before
them. -/
inductive Cuts : Nat → List Write → DataChunk → Prop
  | done (count : Nat) : Cuts count [] []
  | bytes {count : Nat} (data : DataChunk) {calls : List Write} {rest : DataChunk}
      (h : Cuts (count + data.length) calls rest) : Cuts count (.bytes data :: calls) (data ++ rest)
  | word {count : Nat} (data : UInt64) (haligned : count % 8 = 0) {calls : List Write}
      {rest : DataChunk} (h : Cuts (count + 8) calls rest) :
      Cuts count (.word data :: calls) (ofNat 8 data.toNat ++ rest)

end SipHasher

/-- The same for a digest and a number behind it. -/
def sipHashUint256Extra (k0 k1 : UInt64) (val : HashDigest) (extra : UInt32) : UInt64 :=
  hashDigestThen k0 k1 val (((36 : UInt64) <<< 56) ||| extra.toUInt64)

namespace SipHasher

theorem toCount_of_lt {count : Nat} (h : count < 2 ^ 31) : toCount count = some count := if_pos h

/-- A byte at its place is above the bytes before it. -/
theorem toNat_or_byte {tmp : UInt64} {i : Nat} (hi : i < 8) (htmp : tmp.toNat < 256 ^ i)
    (byte : UInt8) :
    (tmp ||| byte.toUInt64 <<< UInt64.ofNat (8 * i)).toNat = tmp.toNat + 256 ^ i * byte.toNat := by
  have hbyte : byte.toNat < 2 ^ 8 := byte.toNat_lt
  have hpow : 256 ^ i = 2 ^ (8 * i) := by rw [Nat.pow_mul]
  have hshift : (UInt64.ofNat (8 * i)).toNat % 64 = 8 * i := by
    rw [UInt64.toNat_ofNat']
    omega
  have hfits : byte.toNat * 2 ^ (8 * i) < 2 ^ 64 :=
    calc byte.toNat * 2 ^ (8 * i) < 2 ^ 8 * 2 ^ (8 * i) :=
          Nat.mul_lt_mul_of_pos_right hbyte (Nat.two_pow_pos _)
      _ = 2 ^ (8 + 8 * i) := (Nat.pow_add 2 8 (8 * i)).symm
      _ ≤ 2 ^ 64 := Nat.pow_le_pow_right (by decide) (by omega)
  rw [hpow] at htmp ⊢
  rw [UInt64.toNat_or, UInt64.toNat_shiftLeft, hshift, UInt8.toNat_toUInt64, Nat.shiftLeft_eq,
    Nat.mod_eq_of_lt hfits, Nat.or_comm, Nat.mul_comm, ← Nat.two_pow_add_eq_or_of_lt htmp,
    Nat.add_comm]

theorem and_seven (c : Nat) : c &&& 7 = c % 8 := Nat.and_two_pow_sub_one_eq_mod c 3

theorem writeByte_short {hasher : SipHasher} {i : Nat} (hcount : hasher.count % 8 = i)
    (hi : i + 1 < 8) (hbound : hasher.count + 1 < 2 ^ 31) (byte : UInt8) :
    writeByte byte hasher =
      some ⟨hasher.v, hasher.tmp ||| byte.toUInt64 <<< UInt64.ofNat (8 * i), hasher.count + 1⟩ := by
  have hmod : ¬ (hasher.count + 1) % 8 = 0 := by omega
  simp [writeByte, toCount_of_lt hbound, and_seven, hcount, hmod]

theorem writeByte_full {hasher : SipHasher} (hcount : hasher.count % 8 = 7)
    (hbound : hasher.count + 1 < 2 ^ 31) (byte : UInt8) :
    writeByte byte hasher =
      some ⟨absorb hasher.v (hasher.tmp ||| byte.toUInt64 <<< UInt64.ofNat (8 * 7)), 0,
        hasher.count + 1⟩ := by
  have hmod : (hasher.count + 1) % 8 = 0 := by omega
  simp [writeByte, toCount_of_lt hbound, and_seven, hcount, hmod]

theorem writeBytes_append (data rest : DataChunk) (hasher : SipHasher) :
    writeBytes (data ++ rest) hasher = writeBytes data hasher >>= writeBytes rest := by
  induction data generalizing hasher with
  | nil => rfl
  | cons byte data ih =>
    rw [cons_append, writeBytes, writeBytes, bind_assoc]
    exact bind_congr fun next => ih next

/-- Bytes that do not complete a word. -/
theorem writeBytes_short {data : DataChunk} {hasher : SipHasher} {i : Nat}
    (hcount : hasher.count % 8 = i) (hlen : i + data.length < 8)
    (hbound : hasher.count + data.length < 2 ^ 31) (htmp : hasher.tmp.toNat < 256 ^ i) :
    ∃ tmp : UInt64, tmp.toNat = hasher.tmp.toNat + 256 ^ i * toNat data ∧
      writeBytes data hasher = some ⟨hasher.v, tmp, hasher.count + data.length⟩ := by
  induction data generalizing hasher i with
  | nil => exact ⟨hasher.tmp, by simp, rfl⟩
  | cons byte data ih =>
    rw [length_cons] at hlen hbound
    have hbyte := byte.toNat_lt
    have hor := toNat_or_byte (show i < 8 by omega) htmp byte
    have hlt : hasher.tmp.toNat + 256 ^ i * byte.toNat < 256 ^ (i + 1) := by
      calc hasher.tmp.toNat + 256 ^ i * byte.toNat
          < 256 ^ i + 256 ^ i * byte.toNat := Nat.add_lt_add_right htmp _
        _ = 256 ^ i * (byte.toNat + 1) := by ring
        _ ≤ 256 ^ i * 256 := Nat.mul_le_mul_left _ hbyte
        _ = 256 ^ (i + 1) := (pow_succ 256 i).symm
    rw [← hor] at hlt
    obtain ⟨tmp, hval, hwrite⟩ := @ih
      ⟨hasher.v, hasher.tmp ||| byte.toUInt64 <<< UInt64.ofNat (8 * i), hasher.count + 1⟩ (i + 1)
      (by simp only; omega) (by omega) (by simp only; omega) hlt
    refine ⟨tmp, ?_, ?_⟩
    · rw [hval, hor, toNat_cons, pow_succ]
      ring
    · rw [writeBytes, writeByte_short hcount (by omega) (by omega), Option.bind_eq_bind,
        Option.bind_some, hwrite, length_cons, Nat.add_right_comm, Nat.add_assoc]

/-- Eight bytes at a multiple of eight are taken in as a word. -/
theorem writeBytes_full {data : DataChunk} {hasher : SipHasher} (hcount : hasher.count % 8 = 0)
    (hlen : data.length = 8) (hbound : hasher.count + 8 < 2 ^ 31) (htmp : hasher.tmp = 0) :
    writeBytes data hasher =
      some ⟨absorb hasher.v (UInt64.ofNat (toNat data)), 0, hasher.count + 8⟩ := by
  obtain ⟨front, last, rfl⟩ : ∃ front last, data = front ++ [last] := by
    have hne : data ≠ [] := ne_nil_of_length_eq_add_one hlen
    exact ⟨data.dropLast, data.getLast hne, (dropLast_append_getLast hne).symm⟩
  have hfront : front.length = 7 := by
    rw [length_append, length_singleton] at hlen
    omega
  obtain ⟨tmp, hval, hwrite⟩ := @writeBytes_short front hasher 0 hcount (by omega)
    (by omega) (by rw [htmp]; decide)
  have hlast : (tmp ||| last.toUInt64 <<< UInt64.ofNat (8 * 7)).toNat = toNat (front ++ [last]) := by
    have hlt : tmp.toNat < 256 ^ 7 := by
      rw [hval, htmp]
      simpa [hfront] using toNat_lt front
    rw [toNat_or_byte (by decide) hlt, hval, htmp, SignMagnitude.toNat_append, hfront]
    simp
  have hword : tmp ||| last.toUInt64 <<< UInt64.ofNat (8 * 7) =
      UInt64.ofNat (toNat (front ++ [last])) := by
    rw [← hlast, UInt64.ofNat_toNat]
  rw [writeBytes_append, hwrite, Option.bind_eq_bind, Option.bind_some, writeBytes, hfront,
    writeByte_full (by simp only; omega) (by simp only; omega), hword]
  rfl

/-- At a multiple of eight nothing is left over. -/
def Whole (hasher : SipHasher) : Prop := hasher.count % 8 = 0 → hasher.tmp = 0

theorem whole_new (k0 k1 : UInt64) : (new k0 k1).Whole := fun _ => rfl

theorem writeByte_spec {hasher : SipHasher} (hbound : hasher.count + 1 < 2 ^ 31) (byte : UInt8) :
    ∃ next, writeByte byte hasher = some next ∧ next.count = hasher.count + 1 ∧ next.Whole := by
  by_cases hlast : hasher.count % 8 = 7
  · exact ⟨_, writeByte_full hlast hbound byte, rfl, fun _ => rfl⟩
  · refine ⟨_, writeByte_short rfl (by omega) hbound byte, rfl, fun hcount => ?_⟩
    simp only at hcount
    omega

/-- Few enough bytes can be written. -/
theorem writeBytes_spec {hasher : SipHasher} (hwhole : hasher.Whole) {data : DataChunk}
    (hbound : hasher.count + data.length < 2 ^ 31) :
    ∃ next, writeBytes data hasher = some next ∧ next.count = hasher.count + data.length ∧
      next.Whole := by
  induction data generalizing hasher with
  | nil => exact ⟨hasher, rfl, rfl, hwhole⟩
  | cons byte data ih =>
    rw [length_cons] at hbound
    obtain ⟨second, hbyte, hcount, hsecond⟩ := @writeByte_spec hasher (by omega) byte
    obtain ⟨next, hdata, hnext, hwhole'⟩ := ih hsecond (by omega)
    refine ⟨next, ?_, ?_, hwhole'⟩
    · rw [writeBytes, hbyte]
      exact hdata
    · rw [hnext, hcount, length_cons, Nat.add_right_comm, Nat.add_assoc]

/-- A word does what its bytes do. -/
theorem writeWord_eq {hasher : SipHasher} (hwhole : hasher.Whole) (hcount : hasher.count % 8 = 0)
    (hbound : hasher.count + 8 < 2 ^ 31) (data : UInt64) :
    writeWord data hasher = writeBytes (ofNat 8 data.toNat) hasher := by
  have hval : UInt64.ofNat (toNat (ofNat 8 data.toNat)) = data := by
    rw [toNat_ofNat, Nat.mod_eq_of_lt (show data.toNat < 256 ^ 8 from data.toNat_lt),
      UInt64.ofNat_toNat]
  rw [writeBytes_full hcount (length_ofNat 8 _) hbound (hwhole hcount), hval]
  simp [writeWord, hcount, toCount_of_lt hbound, hwhole hcount]

/-- Calls do what their bytes do in one call. -/
theorem Cuts.writes_eq {count : Nat} {calls : List Write} {data : DataChunk}
    (h : Cuts count calls data) {hasher : SipHasher} (hcount : hasher.count = count)
    (hwhole : hasher.Whole) (hbound : count + data.length < 2 ^ 31) :
    writes calls hasher = writeBytes data hasher := by
  induction h generalizing hasher with
  | done count => rfl
  | @bytes count data calls rest h ih =>
    rw [length_append] at hbound
    obtain ⟨next, hwrite, hnext, hwhole'⟩ := @writeBytes_spec hasher hwhole data (by omega)
    rw [writes, writeBytes_append, write, hwrite]
    exact ih (by omega) hwhole' (by omega)
  | @word count data haligned calls rest h ih =>
    rw [length_append, length_ofNat] at hbound
    have hlen := length_ofNat 8 data.toNat
    obtain ⟨next, hwrite, hnext, hwhole'⟩ :=
      @writeBytes_spec hasher hwhole (ofNat 8 data.toNat) (by omega)
    rw [writes, writeBytes_append, write,
      writeWord_eq hwhole (by rw [hcount]; exact haligned) (by omega), hwrite]
    exact ih (by omega) hwhole' (by omega)

/-- The first eight bytes are a word. -/
theorem writeBytes_word {data : DataChunk} {v : State} {count : Nat} (hlen : 8 ≤ data.length)
    (hcount : count % 8 = 0) (hbound : count + 8 < 2 ^ 31) :
    writeBytes data ⟨v, 0, count⟩ =
      writeBytes (data.drop 8) ⟨absorb v (UInt64.ofNat (toNat (data.take 8))), 0, count + 8⟩ := by
  have hword : (data.take 8).length = 8 := by
    rw [length_take]
    omega
  conv_lhs => rw [← take_append_drop 8 data]
  rw [writeBytes_append, @writeBytes_full _ ⟨v, 0, count⟩ hcount hword hbound rfl]
  rfl

theorem writeBytes_digest (k0 k1 : UInt64) (val : HashDigest) (rest : DataChunk) :
    writeBytes (val.val ++ rest) (new k0 k1) =
      writeBytes rest ⟨absorb (absorb (absorb (absorb (new k0 k1).v (getUint64 0 val))
        (getUint64 1 val)) (getUint64 2 val)) (getUint64 3 val), 0, 32⟩ := by
  have hlen : val.val.length = 32 := val.property
  have hend : val.val.drop 32 = [] := drop_of_length_le hlen.le
  have hdigest : ∀ v : State, writeBytes val.val ⟨v, 0, 0⟩ =
      some ⟨absorb (absorb (absorb (absorb v (getUint64 0 val)) (getUint64 1 val))
        (getUint64 2 val)) (getUint64 3 val), 0, 32⟩ := by
    intro v
    rw [writeBytes_word (by omega) (by decide) (by decide),
      writeBytes_word (by rw [length_drop]; omega) (by decide) (by decide), drop_drop,
      writeBytes_word (by rw [length_drop]; omega) (by decide) (by decide), drop_drop,
      writeBytes_word (by rw [length_drop]; omega) (by decide) (by decide), drop_drop, hend]
    rfl
  rw [writeBytes_append, new, hdigest]
  rfl

theorem sipHashUint256_eq (k0 k1 : UInt64) (val : HashDigest) :
    (writeBytes val.val (new k0 k1)).map finalize = some (sipHashUint256 k0 k1 val) := by
  have hword : (0 : UInt64) ||| UInt64.ofNat 32 <<< 56 = (4 : UInt64) <<< 59 := by decide
  have hdigest := writeBytes_digest k0 k1 val []
  rw [append_nil] at hdigest
  rw [hdigest]
  simp only [writeBytes, Option.map_some, finalize, hword, sipHashUint256,
    hashDigestThen, new]

theorem sipHashUint256Extra_eq (k0 k1 : UInt64) (val : HashDigest) (extra : UInt32) :
    (writeBytes (val.val ++ ofNat 4 extra.toNat) (new k0 k1)).map finalize =
      some (sipHashUint256Extra k0 k1 val extra) := by
  have hlen := length_ofNat 4 extra.toNat
  rw [writeBytes_digest]
  generalize hv : absorb (absorb (absorb (absorb (new k0 k1).v (getUint64 0 val))
    (getUint64 1 val)) (getUint64 2 val)) (getUint64 3 val) = v
  obtain ⟨tmp, hval, hwrite⟩ := @writeBytes_short (ofNat 4 extra.toNat) ⟨v, 0, 32⟩ 0
    (show 32 % 8 = 0 by decide) (by omega) (by simp only; omega) Nat.zero_lt_one
  have htmp : tmp = extra.toUInt64 := by
    apply UInt64.toNat_inj.mp
    rw [hval, toNat_ofNat, Nat.mod_eq_of_lt (show extra.toNat < 256 ^ 4 from extra.toNat_lt)]
    simp
  have hcount : UInt64.ofNat 36 = 36 := rfl
  rw [hwrite, hlen, htmp]
  simp only [Option.map_some, finalize, sipHashUint256Extra, hashDigestThen, hcount, UInt64.or_comm,
    ← hv, new]

/-- However the bytes are cut into calls the hash is the same, and it is that of the functions for
digests. -/
theorem sipHash_variants_agree (k0 k1 : UInt64) :
    (∀ data : DataChunk, data.length < 2 ^ 31 →
      ∃ value, ∀ calls, Cuts 0 calls data → (writes calls (new k0 k1)).map finalize = some value) ∧
    (∀ (val : HashDigest) calls, Cuts 0 calls val.val →
      (writes calls (new k0 k1)).map finalize = some (sipHashUint256 k0 k1 val)) ∧
    ∀ (val : HashDigest) (extra : UInt32) calls, Cuts 0 calls (val.val ++ ofNat 4 extra.toNat) →
      (writes calls (new k0 k1)).map finalize = some (sipHashUint256Extra k0 k1 val extra) := by
  refine ⟨fun data hlength => ?_, fun val calls h => ?_, fun val extra calls h => ?_⟩
  · have hbound : (new k0 k1).count + data.length < 2 ^ 31 := by simpa [new] using hlength
    obtain ⟨last, hwrite, -, -⟩ := writeBytes_spec (whole_new k0 k1) hbound
    refine ⟨last.finalize, fun calls h => ?_⟩
    rw [h.writes_eq rfl (whole_new k0 k1) (by omega), hwrite]
    rfl
  · have hlength := val.property
    rw [h.writes_eq rfl (whole_new k0 k1) (by omega), sipHashUint256_eq]
  · have hlength := val.property
    rw [h.writes_eq rfl (whole_new k0 k1) (by simp; omega), sipHashUint256Extra_eq]

end SipHasher

end BitprimCore
