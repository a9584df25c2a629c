import Mathlib.Data.List.TakeWhile

/-!
# Split characters

A stream buffer that is full within a character of several bytes converts the characters before it
and carries the rest over (`unicode/unicode`). The split is found by walking back from the end to
the last character that is complete.
-/

namespace BitprimCore.Unicode

open List

def utf8MaxCharacterSize : Nat := 4

/-- All non-leading bytes of utf8 have the same two bit prefix. -/
def isUtf8TrailingByte (byte : UInt8) : Bool := 0xc0 &&& byte == 0x80

/-- Determine if the full sequence is a valid utf8 character. -/
def isUtf8CharacterSequence (sequence : List UInt8) (bytes : Nat) : Bool :=
  match bytes, sequence with
  | 1, b :: _ => 0x80 &&& b == 0x00
  | 2, b :: b1 :: _ => 0xe0 &&& b == 0xc0 && isUtf8TrailingByte b1
  | 3, b :: b1 :: b2 :: _ => 0xf0 &&& b == 0xe0 && isUtf8TrailingByte b1 && isUtf8TrailingByte b2
  | 4, b :: b1 :: b2 :: b3 :: _ =>
    0xf8 &&& b == 0xf0 && isUtf8TrailingByte b1 && isUtf8TrailingByte b2 && isUtf8TrailingByte b3
  | _, _ => false

variable (text : List UInt8)

/-- Determine if the text is terminated by a valid utf8 character. -/
def isTerminalUtf8Character (size : Nat) : Bool :=
  ((List.range' 1 utf8MaxCharacterSize).takeWhile (· < size)).any fun length =>
    isUtf8CharacterSequence (text.drop (size - length)) length

/-- How many bytes follow the last character that is found, or none if there is no such. -/
def offsetToTerminalUtf8Character (size : Nat) : Nat :=
  (((List.range utf8MaxCharacterSize).takeWhile (· < size)).find? fun unread =>
    isTerminalUtf8Character text (size - unread)).getD 0

/-- The bytes that `to_utf16` converts, and those that the stream buffer carries over. -/
def split : List UInt8 × List UInt8 :=
  text.splitAt (text.length - offsetToTerminalUtf8Character text text.length)

/-- The first byte of a character of a number of bytes. -/
def isLead : Nat → UInt8 → Bool
  | 1, byte => 0x80 &&& byte == 0x00
  | 2, byte => 0xe0 &&& byte == 0xc0
  | 3, byte => 0xf0 &&& byte == 0xe0
  | 4, byte => 0xf8 &&& byte == 0xf0
  | _, _ => false

variable {byte : UInt8} {size m : Nat} {front : List UInt8}

theorem lt_of_isLead (h : isLead size byte) : size < utf8MaxCharacterSize + 1 := by
  unfold isLead at h
  split at h <;> first | decide | cases h

/-- A byte leads characters of one number of bytes at most, and trails none. -/
theorem isLead_unique (h : isLead m byte) :
    isUtf8TrailingByte byte = false ∧ ∀ n, isLead n byte → m = n := by
  have htable : ∀ k : Fin 256, ∀ m : Fin 5, isLead m (UInt8.ofNat k) →
      isUtf8TrailingByte (UInt8.ofNat k) = false ∧
        ∀ n : Fin 5, isLead n (UInt8.ofNat k) → m = n := by
    decide +kernel
  have hbyte := htable ⟨byte.toNat, byte.toNat_lt⟩
  simp only [UInt8.ofNat_toNat] at hbyte
  obtain ⟨htrailing, hall⟩ := hbyte ⟨m, lt_of_isLead h⟩ h
  exact ⟨htrailing, fun n hn => congrArg Fin.val (hall ⟨n, lt_of_isLead hn⟩ hn)⟩

/-- The last byte that trails none is found from the end. -/
theorem append_inj_of_trailing {a b u v : List UInt8} {x y : UInt8} {n : Nat} (hx : isLead m x)
    (hy : isLead n y) (hu : ∀ byte ∈ u, isUtf8TrailingByte byte)
    (hv : ∀ byte ∈ v, isUtf8TrailingByte byte) (h : a ++ x :: u = b ++ y :: v) :
    a = b ∧ x = y ∧ u = v := by
  have hreverse : u.reverse ++ x :: a.reverse = v.reverse ++ y :: b.reverse := by
    simpa using congrArg reverse h
  have hsplit : ∀ {l r : List UInt8} {z : UInt8}, (∀ byte ∈ l, isUtf8TrailingByte byte) →
      isUtf8TrailingByte z = false →
      (l.reverse ++ z :: r).takeWhile isUtf8TrailingByte = l.reverse ∧
        (l.reverse ++ z :: r).dropWhile isUtf8TrailingByte = z :: r := by
    intro l r z hl hz
    have hl' : ∀ byte ∈ l.reverse, isUtf8TrailingByte byte := by simpa using hl
    rw [takeWhile_append_of_pos hl', dropWhile_append_of_pos hl']
    simp [hz]
  obtain ⟨hu1, hu2⟩ := hsplit hu (isLead_unique hx).1
  obtain ⟨hv1, hv2⟩ := hsplit hv (isLead_unique hy).1
  rw [hreverse] at hu1 hu2
  have huv := hu1.symm.trans hv1
  have hab := hu2.symm.trans hv2
  simp at huv hab
  exact ⟨hab.2, hab.1, huv⟩

/-- A complete character. -/
def IsCharacter (bytes : List UInt8) : Prop :=
  ∃ lead rest, bytes = lead :: rest ∧ isLead (rest.length + 1) lead = true ∧
    ∀ byte ∈ rest, isUtf8TrailingByte byte = true

theorem isUtf8CharacterSequence_iff (bytes back : List UInt8) :
    isUtf8CharacterSequence (bytes ++ back) bytes.length ↔ IsCharacter bytes := by
  unfold IsCharacter
  rcases bytes with _ | ⟨b, _ | ⟨b1, _ | ⟨b2, _ | ⟨b3, _ | ⟨b4, rest⟩⟩⟩⟩⟩
  all_goals simp [isUtf8CharacterSequence, isLead, and_assoc]

theorem isCharacter_utf8EncodeChar (c : Char) : IsCharacter (String.utf8EncodeChar c) := by
  have hlead1 : ∀ k : Fin 128, isLead 1 (UInt8.ofNat k) := by decide
  have hlead2 : ∀ k : Fin 32, isLead 2 (UInt8.ofNat (k + 192)) := by decide
  have hlead3 : ∀ k : Fin 16, isLead 3 (UInt8.ofNat (k + 224)) := by decide
  have hlead4 : ∀ k : Fin 8, isLead 4 (UInt8.ofNat (k + 240)) := by decide
  have htrailing : ∀ n, isUtf8TrailingByte (UInt8.ofNat (n % 64 + 128)) := by
    have htable : ∀ k : Fin 64, isUtf8TrailingByte (UInt8.ofNat (k + 128)) := by decide
    exact fun n => htable ⟨n % 64, Nat.mod_lt _ (by decide)⟩
  have hcons : ∀ {n bytes}, (∀ byte ∈ bytes, isUtf8TrailingByte byte) →
      ∀ byte ∈ UInt8.ofNat (n % 64 + 128) :: bytes, isUtf8TrailingByte byte := fun h =>
    forall_mem_cons.mpr ⟨htrailing _, h⟩
  have hnil : ∀ byte ∈ [], isUtf8TrailingByte byte := forall_mem_nil _
  unfold String.utf8EncodeChar
  dsimp only
  split_ifs with h1 h2 h3
  · exact ⟨_, _, rfl, hlead1 ⟨_, Nat.lt_succ_of_le h1⟩, hnil⟩
  · exact ⟨_, _, rfl, hlead2 ⟨_, Nat.mod_lt _ (by decide)⟩, hcons hnil⟩
  · exact ⟨_, _, rfl, hlead3 ⟨_, Nat.mod_lt _ (by decide)⟩, hcons (hcons hnil)⟩
  · exact ⟨_, _, rfl, hlead4 ⟨_, Nat.mod_lt _ (by decide)⟩, hcons (hcons (hcons hnil))⟩

theorem takeWhile_range' (s n size : Nat) :
    (range' s n).takeWhile (· < size) = range' s (min n (size - s)) := by
  induction n generalizing s with
  | zero => simp
  | succ n ih =>
    rw [range'_succ, takeWhile_cons, ih]
    split
    · next h =>
      have hlt : s < size := of_decide_eq_true h
      rw [show min (n + 1) (size - s) = min n (size - (s + 1)) + 1 by omega, range'_succ]
    · next h =>
      have hle : size ≤ s := Nat.le_of_not_lt fun hlt => h (decide_eq_true hlt)
      rw [show min (n + 1) (size - s) = 0 by omega, range'_zero]

/-- A character is found at the end of a text if bytes stand before it. -/
theorem isTerminalUtf8Character_iff (hsize : front.length = size) (back : List UInt8) :
    isTerminalUtf8Character (front ++ back) size ↔
      ∃ start bytes, front = start ++ bytes ∧ start ≠ [] ∧ IsCharacter bytes := by
  subst hsize
  rw [isTerminalUtf8Character, takeWhile_range', any_eq_true]
  simp only [mem_range'_1, utf8MaxCharacterSize]
  constructor
  · rintro ⟨length, hmem, hseq⟩
    have hfront := take_append_drop (front.length - length) front
    have hlen : (front.drop (front.length - length)).length = length := by
      rw [length_drop]
      omega
    refine ⟨_, _, hfront.symm, ?_, ?_⟩
    · apply ne_nil_of_length_pos
      rw [length_take]
      omega
    · rw [drop_append_of_le_length (Nat.sub_le _ _)] at hseq
      rw [← isUtf8CharacterSequence_iff _ back, hlen]
      exact hseq
  · rintro ⟨start, bytes, rfl, hstart, hchar⟩
    refine ⟨bytes.length, ?_, ?_⟩
    · obtain ⟨lead, rest, rfl, hlead, -⟩ := hchar
      have hsize := lt_of_isLead hlead
      have hpos := length_pos_iff.mpr hstart
      simp only [utf8MaxCharacterSize] at hsize
      simp only [length_append, length_cons]
      omega
    · rw [List.length_append, Nat.add_sub_cancel, List.append_assoc, List.drop_left,
        isUtf8CharacterSequence_iff]
      exact hchar

/-- The bytes of a text. -/
def encode (chars : List Char) : List UInt8 := chars.flatMap String.utf8EncodeChar

/-- Behind the first bytes of a character no other is found, and these are one only if all are
there. -/
theorem eq_of_isCharacter {start bytes part : List UInt8} {c : Char} (hpart : part ≠ [])
    (hstarts : part <+: String.utf8EncodeChar c) (hbytes : IsCharacter bytes)
    (h : front ++ part = start ++ bytes) : start = front ∧ part = String.utf8EncodeChar c := by
  obtain ⟨lead, rest, hencode, hlead, hrest⟩ := isCharacter_utf8EncodeChar c
  obtain ⟨lead', rest', rfl, hlead', hrest'⟩ := hbytes
  obtain ⟨more, hmore⟩ := hstarts
  rw [hencode] at hmore
  rw [hencode]
  cases part with
  | nil => exact absurd rfl hpart
  | cons byte part =>
    rw [cons_append] at hmore
    obtain ⟨rfl, rfl⟩ := List.cons.inj hmore
    obtain ⟨rfl, rfl, rfl⟩ := append_inj_of_trailing hlead hlead'
      (fun byte hbyte => hrest byte (mem_append_left _ hbyte)) hrest' h
    have hlen := (isLead_unique hlead).2 _ hlead'
    rw [length_append] at hlen
    have hnil : more = [] := eq_nil_of_length_eq_zero (by omega)
    simp [hnil]

theorem encode_ne_nil {chars : List Char} (h : chars ≠ []) : encode chars ≠ [] := by
  cases chars with
  | nil => exact absurd rfl h
  | cons c chars =>
    obtain ⟨lead, rest, hencode, -⟩ := isCharacter_utf8EncodeChar c
    simp [encode, hencode]

section

variable {chars : List Char} {c : Char} {part : List UInt8}

theorem isTerminalUtf8Character_within (hstarts : part <+: String.utf8EncodeChar c)
    (hproper : part ≠ String.utf8EncodeChar c) {unread : Nat} (hunread : unread < part.length) :
    isTerminalUtf8Character (encode chars ++ part) ((encode chars ++ part).length - unread) = false := by
  rw [← Bool.not_eq_true]
  intro hterminal
  have htake : (part.take (part.length - unread)).length = part.length - unread := by
    rw [length_take]
    omega
  have hsize : (encode chars ++ part.take (part.length - unread)).length =
      (encode chars ++ part).length - unread := by
    rw [length_append, length_append, htake]
    omega
  obtain ⟨start, bytes, hfront, -, hbytes⟩ := (isTerminalUtf8Character_iff hsize
    (part.drop (part.length - unread))).mp (by simpa using hterminal)
  have hnonempty : part.take (part.length - unread) ≠ [] := ne_nil_of_length_pos (by omega)
  have hpart := (eq_of_isCharacter hnonempty (( take_prefix _ _).trans hstarts) hbytes hfront).2
  refine hproper (hstarts.eq_of_length_le ?_)
  rw [← hpart]
  exact length_take_le' _ _

/-- The last character of a text is found if another stands before it. -/
theorem isTerminalUtf8Character_behind (hchars : 2 ≤ chars.length) (back : List UInt8) :
    isTerminalUtf8Character (encode chars ++ back) (encode chars).length := by
  have hne : chars ≠ [] := ne_nil_of_length_pos (by omega)
  refine (isTerminalUtf8Character_iff rfl _).mpr ⟨encode chars.dropLast,
    String.utf8EncodeChar (chars.getLast hne), ?_, ?_, isCharacter_utf8EncodeChar _⟩
  · rw [← flatMap_singleton String.utf8EncodeChar, encode, encode, ← flatMap_append,
      dropLast_concat_getLast]
  · apply encode_ne_nil
    apply ne_nil_of_length_pos
    rw [length_dropLast]
    omega

/-- In a text of one character nothing stands before it. -/
theorem isTerminalUtf8Character_take (c : Char) (back : List UInt8) {size : Nat}
    (hsize : size ≤ (String.utf8EncodeChar c).length) :
    isTerminalUtf8Character (String.utf8EncodeChar c ++ back) size = false := by
  rw [← Bool.not_eq_true]
  intro hterminal
  have htake : ((String.utf8EncodeChar c).take size).length = size := by
    rw [length_take]
    omega
  obtain ⟨start, bytes, hfront, hstart, hbytes⟩ := (isTerminalUtf8Character_iff htake
    ((String.utf8EncodeChar c).drop size ++ back)).mp (by simpa [← append_assoc] using hterminal)
  by_cases hempty : (String.utf8EncodeChar c).take size = []
  · rw [hempty] at hfront
    exact hstart (append_eq_nil_iff.mp hfront.symm).1
  · exact hstart (eq_of_isCharacter hempty ( take_prefix _ _) hbytes (nil_append _ ▸ hfront)).1

theorem offsetToTerminalUtf8Character_eq (hchars : chars ≠ [])
    (hstarts : part <+: String.utf8EncodeChar c) (hproper : part ≠ String.utf8EncodeChar c) :
    offsetToTerminalUtf8Character (encode chars ++ part) (encode chars ++ part).length =
      if 2 ≤ chars.length then part.length else 0 := by
  have hwithin : ∀ unread < part.length, isTerminalUtf8Character (encode chars ++ part)
      ((encode chars ++ part).length - unread) = false := fun unread =>
    isTerminalUtf8Character_within hstarts hproper
  rw [offsetToTerminalUtf8Character, range_eq_range', takeWhile_range', ← range_eq_range',
    Nat.sub_zero]
  split_ifs with htwo
  · have hfour : part.length < utf8MaxCharacterSize := by
      have hlt : part.length < (String.utf8EncodeChar c).length :=
        Nat.lt_of_not_le fun hle => hproper (hstarts.eq_of_length_le hle)
      rw [String.length_utf8EncodeChar] at hlt
      exact lt_of_lt_of_le hlt c.utf8Size_le_four
    have hpos := length_pos_iff.mpr (encode_ne_nil hchars)
    rw [find?_range_eq_some.mpr ⟨?_, ?_, fun unread h => ?_⟩, Option.getD_some]
    · rw [List.length_append, Nat.add_sub_cancel]
      exact isTerminalUtf8Character_behind htwo part
    · rw [mem_range, length_append]
      omega
    · rw [hwithin unread h]
      rfl
  · obtain ⟨first, rfl⟩ : ∃ first, chars = [first] := by
      have hpos := length_pos_iff.mpr hchars
      exact length_eq_one_iff.mp (by omega)
    rw [find?_eq_none.mpr fun unread hmem => ?_, Option.getD_none]
    rw [Bool.not_eq_true]
    rcases lt_or_ge unread part.length with h | h
    · exact hwithin unread h
    · rw [encode, flatMap_singleton, length_append]
      exact isTerminalUtf8Character_take first part (by omega)

/-- The bytes that were read are split behind the characters that are complete, unless there is one
only and an incomplete one follows it. -/
theorem split_eq_iff (hchars : chars ≠ []) (hstarts : part <+: String.utf8EncodeChar c)
    (hproper : part ≠ String.utf8EncodeChar c) :
    (offsetToTerminalUtf8Character (encode chars ++ part) (encode chars ++ part).length =
        part.length ∧ split (encode chars ++ part) = (encode chars, part)) ↔
      part = [] ∨ 2 ≤ chars.length := by
  have hoffset := offsetToTerminalUtf8Character_eq hchars hstarts hproper
  have hsplit : offsetToTerminalUtf8Character (encode chars ++ part)
      (encode chars ++ part).length = part.length →
        split (encode chars ++ part) = (encode chars, part) := by
    intro h
    rw [split, h, length_append, Nat.add_sub_cancel, splitAt_eq, take_left, drop_left]
  rw [and_iff_left_of_imp hsplit, hoffset]
  split_ifs with htwo
  · simp [htwo]
  · simp [htwo, eq_comm]

end

/-- Two characters and the first byte of a third. -/
theorem split_eq_iff_two : split (encode ['a', 'b'] ++ [0xc3]) = (encode ['a', 'b'], [0xc3]) :=
  ((@split_eq_iff ['a', 'b'] 'é' [0xc3] (by decide) (by decide) (by decide)).mpr
    (.inr (by decide))).2

/-- One character and the first byte of a second: nothing is carried over. -/
theorem split_one_character :
    [0xc3] <+: String.utf8EncodeChar 'é' ∧ [0xc3] ≠ String.utf8EncodeChar 'é' ∧
      offsetToTerminalUtf8Character (encode ['a'] ++ [0xc3]) (encode ['a'] ++ [0xc3]).length = 0 ∧
      split (encode ['a'] ++ [0xc3]) = (encode ['a'] ++ [0xc3], []) := by
  decide

end BitprimCore.Unicode
