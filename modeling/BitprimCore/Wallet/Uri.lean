import BitprimCore.Formats.Base16
import BitprimCore.Library.Positional
import BitprimCore.Library.SortedMap

/-!
# URIs

The parts of a URI with their escape sequences, and the query as a map (`wallet/uri`).

A character that is escaped is promoted to an integer before it is printed. Characters are signed,
so one that is not ASCII is printed with all the digits of a negative number, of which only the first
two are read back as an escape sequence.

## Implementation notes

A text is a list of bytes. Characters are compared with ASCII characters only, which comes out the
same for signed and unsigned ones.
-/

namespace BitprimCore

open List

/-- The parts of a URI as they are stored, with their escaping. -/
structure Uri where
  schemePart : DataChunk := []
  authorityPart : DataChunk := []
  pathPart : DataChunk := []
  queryPart : DataChunk := []
  fragmentPart : DataChunk := []
  hasAuthority : Bool := false
  hasQuery : Bool := false
  hasFragment : Bool := false
  deriving DecidableEq

/-- The map of a query (`query_map`). -/
abbrev QueryMap := SortedMap DataChunk DataChunk

namespace Uri

variable {text front rest : DataChunk} {c : UInt8} {term : DataChunk × DataChunk} {map : QueryMap}

/-! The order of the keys. -/

instance transLt :
    Trans (fun a b : DataChunk => a < b) (fun a b : DataChunk => a < b)
      (fun a b : DataChunk => a < b) :=
  ⟨List.lt_trans⟩

instance trichotomousLt : Std.Trichotomous (fun a b : DataChunk => a < b) := inferInstance

/-- The byte of an ASCII character. -/
def byte (c : Char) : UInt8 := UInt8.ofNat c.toNat

def bytes (text : String) : DataChunk := text.toList.map byte

def between (low high : Char) (c : UInt8) : Bool := decide (byte low ≤ c) && decide (c ≤ byte high)

def isAlpha (c : UInt8) : Bool := between 'A' 'Z' c || between 'a' 'z' c

/-- What a scheme may hold. -/
def isScheme (c : UInt8) : Bool := isAlpha c || between '0' '9' c || (bytes "+-.").contains c

/-- What a path part may hold. -/
def isPathChar (c : UInt8) : Bool :=
  isAlpha c || between '0' '9' c || (bytes "-._~").contains c || (bytes "!$&'()*+,;=").contains c ||
    (bytes ":@").contains c

/-- What a path may hold. -/
def isPath (c : UInt8) : Bool := isPathChar c || c == byte '/'

/-- What a query may hold. -/
def isQuery (c : UInt8) : Bool := isPathChar c || c == byte '/' || c == byte '?'

/-- What a term may hold. -/
def isQueryChar (c : UInt8) : Bool := isQuery c && c != byte '&' && c != byte '='

def isHex (c : UInt8) : Bool := isBase16 (Char.ofNat c.toNat)

/-- The byte of two digits (`base16_literal`). -/
def base16Literal (high low : UInt8) : UInt8 :=
  UInt8.ofNat (fromHex (Char.ofNat high.toNat) <<< 4 + fromHex (Char.ofNat low.toNat))

/-- All escape sequences are valid and all other characters belong to a class. -/
def validate (isValid : UInt8 → Bool) : DataChunk → Bool
  | [] => true
  | c :: rest =>
    if c = byte '%' then
      match rest with
      | high :: low :: rest => isHex high && isHex low && validate isValid rest
      | _ => false
    else isValid c && validate isValid rest

/-- All escape sequences are decoded; what is none stays as it is. -/
def unescape : DataChunk → DataChunk
  | [] => []
  | [c] => [c]
  | [c, d] => [c, d]
  | c :: high :: low :: rest =>
    if c = byte '%' && isHex high && isHex low then base16Literal high low :: unescape rest
    else c :: unescape (high :: low :: rest)

/-- The integer that a signed character is promoted to, as the stream prints it in base 16. -/
def promote (c : UInt8) : UInt32 := c.toInt8.toInt32.toUInt32

/-- A digit of `std::uppercase`. -/
def upperDigit (digit : Nat) : UInt8 :=
  if digit < 10 then UInt8.ofNat (48 + digit) else UInt8.ofNat (55 + digit)

/-- What `std::hex` makes of a number, filled with zeros up to two digits. -/
def insertHex (value : UInt32) : DataChunk :=
  let digits := (Positional.digits 16 8 value.toNat).dropWhile (· == 0)
  (List.replicate (2 - digits.length) 0 ++ digits).map upperDigit

/-- A byte, escaped if needed. -/
def escapeChar (isValid : UInt8 → Bool) (c : UInt8) : DataChunk :=
  if isValid c then [c] else byte '%' :: insertHex (promote c)

/-- Escapes what is not valid. -/
def escape (isValid : UInt8 → Bool) (text : DataChunk) : DataChunk :=
  text.flatMap (escapeChar isValid)

/-- The part before a character that ends it, and the rest. -/
def splitAtAny (ends : String) (text : DataChunk) : DataChunk × DataChunk :=
  (text.takeWhile fun c => !(bytes ends).contains c, text.dropWhile fun c => !(bytes ends).contains c)

/-- Take a URI apart. Of a text that is no URI nothing is used. -/
def decode (encoded : DataChunk) (strict : Bool) : Option Uri := do
  let (scheme, rest) := splitAtAny ":" encoded
  guard (!scheme.isEmpty && isAlpha (scheme.headD 0))
  guard (scheme.all isScheme)
  guard (!rest.isEmpty)
  let rest := rest.tail
  let hasAuthority := rest.take 2 == bytes "//"
  let (authority, rest) := if hasAuthority then splitAtAny "#?/" (rest.drop 2) else ([], rest)
  guard (!(strict && !validate isPathChar authority))
  let (path, rest) := splitAtAny "#?" rest
  guard (!(strict && !validate isPath path))
  let hasQuery := !rest.isEmpty && rest.head? != some (byte '#')
  let (query, rest) := splitAtAny "#" (if hasQuery then rest.tail else rest)
  guard (!(strict && !validate isQuery query))
  let fragment := rest.tail
  guard (!strict || validate isQuery fragment)
  return { schemePart := scheme, authorityPart := authority, pathPart := path, queryPart := query,
           fragmentPart := fragment, hasAuthority, hasQuery, hasFragment := !rest.isEmpty }

section

variable (uri : Uri)

/-- The scheme in lower case. -/
def scheme : DataChunk :=
  uri.schemePart.map fun c => if between 'A' 'Z' c then c - byte 'A' + byte 'a' else c

def authority : DataChunk := unescape uri.authorityPart

/-- Escapes the authority. -/
def setAuthority (text : DataChunk) : Uri :=
  { uri with hasAuthority := true, authorityPart := escape isPathChar text }

def path : DataChunk := unescape uri.pathPart

/-- Escapes the path. -/
def setPath (text : DataChunk) : Uri := { uri with pathPart := escape isPath text }

def query : DataChunk := unescape uri.queryPart

/-- Escapes the query. -/
def setQuery (text : DataChunk) : Uri :=
  { uri with hasQuery := true, queryPart := escape isQuery text }

def fragment : DataChunk := unescape uri.fragmentPart

/-- Escapes the fragment. -/
def setFragment (text : DataChunk) : Uri :=
  { uri with hasFragment := true, fragmentPart := escape isQuery text }

end

/-- Belongs to a key. -/
def isKeyByte (c : UInt8) : Bool := c != byte '&' && c != byte '='

def isValueByte (c : UInt8) : Bool := c != byte '&'

/-- The value of a term, from the character that ends its key. -/
def afterKey (rest : DataChunk) : DataChunk :=
  match rest with
  | [] => []
  | c :: tail => if c ≠ byte '&' then tail else rest

/-- What follows the first term. -/
def afterTerm (text : DataChunk) : DataChunk :=
  ((afterKey (text.dropWhile isKeyByte)).dropWhile isValueByte).tail

theorem length_afterKey_le (rest : DataChunk) : (afterKey rest).length ≤ rest.length := by
  unfold afterKey
  split
  · rfl
  · split
    · exact Nat.le_succ _
    · rfl

theorem length_afterTerm_lt (h : text ≠ []) : (afterTerm text).length < text.length := by
  have hkey : (text.dropWhile isKeyByte).length ≤ text.length :=
    (dropWhile_sublist isKeyByte).length_le
  have hval := length_afterKey_le (text.dropWhile isKeyByte)
  have hterm : ((afterKey (text.dropWhile isKeyByte)).dropWhile isValueByte).length ≤
      (afterKey (text.dropWhile isKeyByte)).length :=
    (dropWhile_sublist isValueByte).length_le
  have hpos := length_pos_iff.mpr h
  rw [afterTerm, length_tail]
  omega

/-- Read the terms one by one. -/
def decodeTerms (text : DataChunk) (out : QueryMap) : QueryMap :=
  if text = [] then out
  else
    let key := unescape (text.takeWhile isKeyByte)
    let value := unescape ((afterKey (text.dropWhile isKeyByte)).takeWhile isValueByte)
    decodeTerms (afterTerm text) (out.set key value)
termination_by text.length
decreasing_by exact length_afterTerm_lt (by assumption)

variable (uri : Uri) {isValid : UInt8 → Bool}

/-- The query as a map. -/
def decodeQuery : QueryMap := decodeTerms uri.queryPart SortedMap.empty

/-- A key with its value. -/
def encodeTerm (term : DataChunk × DataChunk) : DataChunk :=
  escape isQueryChar term.1 ++
    if !term.2.isEmpty then byte '=' :: escape isQueryChar term.2 else []

/-- Joins the terms. -/
def encodeTerms : List (DataChunk × DataChunk) → DataChunk
  | [] => []
  | term :: terms => encodeTerm term ++ terms.flatMap fun other => byte '&' :: encodeTerm other

/-- Writes the query. -/
def encodeQuery (map : QueryMap) : Uri :=
  { uri with hasQuery := !map.entries.isEmpty, queryPart := encodeTerms map.entries }

/-- What is read back of a character. -/
def readBack (c : UInt8) : DataChunk :=
  if c < 0x80 then [c]
  else 0xff :: (List.replicate 4 15 ++ [c.toNat / 16, c.toNat % 16]).map upperDigit

/-- All characters are ASCII. -/
def IsAscii (text : DataChunk) : Prop := ∀ c ∈ text, c < 0x80

instance (text : DataChunk) : Decidable (IsAscii text) :=
  decidable_of_iff (text.all (fun c => decide (c < 0x80)) = true) (by simp [IsAscii])

/-- Characters that can stand for themselves: the digits are among them, the percent is not. -/
structure IsClass (isValid : UInt8 → Bool) : Prop where
  percent : isValid (byte '%') = false
  ascii : ∀ c, isValid c = true → c < 0x80
  digit : ∀ digit < 16, isValid (upperDigit digit) = true

theorem upperDigit_spec : ∀ digit < 16, isHex (upperDigit digit) ∧
    fromHex (Char.ofNat (upperDigit digit).toNat) = digit ∧ upperDigit digit ≠ byte '%' := by
  decide

/-- The escape sequence of an ASCII character has two digits, and that of any other has eight. -/
theorem insertHex_promote (c : UInt8) :
    insertHex (promote c) = ((if c < 0x80 then [] else replicate 6 15) ++
      [c.toNat / 16, c.toNat % 16]).map upperDigit := by
  have htable : ∀ n : Fin 256, insertHex (promote (UInt8.ofNat n)) =
      ((if UInt8.ofNat n < 0x80 then [] else replicate 6 15) ++
        [n.val / 16, n.val % 16]).map upperDigit := by
    decide +kernel
  have hc := htable ⟨c.toNat, c.toNat_lt⟩
  rwa [UInt8.ofNat_toNat] at hc

section

variable {isValid : UInt8 → Bool} (hclass : IsClass isValid)
include hclass

theorem IsClass.ne_percent (h : isValid c) : c ≠ byte '%' := by
  rintro rfl
  rw [hclass.percent] at h
  exact Bool.false_ne_true h

end

theorem unescape_cons (h : c ≠ byte '%') (rest : DataChunk) :
    unescape (c :: rest) = c :: unescape rest := by
  match rest with
  | [] => rfl
  | [_] => rfl
  | _ :: _ :: _ => simp [unescape, h]

theorem unescape_append (h : byte '%' ∉ front) (rest : DataChunk) :
    unescape (front ++ rest) = front ++ unescape rest := by
  induction front with
  | nil => rfl
  | cons c front ih =>
    rw [mem_cons, not_or] at h
    rw [cons_append, unescape_cons (Ne.symm h.1), ih h.2, cons_append]

/-- The two digits after a percent make one character. -/
theorem unescape_sequence {high low : Nat} (hhigh : high < 16) (hlow : low < 16)
    (rest : DataChunk) :
    unescape (byte '%' :: upperDigit high :: upperDigit low :: rest) =
      UInt8.ofNat (high <<< 4 + low) :: unescape rest := by
  obtain ⟨hhex, hval, -⟩ := upperDigit_spec high hhigh
  obtain ⟨hhex', hval', -⟩ := upperDigit_spec low hlow
  rw [unescape, base16Literal, hhex, hhex', hval, hval']
  simp

theorem percent_not_mem_map {digits : List Nat} (h : ∀ digit ∈ digits, digit < 16) :
    byte '%' ∉ digits.map upperDigit := by
  intro hmem
  obtain ⟨digit, hdigit, heq⟩ := mem_map.mp hmem
  exact (upperDigit_spec digit (h digit hdigit)).2.2 heq

theorem unescape_escapeChar (hclass : IsClass isValid) (c : UInt8) (rest : DataChunk) :
    unescape (escapeChar isValid c ++ rest) = readBack c ++ unescape rest := by
  have hhigh : c.toNat / 16 < 16 := Nat.div_lt_of_lt_mul c.toNat_lt
  have hlow : c.toNat % 16 < 16 := Nat.mod_lt _ (by decide)
  unfold escapeChar
  split
  · rename_i hvalid
    rw [readBack, if_pos (hclass.ascii c hvalid)]
    exact unescape_cons (hclass.ne_percent hvalid) rest
  · rw [insertHex_promote, readBack]
    split
    · have hval : (c.toNat / 16) <<< 4 + c.toNat % 16 = c.toNat := by
        rw [Nat.shiftLeft_eq]
        omega
      have hread := unescape_sequence hhigh hlow rest
      rw [hval, UInt8.ofNat_toNat] at hread
      exact hread
    · -- the first two of the eight digits are read and the others stay
      have hdigits : ∀ digit ∈ replicate 4 15 ++ [c.toNat / 16, c.toNat % 16], digit < 16 := by
        simp [hhigh, hlow]
      have hread := @unescape_sequence 15 15 (by decide) (by decide)
        ((replicate 4 15 ++ [c.toNat / 16, c.toNat % 16]).map upperDigit ++ rest)
      rw [unescape_append (percent_not_mem_map hdigits)] at hread
      exact hread

theorem unescape_escape (hclass : IsClass isValid) (text : DataChunk) :
    unescape (escape isValid text) = text.flatMap readBack := by
  induction text with
  | nil => rfl
  | cons c text ih =>
    rw [escape, flatMap_cons, unescape_escapeChar hclass, flatMap_cons]
    rw [escape] at ih
    rw [ih]

theorem length_readBack (c : UInt8) : (readBack c).length = 1 + if c < 0x80 then 0 else 6 := by
  unfold readBack
  split <;> simp

theorem length_flatMap_readBack (text : DataChunk) :
    (text.flatMap readBack).length = text.length + 6 * text.countP (fun c => !decide (c < 0x80)) := by
  induction text with
  | nil => rfl
  | cons c text ih =>
    rw [flatMap_cons, length_append, length_readBack, ih, countP_cons, length_cons]
    by_cases hc : c < 0x80 <;> simp [hc] <;> omega

theorem isAscii_iff_length (text : DataChunk) :
    IsAscii text ↔ (text.flatMap readBack).length = text.length := by
  rw [length_flatMap_readBack, Nat.add_eq_left, Nat.mul_eq_zero, countP_eq_zero]
  simp [IsAscii]

theorem flatMap_readBack_of_isAscii (h : IsAscii text) : text.flatMap readBack = text := by
  induction text with
  | nil => rfl
  | cons c text ih =>
    have hc : readBack c = [c] := if_pos (h c mem_cons_self)
    rw [flatMap_cons, hc, ih fun c' hc' => h c' (mem_cons_of_mem c hc')]
    rfl

theorem flatMap_readBack_eq_iff (text : DataChunk) : text.flatMap readBack = text ↔ IsAscii text :=
  ⟨fun h => (isAscii_iff_length text).mpr (congrArg length h), flatMap_readBack_of_isAscii⟩

theorem exists_digit_of_mem_insertHex {value : UInt32} (h : c ∈ insertHex value) :
    ∃ digit < 16, c = upperDigit digit := by
  obtain ⟨digit, hdigit, rfl⟩ := mem_map.mp h
  refine ⟨digit, ?_, rfl⟩
  obtain hdigit | hdigit := mem_append.mp hdigit
  · rw [eq_of_mem_replicate hdigit]
    decide
  · exact Positional.lt_of_mem_digits (by decide) ((dropWhile_sublist _).mem hdigit)

theorem exists_insertHex_eq (value : UInt32) :
    ∃ high low digits, insertHex value = high :: low :: digits := by
  have hlen : 2 ≤ (insertHex value).length := by
    simp only [insertHex, length_map, length_append, length_replicate]
    omega
  match insertHex value, hlen with
  | high :: low :: digits, _ => exact ⟨high, low, digits, rfl⟩

theorem validate_cons (h : c ≠ byte '%') (isValid : UInt8 → Bool) (rest : DataChunk) :
    validate isValid (c :: rest) = (isValid c && validate isValid rest) := by
  match rest with
  | [] => simp [validate, h]
  | [_] => simp [validate, h]
  | _ :: _ :: _ => simp [validate, h]

section

variable {isValid : UInt8 → Bool} (hclass : IsClass isValid)
include hclass

theorem validate_append (h : ∀ c ∈ front, isValid c) (rest : DataChunk) :
    validate isValid (front ++ rest) = validate isValid rest := by
  induction front with
  | nil => rfl
  | cons c front ih =>
    rw [forall_mem_cons] at h
    rw [cons_append, validate_cons (hclass.ne_percent h.1), h.1, Bool.true_and, ih h.2]

theorem validate_escapeChar (c : UInt8) (rest : DataChunk) :
    validate isValid (escapeChar isValid c ++ rest) = validate isValid rest := by
  unfold escapeChar
  split
  · rename_i hvalid
    exact validate_append hclass (forall_mem_singleton.mpr hvalid) rest
  · -- what follows the first two digits are digits too, which are valid by themselves
    have hdigits : ∀ d ∈ insertHex (promote c), ∃ digit < 16, d = upperDigit digit :=
      fun d => exists_digit_of_mem_insertHex
    obtain ⟨high, low, digits, heq⟩ := exists_insertHex_eq (promote c)
    rw [heq, forall_mem_cons, forall_mem_cons] at hdigits
    obtain ⟨⟨highDigit, hhigh, rfl⟩, ⟨lowDigit, hlow, rfl⟩, hdigits⟩ := hdigits
    have hmore : ∀ d ∈ digits, isValid d := by
      intro d hd
      obtain ⟨digit, hdigit, rfl⟩ := hdigits d hd
      exact hclass.digit digit hdigit
    rw [heq]
    simp only [cons_append, validate, if_true, (upperDigit_spec highDigit hhigh).1,
      (upperDigit_spec lowDigit hlow).1, Bool.true_and]
    exact validate_append hclass hmore rest

theorem validate_escape (text : DataChunk) : validate isValid (escape isValid text) := by
  induction text with
  | nil => rfl
  | cons c text ih => rwa [escape, flatMap_cons, validate_escapeChar hclass]

end

theorem isClass_of_table (hpercent : isValid (byte '%') = false)
    (hascii : ∀ n : Fin 128, isValid (UInt8.ofNat (n + 128)) = false)
    (hdigit : ∀ digit < 16, isValid (upperDigit digit)) : IsClass isValid where
  percent := hpercent
  ascii c hvalid := by
    by_contra hc
    have hle : 128 ≤ c.toNat := UInt8.le_iff_toNat_le.mp (UInt8.not_lt.mp hc)
    have hlt := c.toNat_lt
    have hc' := hascii ⟨c.toNat - 128, by omega⟩
    rw [Nat.sub_add_cancel hle, UInt8.ofNat_toNat, hvalid] at hc'
    exact Bool.false_ne_true hc'.symm
  digit := hdigit

theorem isClass_isPathChar : IsClass isPathChar :=
  isClass_of_table (by decide) (by decide +kernel) (by decide)

theorem isClass_isPath : IsClass isPath :=
  isClass_of_table (by decide) (by decide +kernel) (by decide)

theorem isClass_isQuery : IsClass isQuery :=
  isClass_of_table (by decide) (by decide +kernel) (by decide)

theorem isClass_isQueryChar : IsClass isQueryChar :=
  isClass_of_table (by decide) (by decide +kernel) (by decide)

/-- What is read back of a term. -/
def readBackTerm (term : DataChunk × DataChunk) : DataChunk × DataChunk :=
  (term.1.flatMap readBack, term.2.flatMap readBack)

/-- No character of a key or value ends it. -/
theorem isKeyByte_of_mem_escape (h : c ∈ escape isQueryChar text) : isKeyByte c := by
  have hvalid : ∀ d, isQueryChar d → isKeyByte d := by
    intro d hd
    simp only [isQueryChar, Bool.and_eq_true] at hd
    simp [isKeyByte, hd.1.2, hd.2]
  obtain ⟨d, -, hd⟩ := mem_flatMap.mp h
  unfold escapeChar at hd
  split at hd
  · rename_i hd'
    rw [mem_singleton.mp hd]
    exact hvalid d hd'
  · obtain rfl | hd := mem_cons.mp hd
    · decide
    · obtain ⟨digit, hdigit, rfl⟩ := exists_digit_of_mem_insertHex hd
      exact hvalid _ (isClass_isQueryChar.digit digit hdigit)

theorem isValueByte_of_isKeyByte (h : isKeyByte c) : isValueByte c := (Bool.and_eq_true_iff.mp h).1

theorem escape_ne_nil (h : text ≠ []) : escape isValid text ≠ [] := by
  obtain ⟨c, text, rfl⟩ := exists_cons_of_ne_nil h
  rw [escape, flatMap_cons, escapeChar]
  split <;> simp

/-- What stands before the first character that ends a run, and what stands behind. -/
theorem split_run {inRun : UInt8 → Bool} (hfront : ∀ c ∈ front, inRun c)
    (hrest : ∀ c ∈ rest.head?, inRun c = false) :
    (front ++ rest).takeWhile inRun = front ∧ (front ++ rest).dropWhile inRun = rest := by
  rw [takeWhile_append_of_pos hfront, dropWhile_append_of_pos hfront]
  cases rest with
  | nil => simp
  | cons c rest => simp [hrest c rfl]

theorem decodeTerms_of_ne_nil (h : text ≠ []) (out : QueryMap) :
    decodeTerms text out = decodeTerms (afterTerm text)
      (out.set (unescape (text.takeWhile isKeyByte))
        (unescape ((afterKey (text.dropWhile isKeyByte)).takeWhile isValueByte))) := by
  rw [decodeTerms, if_neg h]

/-- The value of a term, with the sign before it, is taken up to the next term. -/
theorem afterKey_spec (value : DataChunk) (hrest : ∀ c ∈ rest.head?, c = byte '&') :
    afterKey ((if !value.isEmpty then byte '=' :: escape isQueryChar value else []) ++ rest) =
      escape isQueryChar value ++ rest := by
  cases value with
  | nil =>
    cases rest with
    | nil => rfl
    | cons c rest => simp [afterKey, escape, hrest c rfl]
  | cons c value => rfl

/-- A term is read up to its end. -/
theorem decodeTerms_encodeTerm (hkey : term.1 ≠ []) (hrest : ∀ c ∈ rest.head?, c = byte '&')
    (out : QueryMap) :
    decodeTerms (encodeTerm term ++ rest) out =
      decodeTerms rest.tail (out.set (readBackTerm term).1 (readBackTerm term).2) := by
  have hne : encodeTerm term ++ rest ≠ [] := by
    intro h
    rw [encodeTerm, append_assoc] at h
    exact escape_ne_nil hkey (append_eq_nil_iff.mp h).1
  -- the key ends at the sign before the value, at the next term or with the text
  have hend : ∀ c ∈ ((if !term.2.isEmpty then byte '=' :: escape isQueryChar term.2 else []) ++
      rest).head?, isKeyByte c = false := by
    intro c hc
    split at hc
    · obtain rfl : byte '=' = c := Option.some.inj hc
      decide
    · rw [hrest c hc]
      decide
  have hkeys := split_run (fun c hc => @isKeyByte_of_mem_escape term.1 c hc) hend
  have hend' : ∀ c ∈ rest.head?, isValueByte c = false := by
    intro c hc
    rw [hrest c hc]
    decide
  have hvals := split_run
    (fun c hc => isValueByte_of_isKeyByte (@isKeyByte_of_mem_escape term.2 c hc)) hend'
  rw [← append_assoc] at hkeys
  rw [decodeTerms_of_ne_nil hne, afterTerm]
  simp only [encodeTerm, hkeys.1, hkeys.2, afterKey_spec term.2 hrest, hvals.1, hvals.2,
    unescape_escape isClass_isQueryChar, readBackTerm]

theorem decodeTerms_encodeTerms {terms : List (DataChunk × DataChunk)}
    (hkeys : ∀ term ∈ terms, term.1 ≠ []) (out : QueryMap) :
    decodeTerms (encodeTerms terms) out =
      (terms.map readBackTerm).foldl (fun map term => map.set term.1 term.2) out := by
  induction terms generalizing out with
  | nil => rw [encodeTerms, decodeTerms, if_pos rfl]; rfl
  | cons term terms ih =>
    rw [forall_mem_cons] at hkeys
    have hrest : ∀ c ∈ (terms.flatMap fun other => byte '&' :: encodeTerm other).head?,
        c = byte '&' := by
      intro c hc
      cases terms with
      | nil => cases hc
      | cons other terms => exact (Option.some.inj hc).symm
    have htail : (terms.flatMap fun other => byte '&' :: encodeTerm other).tail =
        encodeTerms terms := by
      cases terms with
      | nil => rfl
      | cons other terms => rfl
    rw [encodeTerms, decodeTerms_encodeTerm hkeys.1 hrest, htail, ih hkeys.2]
    rfl

def termLength (term : DataChunk × DataChunk) : Nat := term.1.length + term.2.length

theorem readBackTerm_of_isAscii (h : IsAscii term.1 ∧ IsAscii term.2) :
    readBackTerm term = term := by
  rw [readBackTerm, flatMap_readBack_of_isAscii h.1, flatMap_readBack_of_isAscii h.2]

theorem isAscii_of_termLength_le (h : termLength (readBackTerm term) ≤ termLength term) :
    IsAscii term.1 ∧ IsAscii term.2 := by
  have hkey := length_flatMap_readBack term.1
  have hval := length_flatMap_readBack term.2
  rw [isAscii_iff_length, isAscii_iff_length]
  unfold termLength readBackTerm at h
  dsimp only at h
  omega

/-- Each entry of a map that is read back is what is read back of an entry. This one is shorter,
unless it is ASCII, so none of the shortest that are not ASCII can be among them. -/
theorem isAscii_of_ofList_eq (h : SortedMap.ofList (map.entries.map readBackTerm) = map)
    (hterm : term ∈ map.entries) : IsAscii term.1 ∧ IsAscii term.2 := by
  induction hlen : termLength term using Nat.strong_induction_on generalizing term with
  | _ length ih =>
    rw [← h] at hterm
    obtain ⟨source, hsource, rfl⟩ := mem_map.mp (SortedMap.mem_of_mem_ofList hterm)
    have hascii : IsAscii source.1 ∧ IsAscii source.2 := by
      by_cases hle : termLength (readBackTerm source) ≤ termLength source
      · exact isAscii_of_termLength_le hle
      · exact ih (termLength source) (hlen ▸ Nat.lt_of_not_le hle) hsource rfl
    rwa [readBackTerm_of_isAscii hascii]

theorem decodeQuery_encodeQuery (hkeys : ∀ term ∈ map.entries, term.1 ≠ []) :
    (uri.encodeQuery map).decodeQuery = SortedMap.ofList (map.entries.map readBackTerm) :=
  decodeTerms_encodeTerms hkeys SortedMap.empty

theorem decodeQuery_encodeQuery_eq_iff (hkeys : ∀ term ∈ map.entries, term.1 ≠ []) :
    (uri.encodeQuery map).decodeQuery = map ↔
      ∀ term ∈ map.entries, IsAscii term.1 ∧ IsAscii term.2 := by
  rw [decodeQuery_encodeQuery uri hkeys]
  refine ⟨fun h term => isAscii_of_ofList_eq h, fun h => ?_⟩
  have hsame : map.entries.map readBackTerm = map.entries :=
    (map_congr_left fun term hterm => readBackTerm_of_isAscii (h term hterm)).trans (map_id _)
  rw [hsame, SortedMap.ofList_entries]

/-- What is set is stored in a valid form and read back exactly if it is ASCII, and so is a query
with its keys and values. -/
theorem components_round_trip_iff (uri : Uri) (text : DataChunk) (map : QueryMap)
    (hkeys : ∀ term ∈ map.entries, term.1 ≠ []) :
    (validate isPathChar (uri.setAuthority text).authorityPart = true ∧
      validate isPath (uri.setPath text).pathPart = true ∧
      validate isQuery (uri.setQuery text).queryPart = true ∧
      validate isQuery (uri.setFragment text).fragmentPart = true) ∧
    ((uri.setAuthority text).authority = text ↔ IsAscii text) ∧
    ((uri.setPath text).path = text ↔ IsAscii text) ∧
    ((uri.setQuery text).query = text ↔ IsAscii text) ∧
    ((uri.setFragment text).fragment = text ↔ IsAscii text) ∧
    ((uri.encodeQuery map).decodeQuery = map ↔
      ∀ term ∈ map.entries, IsAscii term.1 ∧ IsAscii term.2) := by
  have hread : ∀ {isValid : UInt8 → Bool}, IsClass isValid →
      (unescape (escape isValid text) = text ↔ IsAscii text) := by
    intro isValid hclass
    rw [unescape_escape hclass, flatMap_readBack_eq_iff]
  refine ⟨⟨?_, ?_, ?_, ?_⟩, hread isClass_isPathChar, hread isClass_isPath, hread isClass_isQuery,
    hread isClass_isQuery, decodeQuery_encodeQuery_eq_iff uri hkeys⟩
  · exact validate_escape isClass_isPathChar text
  · exact validate_escape isClass_isPath text
  · exact validate_escape isClass_isQuery text
  · exact validate_escape isClass_isQuery text

/-- The query `k=é` in Latin 1. -/
def accented : QueryMap := ⟨[([byte 'k'], [0xe9])], List.pairwise_singleton _ _⟩

theorem accented_keys : ∀ term ∈ accented.entries, term.1 ≠ [] :=
  forall_mem_singleton.mpr (cons_ne_nil _ _)

theorem components_round_trip_iff_accented :
    (({} : Uri).setPath (bytes "a/b c")).path = bytes "a/b c" ∧
      (({} : Uri).encodeQuery accented).decodeQuery ≠ accented := by
  have h := components_round_trip_iff {} (bytes "a/b c") accented accented_keys
  refine ⟨h.2.2.1.mpr (by decide), fun hread => ?_⟩
  exact absurd (forall_mem_singleton.mp (h.2.2.2.2.2.mp hread)).2 (by decide)

/-- The letter is stored as `%FFFFFFE9`, which is read as a byte `0xFF` and the text `FFFFE9`. -/
theorem accented_letter_lost :
    (({} : Uri).setPath [0xe9]).pathPart = bytes "%FFFFFFE9" ∧
      (({} : Uri).setPath [0xe9]).path = 0xff :: bytes "FFFFE9" ∧
      (({} : Uri).encodeQuery accented).decodeQuery.entries =
        [(bytes "k", 0xff :: bytes "FFFFE9")] := by
  refine ⟨by decide, by decide, ?_⟩
  rw [decodeQuery_encodeQuery {} accented_keys]
  decide

end Uri

end BitprimCore
