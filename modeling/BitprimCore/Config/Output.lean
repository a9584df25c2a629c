import BitprimCore.Chain.ObjectState
import BitprimCore.Formats.Base10
import BitprimCore.Math.Stealth
import BitprimCore.Wallet.AddressText
import BitprimCore.Wallet.StealthAddress

/-!
# Outputs as settings

A target and an amount, behind a colon, as text (`config/output`). The target is a payment address,
a stealth address, which needs a seed behind another colon, or a script.
-/

namespace BitprimCore

open List PaymentAddress Text

namespace Text

/-- What a stream reads as one word (`stream >> word`). -/
def readWord (text : Text) : Text := (text.dropWhile isSpace).takeWhile fun c => !isSpace c

/-- A number of 64 bits with an optional sign, which wraps around (`lexical_cast<uint64_t>`). -/
def lexicalCastUInt64 (text : Text) : Option UInt64 :=
  match text with
  | '-' :: digits => do
    let value ← digitsValue digits
    if value < 2 ^ 64 then some (0 - UInt64.ofNat value) else none
  | '+' :: digits => do
    let value ← digitsValue digits
    if value < 2 ^ 64 then some (UInt64.ofNat value) else none
  | digits => do
    let value ← digitsValue digits
    if value < 2 ^ 64 then some (UInt64.ofNat value) else none

theorem readWord_of_isWord {text : Text} (h : ∀ c ∈ text, isSpace c = false) :
    readWord text = text := by
  have hdrop : text.dropWhile isSpace = text := by
    cases text with
    | nil => rfl
    | cons c rest => exact dropWhile_cons_of_neg (by simp [h c mem_cons_self])
  rw [readWord, hdrop, takeWhile_eq_self_iff]
  intro c hc
  rw [h c hc]
  rfl

theorem isDigit_of_base10 {c : Char} (h : Base10.isDigit c) : c.isDigit := by
  simpa [Char.isDigit, Base10.isDigit, Char.le_def] using h

theorem foldl_digits (text : Text) :
    text.foldl (fun total c => 10 * total + (c.toNat - '0'.toNat)) 0 =
      Positional.value 10 (text.map Base10.digit) := by
  induction text using reverseRecOn with
  | nil => rfl
  | append_singleton front c ih =>
    rw [foldl_append, map_append, map_singleton, Positional.value_concat, ← ih, mul_comm]
    rfl

theorem insertNumber_ne_nil (number : Nat) : Base10.insertNumber number ≠ [] := by
  intro hnil
  have hval := (insertNumber_spec number).2
  rw [hnil] at hval
  obtain rfl : 0 = number := hval
  exact absurd hnil (by decide)

/-- A number is read as what a stream writes of it. -/
theorem digitsValue_insertNumber (number : Nat) :
    digitsValue (Base10.insertNumber number) = some number := by
  obtain ⟨hdigits, hval⟩ := insertNumber_spec number
  have hall : (Base10.insertNumber number).all Char.isDigit :=
    all_eq_true.mpr fun c hc => isDigit_of_base10 (hdigits c hc)
  have hne : (Base10.insertNumber number).isEmpty = false :=
    isEmpty_eq_false_iff.mpr (insertNumber_ne_nil number)
  rw [digitsValue, hall, hne, foldl_digits, hval]
  rfl

theorem lexicalCastUInt64_insertNumber (number : UInt64) :
    lexicalCastUInt64 (Base10.insertNumber number.toNat) = some number := by
  have hdigits := (insertNumber_spec number.toNat).1
  unfold lexicalCastUInt64
  split
  · rename_i htext
    exact absurd (hdigits '-' (by rw [htext]; exact mem_cons_self)) (by decide)
  · rename_i htext
    exact absurd (hdigits '+' (by rw [htext]; exact mem_cons_self)) (by decide)
  · rw [digitsValue_insertNumber]
    change (if number.toNat < 2 ^ 64 then some (UInt64.ofNat number.toNat) else none) = some number
    rw [if_pos number.toNat_lt, UInt64.ofNat_toNat]

end Text

/-- What is thrown while a setting is read. -/
inductive OutputFault
  | invalidOptionValue
  | badLexicalCast
  | address (fault : PaymentAddress.CashaddrFault)
  deriving DecidableEq

/-- The target and the amount of an output (`config::output`). -/
structure ConfigOutput where
  isStealth : Bool := false
  amount : UInt64 := 0
  version : UInt8 := 0
  script : ScriptState := {}
  payToHash : ShortHash := nullShortHash

namespace ConfigOutput

open Stealth

def minimumSeedSize : Nat := 16

variable (currency : Currency) (hashes : StealthHashes) (curve : KeyArithmetic)
  (cashaddrPrefix : Text)

/-- The target is a stealth address, with the texts behind the amount. -/
def parseStealth (amount : UInt64) (stealth : StealthAddress) (rest : List Text) :
    Except OutputFault ConfigOutput :=
  match stealth.spendKeys, rest with
  | [spendKey], [seedText] =>
    match decodeBase16 seedText with
    | none => .error .invalidOptionValue
    | some seed =>
      if seed.length < minimumSeedSize then .error .invalidOptionValue
      else
        match createStealthData currency hashes curve stealth.filter seed with
        | none => .error .invalidOptionValue
        | some (script, ephemeralSecret) =>
          match uncoverPublic hashes curve stealth.scanKey ephemeralSecret spendKey with
          | none => .error .invalidOptionValue
          | some stealthKey =>
            .ok
              { isStealth := true
                amount
                version := stealth.version
                script := ⟨script, true⟩
                payToHash := hashes.bitcoinShortHash stealthKey.val }
  | _, _ => .error .invalidOptionValue

/-- The target is a serialized script. -/
def parseScript (amount : UInt64) (target : Text) : Except OutputFault ConfigOutput :=
  match decodeBase16 target with
  | none => .error .invalidOptionValue
  | some decoded => .ok { amount, script := ⟨⟨decoded⟩, true⟩ }

/-- An address or a script. -/
def parseTarget (amount : UInt64) (target : Text) (rest : List Text) :
    Except OutputFault ConfigOutput :=
  match fromString currency hashes.toHashes cashaddrPrefix target with
  | .error fault => .error (.address fault)
  | .ok payment =>
    if payment.valid then .ok { amount, version := payment.version, payToHash := payment.hash }
    else
      let stealth := StealthAddress.fromString hashes.toHashes target
      if stealth.valid then parseStealth currency hashes curve amount stealth rest
      else parseScript amount target

/-- Read an output (`operator>>`). -/
def parse (text : Text) : Except OutputFault ConfigOutput :=
  let tuple := text.readWord
  match split tuple [':'] true with
  | [target, number] => parseTokens target number []
  | [target, number, seed] => parseTokens target number [seed]
  | _ => .error .invalidOptionValue
where
  /-- The two or three parts of the text. -/
  parseTokens (target number : Text) (rest : List Text) : Except OutputFault ConfigOutput :=
    match lexicalCastUInt64 (trim number) with
    | none => .error .badLexicalCast
    | some amount =>
      if amount.toNat > currency.maxMoney true then .error .invalidOptionValue
      else parseTarget currency hashes curve cashaddrPrefix amount target rest

variable {currency hashes curve cashaddrPrefix}

/-- The text of an address has no colon and no space. -/
theorem word_encoded {address : PaymentAddress} :
    ∀ c ∈ address.encoded hashes.toHashes, isSpace c = false ∧ c ≠ ':' := by
  intro c hc
  have hall : (base58Chars.all fun c => !isSpace c && c != ':') := by decide
  have hchar := all_eq_true.mp hall c (mem_base58Chars_of_mem_encoded hc)
  simpa using hchar

theorem word_insertNumber (number : Nat) :
    ∀ c ∈ Base10.insertNumber number, isSpace c = false ∧ c ≠ ':' := by
  intro c hc
  have hdigit : '0' ≤ c ∧ c ≤ '9' := of_decide_eq_true ((insertNumber_spec number).1 c hc)
  have hspace : ' ' < '0' := by decide
  refine ⟨isSpace_of_visible (UInt32.lt_of_lt_of_le hspace hdigit.1), ?_⟩
  rintro rfl
  exact absurd hdigit.2 (by decide)

/-- Two words behind a colon are read as these. -/
theorem parse_words {target number : Text} (htarget : target ≠ []) (hnum : number ≠ [])
    (hword : ∀ c ∈ target, isSpace c = false ∧ c ≠ ':')
    (hdigits : ∀ c ∈ number, isSpace c = false ∧ c ≠ ':') :
    parse currency hashes curve cashaddrPrefix (target ++ ':' :: number) =
      parse.parseTokens currency hashes curve cashaddrPrefix target number [] := by
  have hspace : ∀ c ∈ target ++ ':' :: number, isSpace c = false := by
    intro c hc
    obtain hc | hc := mem_append.mp hc
    · exact (hword c hc).1
    · obtain rfl | hc := mem_cons.mp hc
      · decide
      · exact (hdigits c hc).1
  have hsplit : split (target ++ ':' :: number) [':'] true = [target, number] := by
    have hflat : target ++ ':' :: number = target ++ [number].flatMap fun other => ':' :: other := by
      simp
    rw [split, if_pos rfl, trim_eq_self
      (fun c hc => hspace c (mem_of_mem_head? hc))
      (fun c hc => hspace c (mem_of_mem_getLast? hc)), hflat]
    apply splitTokens_words
    · exact ⟨htarget, fun c hc => by simpa using (hword c hc).2⟩
    · intro other hother
      obtain rfl := mem_singleton.mp hother
      exact ⟨hnum, fun c hc => by simpa using (hdigits c hc).2⟩
    · decide
  simp only [parse, readWord_of_isWord hspace, hsplit]

/-- The text of an address and an amount is read as these, unless the amount is too great. -/
theorem parse_encoded (address : PaymentAddress) (amount : UInt64) :
    parse currency hashes curve cashaddrPrefix
        (address.encoded hashes.toHashes ++ ':' :: Base10.insertNumber amount.toNat) =
      if amount.toNat > currency.maxMoney true then .error .invalidOptionValue
      else .ok { amount, version := address.version, payToHash := address.hash } := by
  have hdigits := word_insertNumber amount.toNat
  have htrim : trim (Base10.insertNumber amount.toNat) = Base10.insertNumber amount.toNat :=
    trim_eq_self (fun c hc => (hdigits c (mem_of_mem_head? hc)).1)
      (fun c hc => (hdigits c (mem_of_mem_getLast? hc)).1)
  rw [parse_words (encoded_ne_nil address) (insertNumber_ne_nil _) word_encoded hdigits]
  simp only [parse.parseTokens, htrim, lexicalCastUInt64_insertNumber, parseTarget,
    fromString_encoded, if_true]

end ConfigOutput

end BitprimCore
