import BitprimCore.Formats.Base10
import BitprimCore.Wallet.AddressText
import BitprimCore.Wallet.StealthAddress
import BitprimCore.Wallet.Uri

/-!
# Bitcoin URIs

The parser of URIs hands their parts to the setters of a reader (`wallet/uri_reader`), here to those
of a bitcoin URI (`wallet/bitcoin_uri`). A setter that refuses its part is to end the parser with an
object that is not valid, but what `set_scheme` returns is not looked at.

## Implementation notes

An object that a setter has refused a part is not used any more, except behind `set_scheme`, which
leaves it as it was. So a setter returns the object it leaves or that it refuses.
-/

namespace BitprimCore

open PaymentAddress (CashaddrFault)
open Uri (bytes)

/-- Why the parser ends. -/
inductive Refusal
  /-- A setter returned false. -/
  | refused
  /-- The text of an address was read past its end. -/
  | fault (fault : CashaddrFault)
  deriving DecidableEq

/-- A payment request. -/
structure BitcoinUri where
  strict : Bool := true
  scheme : DataChunk := []
  address : DataChunk := []
  query : QueryMap := SortedMap.empty

namespace BitcoinUri

variable {uri uri' : BitcoinUri} {term : DataChunk × DataChunk} {strict : Bool} {parsed : Uri}

/-- The characters of a byte string. -/
def toText (text : DataChunk) : Text := text.map fun c => Char.ofNat c.toNat

def btcDecimalPlaces : UInt8 := 8

/-- What the text of an address is read with. -/
structure Network where
  currency : Currency
  hashes : Hashes
  cashaddrPrefix : Text

variable (network : Network) (key value scheme : DataChunk)

def Network.payment (text : DataChunk) : Except CashaddrFault PaymentAddress :=
  PaymentAddress.fromString network.currency network.hashes network.cashaddrPrefix (toText text)

def Network.stealth (text : DataChunk) : StealthAddress :=
  StealthAddress.fromString network.hashes (toText text)

/-- The object was initialized (`operator bool`). -/
def isValid (uri : BitcoinUri) : Bool :=
  !uri.address.isEmpty || !uri.query.entries.isEmpty || !uri.scheme.isEmpty

/-- Adds a parameter. -/
def setQuery (uri : BitcoinUri) : BitcoinUri :=
  { uri with query := uri.query.set key value }

/-- Of either kind. -/
def setAddress (address : DataChunk) (uri : BitcoinUri) : Except Refusal BitcoinUri :=
  match network.payment address with
  | .error fault => .error (.fault fault)
  | .ok payment =>
    if payment.valid then .ok { uri with address }
    else if (network.stealth address).valid then .ok { uri with address }
    else .error .refused

/-- The amount is written again in its normal form. -/
def setAmount (satoshis : DataChunk) (uri : BitcoinUri) : Except Refusal BitcoinUri :=
  match decodeBase10 (toText satoshis) btcDecimalPlaces uri.strict with
  | none => .error .refused
  | some decoded =>
    .ok (uri.setQuery (bytes "amount") ((encodeBase10 decoded btcDecimalPlaces).map Uri.byte))

/-- Only `bitcoin` is taken. -/
def setScheme (uri : BitcoinUri) : Except Refusal BitcoinUri :=
  if scheme = bytes "bitcoin" then .ok { uri with scheme } else .error .refused

/-- The path must not have been set by the authority. -/
def setPath (path : DataChunk) (uri : BitcoinUri) : Except Refusal BitcoinUri :=
  if uri.address.isEmpty then setAddress network path uri
  else .error .refused

/-- The authority stands in for the path if the parser is not strict. -/
def setAuthority (authority : DataChunk) (uri : BitcoinUri) : Except Refusal BitcoinUri :=
  if !uri.strict then setPath network authority uri else .error .refused

/-- There are no fragments. -/
def setFragment (_fragment : DataChunk) (_uri : BitcoinUri) : Except Refusal BitcoinUri :=
  .error .refused

/-- The key must be known. -/
def required : Bool := key.take 4 == bytes "req-"

/-- An unknown key may be refused. -/
def setParameter (uri : BitcoinUri) : Except Refusal BitcoinUri :=
  if key = bytes "amount" then setAmount value uri
  else
    let out :=
      if key = bytes "label" ∨ key = bytes "message" ∨ key = bytes "r" then uri.setQuery key value
      else uri
    if !required key then .ok out else .error .refused

/-- Empty keys are passed over. -/
def setTerm (uri : BitcoinUri) (term : DataChunk × DataChunk) : Except Refusal BitcoinUri :=
  if !term.1.isEmpty then setParameter term.1 term.2 uri else .ok uri

/-- The terms in order. -/
def setTerms : List (DataChunk × DataChunk) → BitcoinUri → Except Refusal BitcoinUri
  | [], uri => .ok uri
  | term :: terms, uri => do setTerms terms (← uri.setTerm term)

/-- The authority and the path. -/
def readAddress (out : BitcoinUri) (parsed : Uri) : Except Refusal BitcoinUri := do
  let out ←
    if parsed.hasAuthority then
      out.setAuthority network parsed.authority
    else .ok out
  if !parsed.path.isEmpty then out.setPath network parsed.path else .ok out

/-- The parts of a URI in a new object. -/
def readParts (parsed : Uri) (strict : Bool) : Except Refusal BitcoinUri := do
  let out : BitcoinUri := { strict }
  -- the object is used whatever the setter returns
  let out := (out.setScheme parsed.scheme).toOption.getD out
  let out ← out.readAddress network parsed
  let out ← if parsed.hasFragment then out.setFragment parsed.fragment else .ok out
  out.setTerms parsed.decodeQuery.entries

/-- A URI that is refused leaves an object as it is constructed (`uri_reader::parse`). -/
def parse (text : DataChunk) (strict : Bool) : Except CashaddrFault BitcoinUri :=
  match Uri.decode text strict with
  | none => .ok {}
  | some parsed =>
    match readParts network parsed strict with
    | .ok out => .ok out
    | .error .refused => .ok {}
    | .error (.fault fault) => .error fault

/-- A text is a valid payment address or a valid stealth address. -/
def IsAddress (text : DataChunk) : Prop :=
  ∃ payment, network.payment text = .ok payment ∧
    (payment.valid = true ∨ (network.stealth text).valid = true)

/-- No setter but that of the scheme refuses its part. -/
structure Accepted (parsed : Uri) (strict : Bool) : Prop where
  authority : parsed.hasAuthority = true → strict = false ∧ parsed.path = [] ∧
    IsAddress network parsed.authority
  path : parsed.path ≠ [] → IsAddress network parsed.path
  fragment : parsed.hasFragment = false
  required : ∀ term ∈ parsed.decodeQuery.entries, required term.1 = false
  amount : ∀ term ∈ parsed.decodeQuery.entries, term.1 = bytes "amount" →
    (decodeBase10 (toText term.2) btcDecimalPlaces strict).isSome = true

/-- The parameters that are kept. -/
def parameters : List DataChunk := [bytes "amount", bytes "label", bytes "message", bytes "r"]

/-- Something beside the scheme is kept. -/
def Fills (parsed : Uri) : Prop :=
  parsed.hasAuthority = true ∨ parsed.path ≠ [] ∨
    ∃ term ∈ parsed.decodeQuery.entries, term.1 ∈ parameters

variable {network}

/-- The empty text has no values to check, or fewer than a checksum has. -/
theorem fromStringCashaddr_nil (cashaddrPrefix : Text) :
    PaymentAddress.fromStringCashaddr cashaddrPrefix [] = .error .cut ∨
      PaymentAddress.fromStringCashaddr cashaddrPrefix [] = .ok {} := by
  have hparse : Cashaddr.parse [] cashaddrPrefix = some (cashaddrPrefix, []) := rfl
  rw [PaymentAddress.fromStringCashaddr, Cashaddr.decode, hparse]
  by_cases hsum : Cashaddr.verifyChecksum cashaddrPrefix [] = true
  · exact .inl (by simp [hsum])
  · exact .inr (by simp [hsum])

theorem not_isAddress_nil : ¬ IsAddress network [] := by
  rintro ⟨payment, hread, hvalid⟩
  have hstealth : (network.stealth []).valid = false := rfl
  have hpayment : payment.valid = false := by
    obtain ⟨currency, hashes, cashaddrPrefix⟩ := network
    change PaymentAddress.fromOtherString currency cashaddrPrefix [] = .ok payment at hread
    cases currency with
    | btc => cases hread; rfl
    | ltc => cases hread; rfl
    | bch =>
      obtain hcut | hnone := fromStringCashaddr_nil cashaddrPrefix
      · cases hcut.symm.trans hread
      · cases hnone.symm.trans hread
        rfl
  rw [hpayment, hstealth] at hvalid
  cases hvalid <;> contradiction

theorem bind_eq_ok_iff {ε α β : Type} {x : Except ε α} {f : α → Except ε β} {b : β} :
    x >>= f = .ok b ↔ ∃ a, x = .ok a ∧ f a = .ok b := by
  cases x with
  | error e => exact iff_of_false nofun nofun
  | ok a => exact ⟨fun h => ⟨a, rfl, h⟩, fun ⟨_, h, h'⟩ => Except.ok.inj h ▸ h'⟩

theorem setAddress_eq_ok_iff {address : DataChunk} :
    setAddress network address uri = .ok uri' ↔
      IsAddress network address ∧ uri' = { uri with address } := by
  unfold setAddress IsAddress
  cases hread : network.payment address with
  | error fault => simp
  | ok payment =>
    dsimp only
    split
    · rename_i hpayment
      rw [Except.ok.injEq]
      exact ⟨fun h => ⟨⟨payment, rfl, .inl hpayment⟩, h.symm⟩, fun h => h.2.symm⟩
    · rename_i hpayment
      split
      · rename_i hstealth
        rw [Except.ok.injEq]
        exact ⟨fun h => ⟨⟨payment, rfl, .inr hstealth⟩, h.symm⟩, fun h => h.2.symm⟩
      · rename_i hstealth
        simp [hpayment, hstealth]

theorem setPath_eq_ok_iff {path : DataChunk} :
    setPath network path uri = .ok uri' ↔
      uri.address = [] ∧ IsAddress network path ∧ uri' = { uri with address := path } := by
  unfold setPath
  split
  · rename_i hempty
    rw [setAddress_eq_ok_iff, List.isEmpty_iff.mp hempty]
    exact (and_iff_right rfl).symm
  · rename_i hempty
    rw [List.isEmpty_iff] at hempty
    simp [hempty]

theorem setAuthority_eq_ok_iff {authority : DataChunk} :
    setAuthority network authority uri = .ok uri' ↔
      uri.strict = false ∧ uri.address = [] ∧ IsAddress network authority ∧
        uri' = { uri with address := authority } := by
  unfold setAuthority
  split
  · rename_i hstrict
    rw [setPath_eq_ok_iff, (Bool.not_eq_true' uri.strict).mp hstrict]
    exact (and_iff_right rfl).symm
  · rename_i hstrict
    exact iff_of_false nofun fun h => hstrict (by rw [h.1]; rfl)

/-- A parameter is refused if it is required or an amount that can not be read. -/
def AcceptsParameter (strict : Bool) (term : DataChunk × DataChunk) : Prop :=
  required term.1 = false ∧ (term.1 = bytes "amount" →
    (decodeBase10 (toText term.2) btcDecimalPlaces strict).isSome = true)

/-- The value that is kept of a parameter. -/
def keptValue (strict : Bool) (term : DataChunk × DataChunk) : DataChunk :=
  if term.1 = bytes "amount" then
    let amount := (decodeBase10 (toText term.2) btcDecimalPlaces strict).getD 0
    (encodeBase10 amount btcDecimalPlaces).map Uri.byte
  else term.2

/-- The object with a parameter that is accepted. -/
def keep (uri : BitcoinUri) (term : DataChunk × DataChunk) : BitcoinUri :=
  if term.1 ∈ parameters then uri.setQuery term.1 (keptValue uri.strict term) else uri

theorem setAmount_eq_ok_iff {satoshis : DataChunk} :
    setAmount satoshis uri = .ok uri' ↔
      (decodeBase10 (toText satoshis) btcDecimalPlaces uri.strict).isSome ∧
        uri' = uri.keep (bytes "amount", satoshis) := by
  have hkept : (bytes "amount", satoshis).1 ∈ parameters := List.mem_cons_self
  rw [keep, if_pos hkept, keptValue, if_pos rfl]
  unfold setAmount
  split
  · rename_i hnone
    simp [hnone]
  · rename_i decoded hsome
    rw [hsome, Except.ok.injEq]
    exact ⟨fun h => ⟨rfl, h.symm⟩, fun h => h.2.symm⟩

theorem setParameter_eq_ok_iff :
    setParameter term.1 term.2 uri = .ok uri' ↔
      AcceptsParameter uri.strict term ∧ uri' = uri.keep term := by
  obtain ⟨key, value⟩ := term
  unfold setParameter AcceptsParameter
  dsimp only
  split
  · rename_i hamount
    rw [hamount, setAmount_eq_ok_iff]
    have hrequired : required (bytes "amount") = false := by decide
    simp [hrequired]
  · rename_i hamount
    have hkeep : uri.keep (key, value) =
        if key = bytes "label" ∨ key = bytes "message" ∨ key = bytes "r" then uri.setQuery key value
        else uri := by
      simp [keep, keptValue, parameters, hamount]
    rw [hkeep]
    split
    · rename_i hoptional
      rw [Except.ok.injEq]
      have haccepts := (Bool.not_eq_true' _).mp hoptional
      exact ⟨fun h => ⟨⟨haccepts, fun h' => absurd h' hamount⟩, h.symm⟩, fun h => h.2.symm⟩
    · rename_i hrequired
      exact iff_of_false nofun fun h => hrequired (by rw [h.1.1]; rfl)

theorem keep_of_nil (h : term.1 = []) (uri : BitcoinUri) : uri.keep term = uri := by
  rw [keep, h]
  exact if_neg (by decide)

/-- A parameter changes the query only. -/
theorem keep_spec (uri : BitcoinUri) (term : DataChunk × DataChunk) :
    (uri.keep term).strict = uri.strict ∧ (uri.keep term).scheme = uri.scheme ∧
      (uri.keep term).address = uri.address ∧
      ((uri.keep term).query.entries ≠ [] ↔ uri.query.entries ≠ [] ∨ term.1 ∈ parameters) := by
  unfold keep
  split
  · rename_i hkept
    refine ⟨rfl, rfl, rfl, iff_of_true ?_ (.inr hkept)⟩
    exact uri.query.entries_set_ne_nil _ _
  · rename_i hkept
    simp [hkept]

/-- The same for all parameters. -/
theorem foldl_keep_spec (terms : List (DataChunk × DataChunk)) (uri : BitcoinUri) :
    (terms.foldl keep uri).strict = uri.strict ∧ (terms.foldl keep uri).scheme = uri.scheme ∧
      (terms.foldl keep uri).address = uri.address ∧
      ((terms.foldl keep uri).query.entries ≠ [] ↔
        uri.query.entries ≠ [] ∨ ∃ term ∈ terms, term.1 ∈ parameters) := by
  induction terms generalizing uri with
  | nil => simp
  | cons term terms ih =>
    obtain ⟨hstrict, hscheme, haddress, hquery⟩ := keep_spec uri term
    obtain ⟨hstrict', hscheme', haddress', hquery'⟩ := ih (uri.keep term)
    refine ⟨hstrict'.trans hstrict, hscheme'.trans hscheme, haddress'.trans haddress, ?_⟩
    rw [List.foldl_cons, hquery', hquery, List.exists_mem_cons_iff, or_assoc]

theorem acceptsParameter_of_nil (h : term.1 = []) : AcceptsParameter strict term := by
  rw [AcceptsParameter, h]
  exact ⟨rfl, nofun⟩

theorem setTerm_eq_ok_iff :
    uri.setTerm term = .ok uri' ↔ AcceptsParameter uri.strict term ∧ uri' = uri.keep term := by
  unfold setTerm
  by_cases hempty : term.1 = []
  · rw [if_neg (by simp [hempty]), keep_of_nil hempty, Except.ok.injEq]
    exact ⟨fun h => ⟨acceptsParameter_of_nil hempty, h.symm⟩, fun h => h.2.symm⟩
  · rw [if_pos (by simp [hempty])]
    exact setParameter_eq_ok_iff

theorem setTerms_eq_ok_iff {terms : List (DataChunk × DataChunk)} :
    setTerms terms uri = .ok uri' ↔
      (∀ term ∈ terms, AcceptsParameter uri.strict term) ∧ uri' = terms.foldl keep uri := by
  induction terms generalizing uri with
  | nil => simp [setTerms, eq_comm]
  | cons term terms ih =>
    have hstrict := (keep_spec uri term).1
    rw [setTerms, bind_eq_ok_iff, List.forall_mem_cons, List.foldl_cons]
    constructor
    · rintro ⟨between, hterm, hterms⟩
      obtain ⟨haccepts, rfl⟩ := setTerm_eq_ok_iff.mp hterm
      obtain ⟨haccepts', rfl⟩ := ih.mp hterms
      rw [hstrict] at haccepts'
      exact ⟨⟨haccepts, haccepts'⟩, rfl⟩
    · rintro ⟨⟨haccepts, haccepts'⟩, rfl⟩
      rw [← hstrict] at haccepts'
      exact ⟨uri.keep term, setTerm_eq_ok_iff.mpr ⟨haccepts, rfl⟩, ih.mpr ⟨haccepts', rfl⟩⟩

/-- The address that is read, from the path or from the authority in its place. -/
theorem readAddress_eq_ok_iff (h : uri.address = []) :
    uri.readAddress network parsed = .ok uri' ↔
      (parsed.hasAuthority → uri.strict = false ∧ parsed.path = [] ∧
        IsAddress network parsed.authority) ∧
      (parsed.path ≠ [] → IsAddress network parsed.path) ∧
      uri' = { uri with address := if parsed.hasAuthority then parsed.authority else parsed.path } := by
  unfold readAddress
  by_cases hauth : parsed.hasAuthority = true
  · simp only [if_pos hauth, bind_eq_ok_iff, setAuthority_eq_ok_iff, h, true_and]
    constructor
    · rintro ⟨between, ⟨hstrict, haddress, rfl⟩, hpath⟩
      -- the path would be a second address
      have hempty : parsed.path = [] := by
        by_contra hne
        rw [if_pos (by simp [hne]), setPath_eq_ok_iff] at hpath
        have hnil : parsed.authority = [] := hpath.1
        rw [hnil] at haddress
        exact not_isAddress_nil haddress
      rw [if_neg (by simp [hempty]), Except.ok.injEq] at hpath
      exact ⟨fun _ => ⟨hstrict, hempty, haddress⟩, absurd hempty, hpath.symm⟩
    · rintro ⟨hset, -, rfl⟩
      obtain ⟨hstrict, hempty, haddress⟩ := hset hauth
      exact ⟨_, ⟨hstrict, haddress, rfl⟩, if_neg (by simp [hempty])⟩
  · simp only [if_neg hauth]
    change (if !parsed.path.isEmpty then setPath network parsed.path uri
      else .ok uri) = .ok uri' ↔ _
    by_cases hempty : parsed.path = []
    · rw [if_neg (by simp [hempty]), hempty, Except.ok.injEq, ← h]
      exact ⟨fun heq => ⟨fun hset => absurd hset hauth, absurd rfl, heq.symm⟩,
        fun hall => hall.2.2.symm⟩
    · rw [if_pos (by simp [hempty]), setPath_eq_ok_iff]
      exact ⟨fun hall => ⟨fun hset => absurd hset hauth, fun _ => hall.2.1, hall.2.2⟩,
        fun hall => ⟨h, hall.2.1 hempty, hall.2.2⟩⟩

/-- The object after the scheme, which is set or not. -/
theorem setScheme_getD (strict : Bool) :
    (({ strict } : BitcoinUri).setScheme scheme).toOption.getD { strict } =
      { strict, scheme := if scheme = bytes "bitcoin" then scheme else [] } := by
  unfold setScheme
  split <;> rfl

theorem readParts_eq_ok_iff :
    readParts network parsed strict = .ok uri ↔
      Accepted network parsed strict ∧
        uri = parsed.decodeQuery.entries.foldl keep
          { strict
            scheme := if parsed.scheme = bytes "bitcoin" then parsed.scheme else []
            address := if parsed.hasAuthority then parsed.authority else parsed.path } := by
  constructor
  · intro hread
    rw [readParts, setScheme_getD] at hread
    obtain ⟨out, haddress, hread⟩ := bind_eq_ok_iff.mp hread
    obtain ⟨hauth, hpath, rfl⟩ := (readAddress_eq_ok_iff rfl).mp haddress
    by_cases hfragment : parsed.hasFragment = true
    · rw [if_pos hfragment] at hread
      cases hread
    · rw [if_neg hfragment] at hread
      obtain ⟨hterms, rfl⟩ := setTerms_eq_ok_iff.mp hread
      refine ⟨⟨hauth, hpath, Bool.eq_false_of_not_eq_true hfragment, ?_, ?_⟩, rfl⟩
      · exact fun term hterm => (hterms term hterm).1
      · exact fun term hterm => (hterms term hterm).2
  · rintro ⟨h, rfl⟩
    rw [readParts, setScheme_getD, (readAddress_eq_ok_iff rfl).mpr ⟨h.authority, h.path, rfl⟩,
      h.fragment]
    exact setTerms_eq_ok_iff.mpr
      ⟨fun term hterm => ⟨h.required term hterm, h.amount term hterm⟩, rfl⟩

/-- The object of a URI whose other parts are accepted is valid if it keeps any of them, whatever
the scheme is. -/
theorem isValid_readParts (h : readParts network parsed strict = .ok uri) :
    uri.isValid ↔ parsed.scheme = bytes "bitcoin" ∨ Fills parsed := by
  obtain ⟨hacc, rfl⟩ := readParts_eq_ok_iff.mp h
  obtain ⟨-, hscheme, haddress, hquery⟩ := foldl_keep_spec parsed.decodeQuery.entries
    { strict
      scheme := if parsed.scheme = bytes "bitcoin" then parsed.scheme else []
      address := if parsed.hasAuthority then parsed.authority else parsed.path }
  have hscheme' : (if parsed.scheme = bytes "bitcoin" then parsed.scheme else []) ≠ [] ↔
      parsed.scheme = bytes "bitcoin" := by
    split
    · rename_i heq
      rw [heq]
      exact iff_of_true (by decide) rfl
    · rename_i hne
      exact iff_of_false (not_not.mpr rfl) hne
  have haddress' : (if parsed.hasAuthority then parsed.authority else parsed.path) ≠ [] ↔
      parsed.hasAuthority = true ∨ parsed.path ≠ [] := by
    split
    · rename_i hauth
      refine iff_of_true (fun hnil => ?_) (.inl hauth)
      exact not_isAddress_nil (hnil ▸ (hacc.authority hauth).2.2)
    · rename_i hauth
      exact (or_iff_right hauth).symm
  have hempty : ¬ ((SortedMap.empty : QueryMap).entries ≠ []) := not_not.mpr rfl
  rw [isValid, Bool.or_eq_true, Bool.or_eq_true, Bool.not_eq_true', Bool.not_eq_true',
    Bool.not_eq_true', List.isEmpty_eq_false_iff, List.isEmpty_eq_false_iff,
    List.isEmpty_eq_false_iff, hscheme, haddress, hquery, hscheme', haddress', or_iff_right hempty]
  rw [Fills, or_comm, or_assoc]

/-- The address of an object is that of a part that was accepted. -/
theorem isAddress_of_readParts (h : readParts network parsed strict = .ok uri)
    (hne : uri.address ≠ []) : IsAddress network uri.address := by
  obtain ⟨hacc, rfl⟩ := readParts_eq_ok_iff.mp h
  rw [(foldl_keep_spec _ _).2.2.1] at hne ⊢
  dsimp only at hne ⊢
  split
  · rename_i hauth
    exact (hacc.authority hauth).2.2
  · rename_i hauth
    rw [if_neg hauth] at hne
    exact hacc.path hne

theorem parse_valid_iff {text : DataChunk} (hvalid : uri.isValid) :
    parse network text strict = .ok uri ↔
      ∃ parsed, Uri.decode text strict = some parsed ∧
        readParts network parsed strict = .ok uri := by
  have hnew : (.ok {} : Except CashaddrFault BitcoinUri) ≠ .ok uri := by
    intro hnew
    rw [← Except.ok.inj hnew] at hvalid
    cases hvalid
  unfold parse
  cases hdec : Uri.decode text strict with
  | none => exact iff_of_false hnew nofun
  | some parsed =>
    simp only [Option.some.injEq, exists_eq_left']
    split
    · rename_i hread
      rw [hread, Except.ok.injEq, Except.ok.injEq]
    · rename_i hread
      rw [hread]
      exact iff_of_false hnew nofun
    · rename_i hread
      rw [hread]
      exact iff_of_false nofun nofun

/-- A valid object has a URI of another scheme than `bitcoin`, which the setter of the scheme has
refused, exactly if the other parts are accepted and one of them is kept. -/
theorem only_bitcoin_uris_iff (network : Network)
    (text : DataChunk) (strict : Bool) :
    (∀ uri, parse network text strict = .ok uri → uri.isValid = true →
      ∃ parsed, Uri.decode text strict = some parsed ∧ parsed.scheme = bytes "bitcoin" ∧
        Accepted network parsed strict ∧
        (uri.address ≠ [] → IsAddress network uri.address)) ↔
    ∀ parsed, Uri.decode text strict = some parsed → parsed.scheme = bytes "bitcoin" ∨
      ¬ Accepted network parsed strict ∨ ¬ Fills parsed := by
  constructor
  · intro h parsed hdecode
    by_contra hnot
    simp only [not_or, not_not] at hnot
    obtain ⟨hscheme, haccepted, hfills⟩ := hnot
    have hread := readParts_eq_ok_iff.mpr ⟨haccepted, rfl⟩
    have hvalid := (isValid_readParts hread).mpr (.inr hfills)
    obtain ⟨parsed', hdecode', hscheme', -⟩ :=
      h _ ((parse_valid_iff hvalid).mpr ⟨parsed, hdecode, hread⟩) hvalid
    rw [hdecode] at hdecode'
    exact hscheme (Option.some.inj hdecode' ▸ hscheme')
  · intro h uri hparse hvalid
    obtain ⟨parsed, hdecode, hread⟩ := (parse_valid_iff hvalid).mp hparse
    have haccepted := (readParts_eq_ok_iff.mp hread).1
    refine ⟨parsed, hdecode, ?_, haccepted, isAddress_of_readParts hread⟩
    obtain hscheme | hfills := (isValid_readParts hread).mp hvalid
    · exact hscheme
    · exact (h parsed hdecode).resolve_right fun hnot => hnot.elim (absurd haccepted) (absurd hfills)

/-- The parts of `http:?label=x`. -/
def httpLabel : Uri :=
  { schemePart := bytes "http", queryPart := bytes "label=x", hasQuery := true }

theorem entries_httpLabel : httpLabel.decodeQuery.entries = [(bytes "label", bytes "x")] := by
  have hquery : httpLabel.queryPart = Uri.encodeTerms [(bytes "label", bytes "x")] := by decide
  rw [Uri.decodeQuery, hquery, Uri.decodeTerms_encodeTerms (by decide)]
  decide

/-- A URI of another scheme is taken for a bitcoin URI if it has a label. -/
theorem http_uri_accepted :
    Uri.decode (bytes "http:?label=x") true = some httpLabel ∧
      ({} : BitcoinUri).setScheme httpLabel.scheme = .error .refused ∧
      ∃ uri, parse ⟨.btc, .ofSha256, []⟩ (bytes "http:?label=x") true = .ok uri ∧
        uri.isValid = true := by
  have hdecode : Uri.decode (bytes "http:?label=x") true = some httpLabel := by decide +kernel
  have haccepted : Accepted ⟨.btc, .ofSha256, []⟩ httpLabel true := by
    refine ⟨nofun, absurd rfl, rfl, ?_, ?_⟩
    · rw [entries_httpLabel, List.forall_mem_singleton]
      decide
    · rw [entries_httpLabel, List.forall_mem_singleton]
      decide
  have hfills : Fills httpLabel := by
    refine .inr (.inr ⟨(bytes "label", bytes "x"), ?_, by decide⟩)
    rw [entries_httpLabel]
    exact List.mem_singleton_self _
  have hread := readParts_eq_ok_iff.mpr ⟨haccepted, rfl⟩
  have hvalid := (isValid_readParts hread).mpr (.inr hfills)
  exact ⟨hdecode, rfl, _, (parse_valid_iff hvalid).mpr ⟨httpLabel, hdecode, hread⟩, hvalid⟩

end BitcoinUri

end BitprimCore
