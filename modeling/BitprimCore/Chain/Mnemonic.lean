import BitprimCore.Chain.Script
import BitprimCore.Formats.Base16

/-!
# Script text

Scripts as text: one token for each operation (`operation::from_string`, `script::from_string`).
A token is data in brackets, text in quotes, the name of an opcode, or a number.
-/

namespace BitprimCore

open List Text

namespace Opcode

/-- The names that stand for one opcode each. -/
def singleNames : List (Text × Opcode) :=
  List.map (Prod.map String.toList id)
    [("zero", .pushSize 0), ("push_one", .pushOneSize), ("pushdata1", .pushOneSize),
      ("push_two", .pushTwoSize), ("pushdata2", .pushTwoSize), ("push_four", .pushFourSize),
      ("pushdata4", .pushFourSize), ("-1", .pushNegative1), ("reserved_80", .reserved80),
      ("reserved", .reserved80), ("0", .pushSize 0), ("nop", .nop), ("reserved_98", .reserved98),
      ("ver", .reserved98), ("if", .if_), ("notif", .notif), ("disabled_verif", .disabledVerif),
      ("verif", .disabledVerif), ("disabled_vernotif", .disabledVernotif),
      ("vernotif", .disabledVernotif), ("else", .else_), ("endif", .endif), ("verify", .verify),
      ("return", .return_), ("toaltstack", .toaltstack), ("fromaltstack", .fromaltstack),
      ("drop2", .drop2), ("2drop", .drop2), ("dup2", .dup2), ("2dup", .dup2), ("dup3", .dup3),
      ("3dup", .dup3), ("over2", .over2), ("2over", .over2), ("rot2", .rot2), ("2rot", .rot2),
      ("swap2", .swap2), ("2swap", .swap2), ("ifdup", .ifdup), ("depth", .depth), ("drop", .drop),
      ("dup", .dup), ("nip", .nip), ("over", .over_), ("pick", .pick), ("roll", .roll),
      ("rot", .rot), ("swap", .swap), ("tuck", .tuck), ("cat", .disabledCat),
      ("substr", .disabledSubstr), ("left", .disabledLeft), ("right", .disabledRight),
      ("size", .size), ("invert", .disabledInvert), ("and", .disabledAnd), ("or", .disabledOr),
      ("xor", .disabledXor), ("equal", .equal), ("equalverify", .equalverify),
      ("reserved_137", .reserved137), ("reserved1", .reserved137), ("reserved_138", .reserved138),
      ("reserved2", .reserved138), ("add1", .add1), ("1add", .add1), ("sub1", .sub1),
      ("1sub", .sub1), ("mul2", .disabledMul2), ("2mul", .disabledMul2), ("div2", .disabledDiv2),
      ("2div", .disabledDiv2), ("negate", .negate), ("abs", .abs), ("not", .not_),
      ("nonzero", .nonzero), ("0notequal", .nonzero), ("add", .add), ("sub", .sub),
      ("mul", .disabledMul), ("div", .disabledDiv), ("mod", .disabledMod),
      ("lshift", .disabledLshift), ("rshift", .disabledRshift), ("booland", .booland),
      ("boolor", .boolor), ("numequal", .numequal), ("numequalverify", .numequalverify),
      ("numnotequal", .numnotequal), ("lessthan", .lessthan), ("greaterthan", .greaterthan),
      ("lessthanorequal", .lessthanorequal), ("greaterthanorequal", .greaterthanorequal),
      ("min", .min), ("max", .max), ("within", .within), ("ripemd160", .ripemd160), ("sha1", .sha1),
      ("sha256", .sha256), ("hash160", .hash160), ("hash256", .hash256),
      ("codeseparator", .codeseparator), ("checksig", .checksig),
      ("checksigverify", .checksigverify), ("checkmultisig", .checkmultisig),
      ("checkmultisigverify", .checkmultisigverify), ("nop1", .nop1),
      ("checklocktimeverify", .checklocktimeverify), ("nop2", .checklocktimeverify),
      ("checksequenceverify", .checksequenceverify), ("nop3", .checksequenceverify),
      ("nop4", .nop4), ("nop5", .nop5), ("nop6", .nop6), ("nop7", .nop7), ("nop8", .nop8),
      ("nop9", .nop9), ("nop10", .nop10)]

/-- A name that ends in a number. -/
def numbered (stem : Text) (n : Nat) : Text := stem ++ Nat.toDigits 10 n

/-- All names of opcodes in lower case; the runs `push_0..75`, `1..16` and `reserved_186..255` end
in the number of the opcode. -/
def names : List (Text × Opcode) :=
  (List.finRange 76).map (fun count => (numbered "push_".toList count.val, .pushSize count)) ++
    (List.finRange 16).map (fun offset => (numbered [] (offset.val + 1), .pushPositive offset)) ++
    (List.finRange 70).map (fun offset =>
      (numbered "reserved_".toList (186 + offset.val), .reserved offset)) ++ singleNames

/-- Any hexadecimal byte parses; the `0x` in front is in lower case. -/
def fromHexadecimal : Text → Option Opcode
  | ['0', 'x', high, low] => do
    let data ← decodeBase16 [high, low]
    return Opcode.ofByte (data.headD 0)
  | _ => none

/-- Reads a name or a byte. -/
def fromString (value : Text) : Option Opcode :=
  match names.lookup (value.map Char.toLower) with
  | some code => some code
  | none => fromHexadecimal value

end Opcode

namespace Operation

variable (data : DataChunk) (token : Text)

/-- A token in brackets. -/
def isPushToken : Bool :=
  decide (token.length > 1) && token.head? == some '[' && token.getLast? == some ']'

/-- A token in quotes. -/
def isTextToken : Bool :=
  decide (token.length > 1) && token.head? == some '\'' && token.getLast? == some '\''

/-- A short push has its own size. -/
def isValidDataSize (code : Opcode) (size : Nat) : Bool :=
  decide (code.toByte.toNat > 75) || code.toByte.toNat == size

/-- Drops both ends. -/
def trimToken : Text := token.tail.dropLast

/-- The parts of a push token. -/
def splitPushToken : List Text := split (trimToken token) ['.'] false

/-- The opcode that an explicit size width asks for, if the data fits. -/
def opcodeFromDataPrefix (width : Text) (data : DataChunk) : Option Opcode :=
  if width = ['0'] then
    if data.length ≤ 75 then some (opcodeFromSize data.length) else none
  else if width = ['1'] then if data.length ≤ maxUint8 then some .pushOneSize else none
  else if width = ['2'] then if data.length ≤ maxUint16 then some .pushTwoSize else none
  else if width = ['4'] then if data.length ≤ maxUint32 then some .pushFourSize else none
  else none

def dataFromNumberToken : Option DataChunk := (lexicalCastInt64 token).map Number.data

/-- The operation of a token; `none` is the operation reset. -/
def fromString (mnemonic : Text) : Option Operation :=
  if isPushToken mnemonic then
    match splitPushToken mnemonic with
    | [encoded] => do
      let data ← decodeBase16 encoded
      return { code := nominalOpcodeFromData data, data }
    | [width, encoded] => do
      let data ← decodeBase16 encoded
      let code ← opcodeFromDataPrefix width data
      return { code, data }
    | _ => none
  else if isTextToken mnemonic then
    let data := (trimToken mnemonic).map fun c => UInt8.ofNat c.toNat
    some { code := nominalOpcodeFromData data, data }
  else match Opcode.fromString mnemonic with
    | some code => if isValidDataSize code 0 then some { code } else none
    | none => do
      let data ← dataFromNumberToken mnemonic
      return { code := nominalOpcodeFromData data, data }

/-- The token of data in hexadecimal digits. -/
def pushToken (data : DataChunk) : Text := '[' :: (encodeBase16 data ++ [']'])

theorem hexDigit_ne_dot : ∀ n : Fin 16, hexDigit n ≠ '.' := by decide

theorem splitPushToken_pushToken : splitPushToken (pushToken data) = [encodeBase16 data] := by
  have htrim : trimToken (pushToken data) = encodeBase16 data := by
    simp [trimToken, pushToken]
  rw [splitPushToken, split, htrim]
  apply splitTokens_of_none
  intro c hc
  obtain ⟨n, rfl⟩ := exists_hexDigit_of_mem hc
  simp [hexDigit_ne_dot n]

/-- A token of data pushes the data, nominally encoded. -/
theorem fromString_pushToken :
    fromString (pushToken data) = some { code := nominalOpcodeFromData data, data } := by
  have hlast : (pushToken data).getLast? = some ']' := by
    rw [pushToken, ← cons_append, getLast?_concat]
  have hpush : isPushToken (pushToken data) := by
    rw [isPushToken, hlast]
    simp [pushToken]
  simp [fromString, hpush, splitPushToken_pushToken, decodeBase16_encodeBase16]

theorem isWord_pushToken : Text.IsWord isSpace (pushToken data) := by
  apply isWord_of_visible (cons_ne_nil _ _)
  intro c hc
  simp only [mem_cons, mem_append, not_mem_nil, or_false] at hc
  obtain rfl | hc | rfl := hc
  · decide
  · exact visible_of_mem_encodeBase16 hc
  · decide

end Operation

namespace Script

/-- There is strictly one operation for each token. -/
def fromString (mnemonic : Text) : Option Script :=
  let tokens := split mnemonic [' '] true
  let tokens := if (tokens.headD []).isEmpty then [] else tokens
  (tokens.mapM Operation.fromString).map ofOperations

/-- The script of a configuration setting; `none` is the exception of an invalid one
(`config::script`). -/
def ofSetting (mnemonic : Text) : Option Script :=
  let mnemonic := trim mnemonic
  match fromString mnemonic with
  | some script => some script
  | none => if mnemonic.length > 0 then none else some {}

open Operation

/-- Two tokens of data push first the one, then the other. -/
theorem ofSetting_pushTokens (first second : DataChunk) :
    ofSetting (pushToken first ++ ' ' :: pushToken second) = some (ofOperations
      [{ code := nominalOpcodeFromData first, data := first },
        { code := nominalOpcodeFromData second, data := second }]) := by
  have hwords : pushToken first ++ ' ' :: pushToken second =
      pushToken first ++ [pushToken second].flatMap fun other => ' ' :: other := by
    simp
  have hsecond := forall_mem_singleton.mpr (isWord_pushToken second)
  have htrim := trim_words (isWord_pushToken first) hsecond
  have hsplit := split_words (isWord_pushToken first) hsecond
  have hne : (pushToken first).isEmpty = false := rfl
  rw [← hwords] at htrim hsplit
  simp [ofSetting, htrim, fromString, hsplit, hne, fromString_pushToken]

end Script

end BitprimCore
