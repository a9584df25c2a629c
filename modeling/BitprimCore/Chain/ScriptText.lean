import BitprimCore.Chain.FindAndDelete
import BitprimCore.Chain.Mnemonic

/-!
# Scripts to text and back

The text of a script has one word for each operation: the name of an opcode, which can depend on the
active forks, or data in brackets with the width of its size where that is not implied. Every script
that parses is read back from its text.
-/

namespace BitprimCore

open List

variable {code : Opcode} {op : Operation}

namespace Opcode

/-- An opcode without a name. -/
def toHexadecimal (code : Opcode) : Text := '0' :: 'x' :: encodeBase16 [code.toByte]

variable (activeForks : UInt32)

/-- The name of an opcode; traditional aliases are preferred (`opcode_to_string`). -/
def toString (code : Opcode) : Text :=
  match code with
  | pushSize count =>
    if count = 0 then "zero" else "push_" ++ Nat.toDigits 10 count
  | pushOneSize => "pushdata1"
  | pushTwoSize => "pushdata2"
  | pushFourSize => "pushdata4"
  | pushNegative1 => "-1"
  | reserved80 => "reserved"
  | pushPositive offset => Nat.toDigits 10 (offset + 1)
  | nop => "nop"
  | reserved98 => "ver"
  | if_ => "if"
  | notif => "notif"
  | disabledVerif => "verif"
  | disabledVernotif => "vernotif"
  | else_ => "else"
  | endif => "endif"
  | verify => "verify"
  | return_ => "return"
  | toaltstack => "toaltstack"
  | fromaltstack => "fromaltstack"
  | drop2 => "2drop"
  | dup2 => "2dup"
  | dup3 => "3dup"
  | over2 => "2over"
  | rot2 => "2rot"
  | swap2 => "2swap"
  | ifdup => "ifdup"
  | depth => "depth"
  | drop => "drop"
  | dup => "dup"
  | nip => "nip"
  | over_ => "over"
  | pick => "pick"
  | roll => "roll"
  | rot => "rot"
  | swap => "swap"
  | tuck => "tuck"
  | disabledCat => "cat"
  | disabledSubstr => "substr"
  | disabledLeft => "left"
  | disabledRight => "right"
  | size => "size"
  | disabledInvert => "invert"
  | disabledAnd => "and"
  | disabledOr => "or"
  | disabledXor => "xor"
  | equal => "equal"
  | equalverify => "equalverify"
  | reserved137 => "reserved_137"
  | reserved138 => "reserved_138"
  | add1 => "1add"
  | sub1 => "1sub"
  | disabledMul2 => "2mul"
  | disabledDiv2 => "2div"
  | negate => "negate"
  | abs => "abs"
  | not_ => "not"
  | nonzero => "nonzero"
  | add => "add"
  | sub => "sub"
  | disabledMul => "mul"
  | disabledDiv => "div"
  | disabledMod => "mod"
  | disabledLshift => "lshift"
  | disabledRshift => "rshift"
  | booland => "booland"
  | boolor => "boolor"
  | numequal => "numequal"
  | numequalverify => "numequalverify"
  | numnotequal => "numnotequal"
  | lessthan => "lessthan"
  | greaterthan => "greaterthan"
  | lessthanorequal => "lessthanorequal"
  | greaterthanorequal => "greaterthanorequal"
  | min => "min"
  | max => "max"
  | within => "within"
  | ripemd160 => "ripemd160"
  | sha1 => "sha1"
  | sha256 => "sha256"
  | hash160 => "hash160"
  | hash256 => "hash256"
  | codeseparator => "codeseparator"
  | checksig => "checksig"
  | checksigverify => "checksigverify"
  | checkmultisig => "checkmultisig"
  | checkmultisigverify => "checkmultisigverify"
  | nop1 => "nop1"
  | checklocktimeverify =>
    if isEnabled activeForks RuleFork.bip65Rule then "checklocktimeverify"
    else "nop2"
  | checksequenceverify =>
    if isEnabled activeForks RuleFork.bip112Rule then "checksequenceverify"
    else "nop3"
  | nop4 => "nop4"
  | nop5 => "nop5"
  | nop6 => "nop6"
  | nop7 => "nop7"
  | nop8 => "nop8"
  | nop9 => "nop9"
  | nop10 => "nop10"
  | reserved offset => toHexadecimal (reserved offset)

/-- The text is read as the opcode, and neither as data nor as quoted text. -/
structure Names (code : Opcode) (text : Text) : Prop where
  ne_nil : text ≠ []
  visible : ∀ c ∈ text, ' ' < c
  bracket : text.head? ≠ some '['
  quote : text.head? ≠ some '\''
  reads : fromString text = some code

instance (code : Opcode) (text : Text) : Decidable (Names code text) :=
  -- Over the characters of the text, not over all characters.
  letI : Decidable (∀ c ∈ text, ' ' < c) := List.decidableBAll _ text
  decidable_of_iff (text ≠ [] ∧ (∀ c ∈ text, ' ' < c) ∧ text.head? ≠ some '[' ∧
    text.head? ≠ some '\'' ∧ fromString text = some code)
    ⟨fun h => ⟨h.1, h.2.1, h.2.2.1, h.2.2.2.1, h.2.2.2.2⟩,
      fun h => ⟨h.ne_nil, h.visible, h.bracket, h.quote, h.reads⟩⟩

theorem names_take_two : ∀ entry ∈ names, entry.1.take 2 ≠ ['0', 'x'] := by decide +kernel

/-- No name starts as a hexadecimal byte does, so every opcode can be given as its byte. -/
theorem names_toHexadecimal (code : Opcode) : Names code (toHexadecimal code) where
  ne_nil := by simp [toHexadecimal]
  visible := by
    intro c hc
    simp only [toHexadecimal, mem_cons] at hc
    obtain rfl | rfl | hc := hc
    · decide
    · decide
    · exact visible_of_mem_encodeBase16 hc
  bracket := by simp [toHexadecimal]
  quote := by simp [toHexadecimal]
  reads := by
    have hlookup : names.lookup ((toHexadecimal code).map Char.toLower) = none := by
      rw [lookup_eq_none_iff]
      intro entry hentry
      rw [bne_iff_ne]
      intro heq
      apply names_take_two entry hentry
      rw [← heq]
      rfl
    have hread : fromHexadecimal (toHexadecimal code) = some (ofByte code.toByte) := by
      have hdec := decodeBase16_encodeBase16 [code.toByte]
      simp only [encodeBase16, flatMap_cons, flatMap_nil, append_nil] at hdec
      simp [toHexadecimal, encodeBase16, fromHexadecimal, hdec]
    rw [fromString, hlookup, hread, ofByte_toByte]

/-- The names of the table, all at once so that it is evaluated once: without any fork, and with all
of them for the two names that depend on one. -/
theorem names_table :
    (∀ n : Fin 186, Operation.isValidDataSize (ofByte (UInt8.ofNat n)) 0 →
      Names (ofByte (UInt8.ofNat n)) (toString 0 (ofByte (UInt8.ofNat n)))) ∧
      ∀ code ∈ [checklocktimeverify, checksequenceverify],
        Names code (toString 0xffffffff code) := by
  decide +kernel

theorem toString_checklocktimeverify :
    toString activeForks checklocktimeverify = toString 0 checklocktimeverify ∨
      toString activeForks checklocktimeverify = toString 0xffffffff checklocktimeverify := by
  by_cases hfork : isEnabled activeForks RuleFork.bip65Rule = true
  · exact .inr (if_pos hfork)
  · exact .inl (if_neg hfork)

theorem toString_checksequenceverify :
    toString activeForks checksequenceverify = toString 0 checksequenceverify ∨
      toString activeForks checksequenceverify = toString 0xffffffff checksequenceverify := by
  by_cases hfork : isEnabled activeForks RuleFork.bip112Rule = true
  · exact .inr (if_pos hfork)
  · exact .inl (if_neg hfork)

/-- Between no fork and all of them there is no third name. -/
theorem toString_cases (code : Opcode) :
    toString activeForks code = toString 0 code ∨
      code ∈ [checklocktimeverify, checksequenceverify] ∧
        toString activeForks code = toString 0xffffffff code := by
  cases code with
  | checklocktimeverify => exact (toString_checklocktimeverify activeForks).imp_right (⟨by simp, ·⟩)
  | checksequenceverify => exact (toString_checksequenceverify activeForks).imp_right (⟨by simp, ·⟩)
  | _ => exact .inl rfl

theorem toByte_lt_or_reserved (code : Opcode) :
    code.toByte.toNat < 186 ∨ ∃ offset, code = reserved offset := by
  cases code with
  | reserved offset => exact .inr ⟨offset, rfl⟩
  | pushSize count => exact .inl (by revert count; decide)
  | pushPositive offset => exact .inl (by revert offset; decide)
  | _ => exact .inl (by decide)

/-- An opcode that can stand without data is read back from its name, under all forks. -/
theorem names_toString (h : Operation.isValidDataSize code 0) :
    Names code (toString activeForks code) := by
  obtain hbyte | ⟨offset, rfl⟩ := toByte_lt_or_reserved code
  · obtain heq | ⟨hmem, heq⟩ := toString_cases activeForks code
    · have hentry := names_table.1 ⟨code.toByte.toNat, hbyte⟩
      rw [UInt8.ofNat_toNat, ofByte_toByte] at hentry
      rw [heq]
      exact hentry h
    · rw [heq]
      exact names_table.2 code hmem
  · exact names_toHexadecimal _

end Opcode

namespace Operation

open Text

variable {data : DataChunk}

/-- The width of the size, unless the opcode is the one that the size of the data implies. -/
def opcodeToPrefix (code : Opcode) (data : DataChunk) : Text :=
  if code = opcodeFromSize data.length then []
  else match code with
    | .pushOneSize => ['1', '.']
    | .pushTwoSize => ['2', '.']
    | .pushFourSize => ['4', '.']
    | _ => ['0', '.']

/-- The text of an operation. -/
def toString (activeForks : UInt32) (op : Operation) : Text :=
  if !op.valid then "<invalid>".toList
  else if op.data.isEmpty then op.code.toString activeForks
  else '[' :: (opcodeToPrefix op.code op.data ++ encodeBase16 op.data ++ [']'])

/-- An opcode is read from any of its names. -/
theorem fromString_of_names {text : Text} (h : Opcode.Names code text)
    (hsize : isValidDataSize code 0) : fromString text = some { code } := by
  have hpush : isPushToken text = false := by
    simp [isPushToken, h.bracket]
  have htext : isTextToken text = false := by
    simp [isTextToken, h.quote]
  simp [fromString, hpush, htext, h.reads, hsize]

theorem encodeBase16_ne_nil (h : data ≠ []) : encodeBase16 data ≠ [] := by
  have hlen := length_encodeBase16 data
  have hpos := length_pos_of_ne_nil h
  rw [← length_pos_iff]
  omega

/-- A width in front of the data is split off. -/
theorem splitPushToken_prefixed {width : Char} (hdata : data ≠ []) (hwidth : width ≠ '.') :
    splitPushToken ('[' :: ([width, '.'] ++ encodeBase16 data ++ [']'])) =
      [[width], encodeBase16 data] := by
  have htrim : trimToken ('[' :: ([width, '.'] ++ encodeBase16 data ++ [']'])) =
      [width] ++ [encodeBase16 data].flatMap fun other => '.' :: other := by
    simp [trimToken, dropLast_cons_of_ne_nil]
  have hword : IsWord ['.'].contains [width] := ⟨by simp, by simpa using hwidth⟩
  have hdigits : IsWord ['.'].contains (encodeBase16 data) := by
    refine ⟨encodeBase16_ne_nil hdata, fun c hc => ?_⟩
    obtain ⟨n, rfl⟩ := exists_hexDigit_of_mem hc
    simpa using hexDigit_ne_dot n
  rw [splitPushToken, Text.split, htrim]
  exact splitTokens_words hword (forall_mem_singleton.mpr hdigits) (by decide)

/-- A token with a width pushes the data with the opcode of the width. -/
theorem fromString_prefixed {width : Char} (hdata : data ≠ []) (hwidth : width ≠ '.')
    (hcode : opcodeFromDataPrefix [width] data = some code) :
    fromString ('[' :: ([width, '.'] ++ encodeBase16 data ++ [']'])) = some { code, data } := by
  have hlast : ('[' :: ([width, '.'] ++ encodeBase16 data ++ [']'])).getLast? = some ']' := by
    rw [← cons_append, getLast?_concat]
  have hpush : isPushToken ('[' :: ([width, '.'] ++ encodeBase16 data ++ [']'])) := by
    rw [isPushToken, hlast]
    simp
  rw [fromString, if_pos hpush, splitPushToken_prefixed hdata hwidth]
  simp [decodeBase16_encodeBase16, hcode]

theorem isValidDataSize_of_wellFormed (h : op.WellFormed) :
    isValidDataSize op.code op.data.length := by
  obtain ⟨code, data, valid⟩ := op
  obtain ⟨-, hdata⟩ := h
  cases code with
  | pushSize count =>
    have hlen : data.length = count := hdata
    have hbyte : count.val % 256 = count := Nat.mod_eq_of_lt (by omega)
    simp [isValidDataSize, Opcode.toByte, hlen, hbyte]
  | pushPositive offset =>
    have hbyte : (81 + offset.val) % 256 = 81 + offset := Nat.mod_eq_of_lt (by omega)
    simp [isValidDataSize, Opcode.toByte, hbyte]
    omega
  | reserved offset =>
    have hbyte : (186 + offset.val) % 256 = 186 + offset := Nat.mod_eq_of_lt (by omega)
    simp [isValidDataSize, Opcode.toByte, hbyte]
    omega
  | _ => simp [isValidDataSize, Opcode.toByte]

/-- An operation with data is read back from its token. -/
theorem fromString_toString_of_data (h : op.WellFormed) (hdata : op.data ≠ [])
    (activeForks : UInt32) : fromString (op.toString activeForks) = some op := by
  obtain ⟨code, data, valid⟩ := op
  obtain ⟨hvalid, hfits⟩ := h
  obtain rfl : valid = true := hvalid
  have hempty : data.isEmpty = false := by simpa using hdata
  have htext : toString activeForks { code, data } =
      '[' :: (opcodeToPrefix code data ++ encodeBase16 data ++ [']']) := by
    simp [toString, hempty]
  rw [htext]
  by_cases hcode : code = opcodeFromSize data.length
  · have hform : opcodeToPrefix code data = [] := if_pos hcode
    rw [hform, hcode]
    exact fromString_pushToken data
  · cases code with
    | pushOneSize =>
      have hform : opcodeToPrefix .pushOneSize data = ['1', '.'] := if_neg hcode
      have hlen : data.length ≤ maxUint8 := Nat.le_of_lt_succ hfits
      rw [hform]
      exact fromString_prefixed hdata (by decide) (if_pos hlen)
    | pushTwoSize =>
      have hform : opcodeToPrefix .pushTwoSize data = ['2', '.'] := if_neg hcode
      have hlen : data.length ≤ maxUint16 := Nat.le_of_lt_succ hfits
      rw [hform]
      exact fromString_prefixed hdata (by decide) (if_pos hlen)
    | pushFourSize =>
      have hform : opcodeToPrefix .pushFourSize data = ['4', '.'] := if_neg hcode
      have hlen : data.length ≤ maxUint32 := Nat.le_of_lt_succ hfits
      rw [hform]
      exact fromString_prefixed hdata (by decide) (if_pos hlen)
    | pushSize count =>
      -- the size is the opcode, so it is implied
      have hlen : data.length = count := hfits
      refine absurd ?_ hcode
      rw [hlen, opcodeFromSize, dif_pos (by omega)]
    | _ => exact absurd hfits hdata

/-- Every operation that the reader accepts is read back from its text. -/
theorem fromString_toString (h : op.WellFormed) (activeForks : UInt32) :
    fromString (op.toString activeForks) = some op := by
  by_cases hdata : op.data = []
  · have hsize := isValidDataSize_of_wellFormed h
    obtain ⟨code, data, valid⟩ := op
    obtain rfl : valid = true := h.1
    obtain rfl : data = [] := hdata
    exact fromString_of_names (Opcode.names_toString activeForks hsize) hsize
  · exact fromString_toString_of_data h hdata activeForks

theorem visible_of_mem_opcodeToPrefix {c : Char} (h : c ∈ opcodeToPrefix code data) : ' ' < c := by
  unfold opcodeToPrefix at h
  split at h
  · cases h
  · split at h <;>
    · simp only [mem_cons, not_mem_nil, or_false] at h
      obtain rfl | rfl := h <;> decide

/-- The text of an operation has no space. -/
theorem isWord_toString (h : op.WellFormed) (activeForks : UInt32) :
    IsWord isSpace (op.toString activeForks) := by
  have hvalid : (!op.valid) = false := by rw [h.1, Bool.not_true]
  by_cases hdata : op.data = []
  · have hsize := isValidDataSize_of_wellFormed h
    rw [hdata] at hsize
    have hnames := Opcode.names_toString activeForks hsize
    have htext : op.toString activeForks = op.code.toString activeForks := by
      simp [toString, hvalid, hdata]
    rw [htext]
    exact isWord_of_visible hnames.ne_nil hnames.visible
  · have htext : op.toString activeForks =
        '[' :: (opcodeToPrefix op.code op.data ++ encodeBase16 op.data ++ [']']) := by
      simp [toString, hvalid, hdata]
    rw [htext]
    apply isWord_of_visible (cons_ne_nil _ _)
    intro c hc
    simp only [mem_cons, mem_append, not_mem_nil, or_false] at hc
    obtain rfl | (hc | hc) | rfl := hc
    · decide
    · exact visible_of_mem_opcodeToPrefix hc
    · exact visible_of_mem_encodeBase16 hc
    · decide

end Operation

namespace Script

open Operation Text

/-- One word for each operation, with a space in front of all but the first. -/
def toString (currency : Currency) (activeForks : UInt32) (script : Script) : Text :=
  ((script.operations currency).foldl (fun state op =>
    (state.1 ++ (if state.2 then [] else [' ']) ++ op.toString activeForks, false))
    ([], true)).1

variable {currency : Currency} {activeForks : UInt32}

theorem foldl_words (ops : List Operation) (text : Text) :
    (ops.foldl (fun state op =>
      (state.1 ++ (if state.2 then [] else [' ']) ++ op.toString activeForks, false))
      (text, false)).1 =
      text ++ (ops.map (Operation.toString activeForks)).flatMap fun word => ' ' :: word := by
  induction ops generalizing text with
  | nil => simp
  | cons op ops ih =>
    rw [foldl_cons, ih]
    simp

theorem mapM_fromString_toString {ops : List Operation} (h : ∀ op ∈ ops, op.WellFormed)
    (activeForks : UInt32) :
    (ops.map (Operation.toString activeForks)).mapM Operation.fromString = some ops := by
  induction ops with
  | nil => rfl
  | cons op ops ih =>
    rw [forall_mem_cons] at h
    simp [mapM_cons, fromString_toString h.1, ih h.2]

theorem toString_of_operations {script : Script} {ops : List Operation}
    (h : script.operations currency = op :: ops) :
    script.toString currency activeForks = op.toString activeForks ++
      (ops.map (Operation.toString activeForks)).flatMap fun word => ' ' :: word := by
  rw [toString, h, foldl_cons, foldl_words]
  simp

/-- A script whose operations are all valid is read back from its text, under all forks. -/
theorem script_text_round_trip (currency : Currency) (activeForks : UInt32) (script : Script)
    (h : ∀ op ∈ script.operations currency, op.valid = true) :
    fromString (script.toString currency activeForks) = some script := by
  have hvalid : script.isValidOperations currency := by
    unfold isValidOperations
    split
    · rfl
    · rename_i op hlast
      exact h op (mem_of_getLast? hlast)
  have hwellFormed := wellFormed_operations hvalid
  have hscript := ofOperations_operations hvalid
  cases hops : script.operations currency with
  | nil =>
    rw [hops] at hscript
    rw [toString, hops, ← hscript]
    rfl
  | cons op ops =>
    rw [hops] at hwellFormed hscript
    have hwords : ∀ op' ∈ op :: ops, IsWord isSpace (op'.toString activeForks) :=
      fun op' hop' => isWord_toString (hwellFormed op' hop') activeForks
    rw [forall_mem_cons] at hwords
    have hsplit := split_words hwords.1 (forall_mem_map.mpr hwords.2)
    have hne : (op.toString activeForks).isEmpty = false := by
      simpa using hwords.1.1
    have htokens := mapM_fromString_toString hwellFormed activeForks
    rw [map_cons] at htokens
    rw [toString_of_operations hops, fromString, hsplit]
    simp only [headD_cons, hne, Bool.false_eq_true, if_false, htokens, Option.map_some, hscript]

/-- A push of no data with one byte of size, an implied push, one that is not minimal, a disabled
and a reserved opcode. -/
theorem script_text_round_trip_pushes :
    fromString (toString .bch 0 ⟨[0x4c, 0x00, 0x01, 0xff, 0x4d, 0x01, 0x00, 0x07, 0x7e, 0xba]⟩) =
      some ⟨[0x4c, 0x00, 0x01, 0xff, 0x4d, 0x01, 0x00, 0x07, 0x7e, 0xba]⟩ :=
  script_text_round_trip _ _ _ (by decide)

end Script

end BitprimCore
