import Mathlib.Algebra.GroupWithZero.Nat
import Mathlib.Data.Fin.Basic

/-!
# Script opcodes

The 256 values of the `opcode` enumeration with their byte encoding, and the classes of opcodes
that the script machine tells apart (`operation::is_push` and its siblings).

## Implementation notes

The runs `push_size_0..75`, `push_positive_1..16` and `reserved_186..255` are one constructor each,
indexed by the offset into the run.
-/

namespace BitprimCore

/-- A script operation code. -/
inductive Opcode
  | pushSize (count : Fin 76)
  | pushOneSize
  | pushTwoSize
  | pushFourSize
  | pushNegative1
  | reserved80
  | pushPositive (offset : Fin 16)
  | nop
  | reserved98
  | if_
  | notif
  | disabledVerif
  | disabledVernotif
  | else_
  | endif
  | verify
  | return_
  | toaltstack
  | fromaltstack
  | drop2
  | dup2
  | dup3
  | over2
  | rot2
  | swap2
  | ifdup
  | depth
  | drop
  | dup
  | nip
  | over_
  | pick
  | roll
  | rot
  | swap
  | tuck
  | disabledCat
  | disabledSubstr
  | disabledLeft
  | disabledRight
  | size
  | disabledInvert
  | disabledAnd
  | disabledOr
  | disabledXor
  | equal
  | equalverify
  | reserved137
  | reserved138
  | add1
  | sub1
  | disabledMul2
  | disabledDiv2
  | negate
  | abs
  | not_
  | nonzero
  | add
  | sub
  | disabledMul
  | disabledDiv
  | disabledMod
  | disabledLshift
  | disabledRshift
  | booland
  | boolor
  | numequal
  | numequalverify
  | numnotequal
  | lessthan
  | greaterthan
  | lessthanorequal
  | greaterthanorequal
  | min
  | max
  | within
  | ripemd160
  | sha1
  | sha256
  | hash160
  | hash256
  | codeseparator
  | checksig
  | checksigverify
  | checkmultisig
  | checkmultisigverify
  | nop1
  | checklocktimeverify
  | checksequenceverify
  | nop4
  | nop5
  | nop6
  | nop7
  | nop8
  | nop9
  | nop10
  | reserved (offset : Fin 70)
  deriving DecidableEq, Repr

namespace Opcode

/-- Sizes of pushes are written as numerals. -/
instance : NeZero 76 := ⟨by decide⟩

instance : NeZero 16 := ⟨by decide⟩

/-- The underlying byte of the enumeration. -/
def toByte : Opcode → UInt8
  | pushSize count => UInt8.ofNat count
  | pushOneSize => 76
  | pushTwoSize => 77
  | pushFourSize => 78
  | pushNegative1 => 79
  | reserved80 => 80
  | pushPositive offset => UInt8.ofNat (81 + offset)
  | nop => 97
  | reserved98 => 98
  | if_ => 99
  | notif => 100
  | disabledVerif => 101
  | disabledVernotif => 102
  | else_ => 103
  | endif => 104
  | verify => 105
  | return_ => 106
  | toaltstack => 107
  | fromaltstack => 108
  | drop2 => 109
  | dup2 => 110
  | dup3 => 111
  | over2 => 112
  | rot2 => 113
  | swap2 => 114
  | ifdup => 115
  | depth => 116
  | drop => 117
  | dup => 118
  | nip => 119
  | over_ => 120
  | pick => 121
  | roll => 122
  | rot => 123
  | swap => 124
  | tuck => 125
  | disabledCat => 126
  | disabledSubstr => 127
  | disabledLeft => 128
  | disabledRight => 129
  | size => 130
  | disabledInvert => 131
  | disabledAnd => 132
  | disabledOr => 133
  | disabledXor => 134
  | equal => 135
  | equalverify => 136
  | reserved137 => 137
  | reserved138 => 138
  | add1 => 139
  | sub1 => 140
  | disabledMul2 => 141
  | disabledDiv2 => 142
  | negate => 143
  | abs => 144
  | not_ => 145
  | nonzero => 146
  | add => 147
  | sub => 148
  | disabledMul => 149
  | disabledDiv => 150
  | disabledMod => 151
  | disabledLshift => 152
  | disabledRshift => 153
  | booland => 154
  | boolor => 155
  | numequal => 156
  | numequalverify => 157
  | numnotequal => 158
  | lessthan => 159
  | greaterthan => 160
  | lessthanorequal => 161
  | greaterthanorequal => 162
  | min => 163
  | max => 164
  | within => 165
  | ripemd160 => 166
  | sha1 => 167
  | sha256 => 168
  | hash160 => 169
  | hash256 => 170
  | codeseparator => 171
  | checksig => 172
  | checksigverify => 173
  | checkmultisig => 174
  | checkmultisigverify => 175
  | nop1 => 176
  | checklocktimeverify => 177
  | checksequenceverify => 178
  | nop4 => 179
  | nop5 => 180
  | nop6 => 181
  | nop7 => 182
  | nop8 => 183
  | nop9 => 184
  | nop10 => 185
  | reserved offset => UInt8.ofNat (186 + offset)

/-- The opcode of a byte; every byte has one. -/
def ofByte (byte : UInt8) : Opcode :=
  if hsize : byte.toNat < 76 then pushSize ⟨byte.toNat, hsize⟩
  else if hpositive : 81 ≤ byte.toNat ∧ byte.toNat < 97 then
    pushPositive ⟨byte.toNat - 81, by omega⟩
  else if hreserved : 186 ≤ byte.toNat then
    reserved ⟨byte.toNat - 186, by have := byte.toNat_lt; omega⟩
  else match byte with
  | 76 => pushOneSize
  | 77 => pushTwoSize
  | 78 => pushFourSize
  | 79 => pushNegative1
  | 80 => reserved80
  | 97 => nop
  | 98 => reserved98
  | 99 => if_
  | 100 => notif
  | 101 => disabledVerif
  | 102 => disabledVernotif
  | 103 => else_
  | 104 => endif
  | 105 => verify
  | 106 => return_
  | 107 => toaltstack
  | 108 => fromaltstack
  | 109 => drop2
  | 110 => dup2
  | 111 => dup3
  | 112 => over2
  | 113 => rot2
  | 114 => swap2
  | 115 => ifdup
  | 116 => depth
  | 117 => drop
  | 118 => dup
  | 119 => nip
  | 120 => over_
  | 121 => pick
  | 122 => roll
  | 123 => rot
  | 124 => swap
  | 125 => tuck
  | 126 => disabledCat
  | 127 => disabledSubstr
  | 128 => disabledLeft
  | 129 => disabledRight
  | 130 => size
  | 131 => disabledInvert
  | 132 => disabledAnd
  | 133 => disabledOr
  | 134 => disabledXor
  | 135 => equal
  | 136 => equalverify
  | 137 => reserved137
  | 138 => reserved138
  | 139 => add1
  | 140 => sub1
  | 141 => disabledMul2
  | 142 => disabledDiv2
  | 143 => negate
  | 144 => abs
  | 145 => not_
  | 146 => nonzero
  | 147 => add
  | 148 => sub
  | 149 => disabledMul
  | 150 => disabledDiv
  | 151 => disabledMod
  | 152 => disabledLshift
  | 153 => disabledRshift
  | 154 => booland
  | 155 => boolor
  | 156 => numequal
  | 157 => numequalverify
  | 158 => numnotequal
  | 159 => lessthan
  | 160 => greaterthan
  | 161 => lessthanorequal
  | 162 => greaterthanorequal
  | 163 => min
  | 164 => max
  | 165 => within
  | 166 => ripemd160
  | 167 => sha1
  | 168 => sha256
  | 169 => hash160
  | 170 => hash256
  | 171 => codeseparator
  | 172 => checksig
  | 173 => checksigverify
  | 174 => checkmultisig
  | 175 => checkmultisigverify
  | 176 => nop1
  | 177 => checklocktimeverify
  | 178 => checksequenceverify
  | 179 => nop4
  | 180 => nop5
  | 181 => nop6
  | 182 => nop7
  | 183 => nop8
  | 184 => nop9
  | _ => nop10

variable (code : Opcode)

theorem ofByte_toByte : ofByte code.toByte = code := by
  cases code with
  | pushSize count => revert count; decide +kernel
  | pushPositive offset => revert offset; decide +kernel
  | reserved offset => revert offset; decide +kernel
  | _ => rfl

theorem toByte_ofByte (byte : UInt8) : (ofByte byte).toByte = byte := by
  have htable : ∀ n : Fin 256, (ofByte (UInt8.ofNat n)).toByte = UInt8.ofNat n := by
    decide +kernel
  simpa using htable ⟨byte.toNat, byte.toNat_lt⟩

theorem toByte_injective : Function.Injective toByte := Function.LeftInverse.injective ofByte_toByte

/-- Opcodes 0 to 79 and 81 to 96. -/
def isPush : Bool := code.toByte ≤ 96 && code.toByte != 80

/-- Opcodes 0 to 96, the reserved one among them included. -/
def isRelaxedPush : Bool := code.toByte ≤ 96

/-- Opcodes 1 to 78. -/
def isPayload : Bool := 1 ≤ code.toByte && code.toByte ≤ 78

/-- Opcodes from 97 on count towards the operation limit. -/
def isCounted : Bool := 97 ≤ code.toByte

/-- Opcodes that push one of 1 to 16. -/
def isPositive : Bool := 81 ≤ code.toByte && code.toByte ≤ 96

/-- Opcodes that name a witness version: 0 and 1 to 16. -/
def isVersion : Bool := code == .pushSize 0 || code.isPositive

/-- Opcodes that fail a script wherever they stand. -/
def isDisabled : Opcode → Bool
  | disabledCat | disabledSubstr | disabledLeft | disabledRight | disabledInvert | disabledAnd
  | disabledOr | disabledXor | disabledMul2 | disabledDiv2 | disabledMul | disabledDiv
  | disabledMod | disabledLshift | disabledRshift | disabledVerif | disabledVernotif => true
  | _ => false

/-- Opcodes that run in a branch that is not taken. -/
def isConditional : Opcode → Bool
  | if_ | notif | else_ | endif => true
  | _ => false

end Opcode

end BitprimCore
