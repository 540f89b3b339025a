import LedgerVM.Script.Instruction

/-!
# Opcodes

The byte that each instruction starts with.  Bytes up to `0x60` are pushes, up to `0x69` control
flow, then come the alt stack, rearrangements, byte strings, bits, arithmetic, hashes, collections,
slots and exceptions.
-/

namespace LedgerVM.Opcode

/-- Pushes the empty byte string. -/
def push0 : UInt8 := 0x00

/-- The last of the opcodes that push as many bytes as they say. -/
def pushBytesLast : UInt8 := 0x4B

/-- Pushes as many bytes as the next byte says. -/
def pushData1 : UInt8 := 0x4C

/-- Pushes as many bytes as the next two bytes say. -/
def pushData2 : UInt8 := 0x4D

/-- Pushes as many bytes as the next four bytes say. -/
def pushData4 : UInt8 := 0x4E

/-- Pushes minus one. -/
def pushMinusOne : UInt8 := 0x4F

/-- The first of the opcodes that push a small integer; it pushes one. -/
def push1 : UInt8 := 0x51

/-- The last of the opcodes that push a small integer; it pushes sixteen. -/
def push16 : UInt8 := 0x60

/-- Calls another contract. -/
def appCall : UInt8 := 0x67

/-- Calls a service. -/
def syscall : UInt8 := 0x68

/-- Calls another contract in place of the frame. -/
def tailCall : UInt8 := 0x69

/-- The instruction of an opcode that takes no operand and pushes no literal, if the byte is one. -/
def plain? : UInt8 → Option Instruction
  | 0x61 => some .nop
  | 0x66 => some .ret
  | 0x6A => some .dupFromAlt
  | 0x6B => some .toAlt
  | 0x6C => some .fromAlt
  | 0x6D => some (.operate (.stack .xdrop))
  | 0x72 => some (.operate (.stack .xswap))
  | 0x73 => some (.operate (.stack .xtuck))
  | 0x74 => some (.operate (.stack .depth))
  | 0x75 => some (.operate (.stack .drop))
  | 0x76 => some (.operate (.stack .dup))
  | 0x77 => some (.operate (.stack .nip))
  | 0x78 => some (.operate (.stack .copyOver))
  | 0x79 => some (.operate (.stack .pick))
  | 0x7A => some (.operate (.stack .roll))
  | 0x7B => some (.operate (.stack .rot))
  | 0x7C => some (.operate (.stack .swap))
  | 0x7D => some (.operate (.stack .tuck))
  | 0x7E => some (.operate (.splice .cat))
  | 0x7F => some (.operate (.splice .substr))
  | 0x80 => some (.operate (.splice .left))
  | 0x81 => some (.operate (.splice .right))
  | 0x82 => some (.operate (.splice .size))
  | 0x83 => some (.operate (.unary .invert))
  | 0x84 => some (.operate (.binary .and))
  | 0x85 => some (.operate (.binary .or))
  | 0x86 => some (.operate (.binary .xor))
  | 0x87 => some (.operate .equal)
  | 0x8B => some (.operate (.unary .inc))
  | 0x8C => some (.operate (.unary .dec))
  | 0x8D => some (.operate (.unary .sign))
  | 0x8F => some (.operate (.unary .negate))
  | 0x90 => some (.operate (.unary .abs))
  | 0x91 => some (.operate .not)
  | 0x92 => some (.operate .nonzero)
  | 0x93 => some (.operate (.binary .add))
  | 0x94 => some (.operate (.binary .sub))
  | 0x95 => some (.operate (.binary .mul))
  | 0x96 => some (.operate (.binary .div))
  | 0x97 => some (.operate (.binary .mod))
  | 0x98 => some (.operate (.shift true))
  | 0x99 => some (.operate (.shift false))
  | 0x9A => some (.operate .boolAnd)
  | 0x9B => some (.operate .boolOr)
  | 0x9C => some (.operate (.compare .equal))
  | 0x9E => some (.operate (.compare .notEqual))
  | 0x9F => some (.operate (.compare .less))
  | 0xA0 => some (.operate (.compare .greater))
  | 0xA1 => some (.operate (.compare .atMost))
  | 0xA2 => some (.operate (.compare .atLeast))
  | 0xA3 => some (.operate (.binary .min))
  | 0xA4 => some (.operate (.binary .max))
  | 0xA5 => some (.operate .within)
  | 0xA7 => some (.operate (.hash .sha1))
  | 0xA8 => some (.operate (.hash .sha256))
  | 0xA9 => some (.operate (.hash .hash160))
  | 0xAA => some (.operate (.hash .hash256))
  | 0xAC => some (.operate .checkSig)
  | 0xAD => some (.operate .verify)
  | 0xAE => some (.operate .checkMultisig)
  | 0xC0 => some (.operate (.collection .arraySize))
  | 0xC1 => some (.operate (.collection .pack))
  | 0xC2 => some (.operate (.collection .unpack))
  | 0xC3 => some (.operate (.collection .pickItem))
  | 0xC4 => some (.operate (.collection .setItem))
  | 0xC5 => some (.operate (.collection .newArray))
  | 0xC6 => some (.operate (.collection .newStruct))
  | 0xC7 => some (.operate (.collection .newMap))
  | 0xC8 => some (.operate (.collection .append))
  | 0xC9 => some (.operate (.collection .reverse))
  | 0xCA => some (.operate (.collection .remove))
  | 0xCB => some (.operate (.collection .hasKey))
  | 0xCC => some (.operate (.collection .keys))
  | 0xCD => some (.operate (.collection .values))
  | 0xF0 => some .raise
  | 0xF1 => some .raiseUnless
  | _ => none

/-- The instruction of an opcode behind which an offset of two bytes follows, if the byte is one. -/
def withOffset? : UInt8 → Option (Int → Instruction)
  | 0x62 => some .jump
  | 0x63 => some (.jumpIf true)
  | 0x64 => some (.jumpIf false)
  | 0x65 => some .call
  | _ => none

/-- The instruction of an opcode behind which a slot index or size of one byte follows, if the byte
is one. -/
def withIndex? : UInt8 → Option (Nat → Instruction)
  | 0xD0 => some .initStatic
  | 0xD2 => some (.load .static)
  | 0xD3 => some (.store .static)
  | 0xD4 => some (.load .local)
  | 0xD5 => some (.store .local)
  | 0xD6 => some (.load .argument)
  | 0xD7 => some (.store .argument)
  | _ => none

/-- Sets up the local and the argument slot; the sizes follow in two bytes. -/
def initSlots : UInt8 := 0xD1

end LedgerVM.Opcode
