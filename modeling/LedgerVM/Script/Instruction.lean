import LedgerVM.Digest

/-!
# Instructions

What the bytes of a script mean once they are decoded.  Most instructions take no operand from the
script and work on the evaluation stack alone: these are the operators, grouped by what they work
on.  The others push literals, move control, call, reach the alt stack and the slots, or throw.

* `Operator`: an instruction on the evaluation stack.
* `Instruction`: any instruction, with its operand.
* `Instruction.text`: how listings show it.
-/

namespace LedgerVM

/-- Rearrangements of the evaluation stack.  Those with an `x` in front, `pick` and `roll` pop an
index first. -/
inductive StackOperator where
  | xdrop | xswap | xtuck | depth | drop | dup | nip | copyOver | pick | roll | rot | swap | tuck
  deriving DecidableEq, Repr

/-- Operators on byte strings. -/
inductive SpliceOperator where
  | cat | substr | left | right | size
  deriving DecidableEq, Repr

/-- Operators from an integer to an integer. -/
inductive UnaryOperator where
  | invert | inc | dec | sign | negate | abs
  deriving DecidableEq, Repr

/-- Operators from two integers to an integer. -/
inductive BinaryOperator where
  | and | or | xor | add | sub | mul | div | mod | min | max
  deriving DecidableEq, Repr

/-- Comparisons of two integers. -/
inductive Comparison where
  | equal | notEqual | less | greater | atMost | atLeast
  deriving DecidableEq, Repr

/-- The hash functions scripts can apply. -/
inductive HashFunction where
  | sha1 | sha256 | hash160 | hash256
  deriving DecidableEq, Repr

/-- Operators on arrays, structs and maps. -/
inductive CollectionOperator where
  | arraySize | pack | unpack | pickItem | setItem | newArray | newStruct | newMap | append
  | reverse | remove | hasKey | keys | values
  deriving DecidableEq, Repr

/-- An instruction that works on the evaluation stack of its frame and on nothing else. -/
inductive Operator where
  | stack (op : StackOperator)
  | splice (op : SpliceOperator)
  /-- Whether two items are equal. -/
  | equal
  | unary (op : UnaryOperator)
  | binary (op : BinaryOperator)
  /-- Shifts an integer, to the left if `toLeft`. -/
  | shift (toLeft : Bool)
  | compare (op : Comparison)
  | not
  | nonzero
  | boolAnd
  | boolOr
  /-- Whether an integer is at least a lower and below an upper bound. -/
  | within
  | hash (function : HashFunction)
  /-- Checks a signature of the transaction that the run serves. -/
  | checkSig
  /-- Checks a signature of a message on the stack. -/
  | verify
  /-- Checks several signatures of the transaction against an ordered list of keys. -/
  | checkMultisig
  | collection (op : CollectionOperator)
  deriving DecidableEq, Repr

/-- The three kinds of variable slots of a frame. -/
inductive SlotKind where
  | static | local | argument
  deriving DecidableEq, Repr

/-- A decoded instruction.  Offsets of jumps and calls are relative to the instruction itself. -/
inductive Instruction where
  | pushBytes (data : Bytes)
  | pushInt (value : Int)
  | nop
  | jump (offset : Int)
  /-- Jumps if the popped truth value is the expected one. -/
  | jumpIf (expected : Bool) (offset : Int)
  | call (offset : Int)
  | ret
  /-- Calls another contract; the zero hash takes the target from the stack.  A tail call replaces
  the frame. -/
  | appCall (target : Hash160) (tail : Bool)
  | syscall (service : UInt32)
  | dupFromAlt
  | toAlt
  | fromAlt
  | operate (op : Operator)
  | initStatic (count : Nat)
  | initSlots (locals arguments : Nat)
  | load (slot : SlotKind) (index : Nat)
  | store (slot : SlotKind) (index : Nat)
  /-- Throws an exception. -/
  | raise
  /-- Throws an exception unless the popped truth value is true. -/
  | raiseUnless
  deriving DecidableEq

/-- The name of a rearrangement. -/
def StackOperator.text : StackOperator → String
  | xdrop => "XDROP"
  | xswap => "XSWAP"
  | xtuck => "XTUCK"
  | depth => "DEPTH"
  | drop => "DROP"
  | dup => "DUP"
  | nip => "NIP"
  | copyOver => "OVER"
  | pick => "PICK"
  | roll => "ROLL"
  | rot => "ROT"
  | swap => "SWAP"
  | tuck => "TUCK"

/-- The name of a byte string operator. -/
def SpliceOperator.text : SpliceOperator → String
  | cat => "CAT"
  | substr => "SUBSTR"
  | left => "LEFT"
  | right => "RIGHT"
  | size => "SIZE"

/-- The name of an operator on one integer. -/
def UnaryOperator.text : UnaryOperator → String
  | invert => "INVERT"
  | inc => "INC"
  | dec => "DEC"
  | sign => "SIGN"
  | negate => "NEGATE"
  | abs => "ABS"

/-- The name of an operator on two integers. -/
def BinaryOperator.text : BinaryOperator → String
  | and => "AND"
  | or => "OR"
  | xor => "XOR"
  | add => "ADD"
  | sub => "SUB"
  | mul => "MUL"
  | div => "DIV"
  | mod => "MOD"
  | min => "MIN"
  | max => "MAX"

/-- The name of a comparison. -/
def Comparison.text : Comparison → String
  | equal => "NUMEQUAL"
  | notEqual => "NUMNOTEQUAL"
  | less => "LT"
  | greater => "GT"
  | atMost => "LTE"
  | atLeast => "GTE"

/-- The name of a hash function. -/
def HashFunction.text : HashFunction → String
  | sha1 => "SHA1"
  | sha256 => "SHA256"
  | hash160 => "HASH160"
  | hash256 => "HASH256"

/-- The name of a collection operator. -/
def CollectionOperator.text : CollectionOperator → String
  | arraySize => "ARRAYSIZE"
  | pack => "PACK"
  | unpack => "UNPACK"
  | pickItem => "PICKITEM"
  | setItem => "SETITEM"
  | newArray => "NEWARRAY"
  | newStruct => "NEWSTRUCT"
  | newMap => "NEWMAP"
  | append => "APPEND"
  | reverse => "REVERSE"
  | remove => "REMOVE"
  | hasKey => "HASKEY"
  | keys => "KEYS"
  | values => "VALUES"

/-- The name of an operator. -/
def Operator.text : Operator → String
  | stack op => op.text
  | splice op => op.text
  | equal => "EQUAL"
  | unary op => op.text
  | binary op => op.text
  | shift toLeft => if toLeft then "SHL" else "SHR"
  | compare op => op.text
  | not => "NOT"
  | nonzero => "NZ"
  | boolAnd => "BOOLAND"
  | boolOr => "BOOLOR"
  | within => "WITHIN"
  | hash function => function.text
  | checkSig => "CHECKSIG"
  | verify => "VERIFY"
  | checkMultisig => "CHECKMULTISIG"
  | collection op => op.text

/-- What the names of loads and stores end in. -/
def SlotKind.text : SlotKind → String
  | static => "SFLD"
  | «local» => "LOC"
  | argument => "ARG"

namespace Instruction

/-- The instruction pushes a literal. -/
def isPush : Instruction → Bool
  | pushBytes _ | pushInt _ => true
  | _ => false

/-- An offset with its sign, also in front of zero. -/
def offsetText (offset : Int) : String := if offset < 0 then toString offset else s!"+{offset}"

/-- How listings show an instruction. -/
def text : Instruction → String
  | pushBytes data => if data.isEmpty then "PUSH0" else s!"PUSH {data.toHex}"
  | pushInt value => s!"PUSH{value}"
  | nop => "NOP"
  | jump offset => s!"JMP {offsetText offset}"
  | jumpIf true offset => s!"JMPIF {offsetText offset}"
  | jumpIf false offset => s!"JMPIFNOT {offsetText offset}"
  | call offset => s!"CALL {offsetText offset}"
  | ret => "RET"
  | appCall target false => s!"APPCALL {target.toHex}"
  | appCall target true => s!"TAILCALL {target.toHex}"
  | syscall service => s!"SYSCALL 0x{hexWord service}"
  | dupFromAlt => "DUPFROMALTSTACK"
  | toAlt => "TOALTSTACK"
  | fromAlt => "FROMALTSTACK"
  | operate op => op.text
  | initStatic count => s!"INITSSLOT {count}"
  | initSlots locals arguments => s!"INITSLOT {locals} {arguments}"
  | load slot index => s!"LD{slot.text} {index}"
  | store slot index => s!"ST{slot.text} {index}"
  | raise => "THROW"
  | raiseUnless => "THROWIFNOT"

end Instruction
end LedgerVM
