import LedgerVM.Ledger.Chain
import LedgerVM.Store.Basic

/-!
# Faults

Everything that can end a run before it halts.  Each cause has a stable code, which receipts carry,
and a text.

* `Mismatch`: an item does not have the shape that was asked for.
* `Refusal`: an operation is not allowed where it was tried.
* `Fault`: any cause.
-/

namespace LedgerVM

/-- The shape that an item was expected to have. -/
inductive Mismatch where
  | array | buffer | integer | boolean | map | struct | interface | header | block | blockBase
  | transaction | txAttribute | txAttributeItem | input | output | account | asset | contract
  | validator | storageContext
  deriving DecidableEq, Repr

namespace Mismatch

/-- The stable name of a mismatch. -/
def code : Mismatch → String
  | array => "INVALID_VALUE_ARRAY"
  | buffer => "INVALID_VALUE_BUFFER"
  | integer => "INVALID_VALUE_INTEGER"
  | boolean => "INVALID_VALUE_BOOLEAN"
  | map => "INVALID_VALUE_MAP"
  | struct => "INVALID_VALUE_STRUCT"
  | interface => "INVALID_VALUE_INTERFACE"
  | header => "INVALID_VALUE_HEADER"
  | block => "INVALID_VALUE_BLOCK"
  | blockBase => "INVALID_VALUE_BLOCK_BASE"
  | transaction => "INVALID_VALUE_TRANSACTION"
  | txAttribute => "INVALID_VALUE_ATTRIBUTE"
  | txAttributeItem => "INVALID_VALUE_ATTRIBUTE_STACK_ITEM"
  | input => "INVALID_VALUE_INPUT"
  | output => "INVALID_VALUE_OUTPUT"
  | account => "INVALID_VALUE_ACCOUNT"
  | asset => "INVALID_VALUE_ASSET"
  | contract => "INVALID_VALUE_CONTRACT"
  | validator => "INVALID_VALUE_VALIDATOR"
  | storageContext => "INVALID_VALUE_STORAGE_CONTEXT_STACK_ITEM"

/-- The name of the expected shape. -/
def shape : Mismatch → String
  | array => "Array"
  | buffer => "Buffer"
  | integer => "Integer"
  | boolean => "Boolean"
  | map => "Map"
  | struct => "Struct"
  | interface => "Interface"
  | header => "Header"
  | block => "Block"
  | blockBase => "BlockBase"
  | transaction => "Transaction"
  | txAttribute => "Attribute"
  | txAttributeItem => "AttributeStackItem"
  | input => "Input"
  | output => "Output"
  | account => "Account"
  | asset => "Asset"
  | contract => "Contract"
  | validator => "Validator"
  | storageContext => "StorageContextStackItem"

/-- The mismatch in words.  It names the shape expected, never the one found. -/
def message (m : Mismatch) : String := "Invalid Value. Expected " ++ m.shape

end Mismatch

/-- Why an operation is not allowed. -/
inductive Refusal where
  | staticSlotInitialized
  | slotsInitialized
  | tuckIndexZero
  | noContainerToVerify
  | multisigItemCount
  | multisigCount
  | negativeArraySize
  | negativeIndex
  | staticSlotEmpty
  | slotsEmpty
  | dynamicTargetWidth
  | dynamicInvoke
  | hash160Width
  | hash256Width
  | witnessWidth
  | noContainer
  | unknownReference
  | unknownReferenceOutput
  | blockIndexRange
  | blockIdWidth
  | foreignStorageContext
  | contractWithoutStorage
  | verificationWrite
  | readOnlyContext
  | commitBeforeHalt
  /-- A reason worded by the caller. -/
  | other (reason : String)
  deriving DecidableEq, Repr

/-- The reason in words. -/
def Refusal.reason : Refusal → String
  | staticSlotInitialized => "static slot already initialized"
  | slotsInitialized => "slots already initialized"
  | tuckIndexZero => "XTUCK needs a positive index"
  | noContainerToVerify => "no script container to verify against"
  | multisigItemCount => "invalid multisig item count"
  | multisigCount => "invalid multisig key or signature count"
  | negativeArraySize => "array size must not be negative"
  | negativeIndex => "index must not be negative"
  | staticSlotEmpty => "INITSSLOT needs at least one slot"
  | slotsEmpty => "INITSLOT needs at least one slot"
  | dynamicTargetWidth => "dynamic call target must be 20 bytes"
  | dynamicInvoke => "dynamic invoke not allowed"
  | hash160Width => "expected a 20-byte hash"
  | hash256Width => "expected a 32-byte hash"
  | witnessWidth => "witness must be a hash or a public key"
  | noContainer => "no script container"
  | unknownReference => "referenced transaction not found"
  | unknownReferenceOutput => "referenced output not found"
  | blockIndexRange => "block index out of range"
  | blockIdWidth => "expected a block index or hash"
  | foreignStorageContext => "storage context requested for another contract"
  | contractWithoutStorage => "contract has no storage"
  | verificationWrite => "storage writes need the application trigger"
  | readOnlyContext => "storage context is read-only"
  | commitBeforeHalt => "only a halted engine can commit"
  | other reason => reason

/-- Why a run faults.  Numbers in a fault are what its text reports. -/
inductive Fault where
  | mismatch (expected : Mismatch)
  | stackUnderflow
  | stackOverflow (size limit : Nat)
  | callDepth (limit : Nat)
  | noFrame
  | unknownOpcode (opcode : UInt8) (position : Nat)
  | truncatedOperand (opcode : UInt8) (position : Nat)
  | invalidJump (target : Int) (length : Nat)
  | insufficientGas (price remaining : UInt64)
  | stepLimit (limit : Nat)
  | unknownService (id : UInt32)
  | invalidServiceName
  | integerOverflow (limit : Nat)
  | shiftOutOfRange (shift limit : Int)
  | divisionByZero
  | itemTooLarge (size limit : Nat)
  | arrayTooLarge (size limit : Nat)
  | indexOutOfRange (index : Int) (length : Nat)
  | slotOutOfRange (index size : Nat)
  | slotNotInitialized
  | invalidMapKey
  | keyNotFound
  | contractNotFound (scriptHash : String)
  | thrown
  | refused (refusal : Refusal)
  | ledger (error : LedgerError)
  | store (error : StoreError)
  /-- A struct that contains itself through structs alone was to be copied or compared. -/
  | endlessStruct
  deriving DecidableEq, Repr

namespace Fault

/-- The stable name of a fault. -/
def code : Fault → String
  | mismatch expected => expected.code
  | stackUnderflow => "STACK_UNDERFLOW"
  | stackOverflow .. => "STACK_OVERFLOW"
  | callDepth _ => "INVOCATION_DEPTH_EXCEEDED"
  | noFrame => "NO_CONTEXT"
  | unknownOpcode .. => "UNKNOWN_OPCODE"
  | truncatedOperand .. => "TRUNCATED_OPERAND"
  | invalidJump .. => "INVALID_JUMP"
  | insufficientGas .. => "INSUFFICIENT_GAS"
  | stepLimit _ => "STEP_LIMIT_EXCEEDED"
  | unknownService _ => "UNKNOWN_INTEROP"
  | invalidServiceName => "INVALID_INTEROP_NAME"
  | integerOverflow _ => "INTEGER_OVERFLOW"
  | shiftOutOfRange .. => "SHIFT_OUT_OF_RANGE"
  | divisionByZero => "DIVISION_BY_ZERO"
  | itemTooLarge .. => "ITEM_TOO_LARGE"
  | arrayTooLarge .. => "ARRAY_TOO_LARGE"
  | indexOutOfRange .. => "INDEX_OUT_OF_RANGE"
  | slotOutOfRange .. => "SLOT_OUT_OF_RANGE"
  | slotNotInitialized => "SLOT_NOT_INITIALIZED"
  | invalidMapKey => "INVALID_MAP_KEY"
  | keyNotFound => "KEY_NOT_FOUND"
  | contractNotFound _ => "CONTRACT_NOT_FOUND"
  | thrown => "THROW"
  | refused _ => "INVALID_OPERATION"
  | ledger error => error.code
  | store error => error.code
  | endlessStruct => "ENDLESS_STRUCT"

/-- The fault in words. -/
def message : Fault → String
  | mismatch expected => expected.message
  | stackUnderflow => "evaluation stack underflow"
  | stackOverflow size limit => s!"stack size {size} exceeds limit {limit}"
  | callDepth limit => s!"invocation depth exceeds limit {limit}"
  | noFrame => "no execution context"
  | unknownOpcode opcode position => s!"unknown opcode 0x{Bytes.toHex [opcode]} at {position}"
  | truncatedOperand opcode position =>
    s!"operand of opcode 0x{Bytes.toHex [opcode]} at {position} is truncated"
  | invalidJump target length => s!"jump target {target} outside script of length {length}"
  | insufficientGas price remaining =>
    s!"insufficient gas: price {price.toNat}, remaining {remaining.toNat}"
  | stepLimit limit => s!"step limit of {limit} reached"
  | unknownService id => s!"unknown interop service 0x{hexWord id}"
  | invalidServiceName => "interop name is not valid ascii"
  | integerOverflow limit => s!"integer exceeds {limit} bytes"
  | shiftOutOfRange shift limit => s!"shift {shift} outside [-{limit}, {limit}]"
  | divisionByZero => "division by zero"
  | itemTooLarge size limit => s!"item of {size} bytes exceeds limit {limit}"
  | arrayTooLarge size limit => s!"array of {size} items exceeds limit {limit}"
  | indexOutOfRange index length => s!"index {index} out of range for length {length}"
  | slotOutOfRange index size => s!"slot index {index} out of range for slot of size {size}"
  | slotNotInitialized => "slot is not initialized"
  | invalidMapKey => "map key must be a primitive item"
  | keyNotFound => "key not found in map"
  | contractNotFound scriptHash => s!"contract {scriptHash} not found"
  | thrown => "script threw an exception"
  | refused refusal => "invalid operation: " ++ refusal.reason
  | ledger error => error.message
  | store error => error.message
  | endlessStruct => "struct contains itself"

end Fault
end LedgerVM
