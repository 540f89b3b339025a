import LedgerVM.Digest

/-!
# Transactions

A transaction carries attributes, spends outputs of earlier transactions, creates outputs and, if it
is an invocation, carries the script that runs when it is persisted.
-/

namespace LedgerVM

/-- What a transaction is for. -/
inductive TransactionType where
  | miner | issue | claim | enrollment | register | contract | state | publish
  /-- Carries a script that is run when the transaction is persisted. -/
  | invocation
  deriving DecidableEq, Repr, Inhabited

namespace TransactionType

/-- The byte a type is written as. -/
def toByte : TransactionType → UInt8
  | miner => 0x00
  | issue => 0x01
  | claim => 0x02
  | enrollment => 0x20
  | register => 0x40
  | contract => 0x80
  | state => 0x90
  | publish => 0xd0
  | invocation => 0xd1

/-- The type written as this byte, if there is one. -/
def ofByte? : UInt8 → Option TransactionType
  | 0x00 => some miner
  | 0x01 => some issue
  | 0x02 => some claim
  | 0x20 => some enrollment
  | 0x40 => some register
  | 0x80 => some contract
  | 0x90 => some state
  | 0xd0 => some publish
  | 0xd1 => some invocation
  | _ => none

theorem ofByte?_toByte (t : TransactionType) : ofByte? t.toByte = some t := by cases t <;> rfl

end TransactionType

/-- A tagged piece of data attached to a transaction. -/
structure Attribute where
  usage : UInt8
  data : Bytes
  deriving DecidableEq

/-- The usage of attributes whose data is a script hash that must witness the transaction. -/
def Attribute.scriptUsage : UInt8 := 0x20

/-- A reference to an output of an earlier transaction. -/
structure Input where
  prevHash : Hash256
  prevIndex : UInt16
  deriving DecidableEq

/-- An amount of an asset handed to an account; the amount counts units of `10⁻⁸`. -/
structure Output where
  assetId : Hash256
  value : Int64
  scriptHash : Hash160
  deriving DecidableEq

/-- A transaction together with the hash that names it. -/
structure Transaction where
  hash : Hash256
  type : TransactionType
  version : UInt8
  attributes : List Attribute
  inputs : List Input
  outputs : List Output
  /-- The invocation script, empty for other types. -/
  script : Bytes
  /-- The fee paid for running the script. -/
  gas : Int64
  deriving DecidableEq

/-- The script hash an attribute asks a witness for, if it is one of that usage and width. -/
def Attribute.scriptHash? (a : Attribute) : Option Hash160 :=
  if a.usage = Attribute.scriptUsage then Digest.ofBytes? 20 a.data else none

/-- The script hashes named by attributes, in order. -/
def Transaction.attributeScriptHashes (tx : Transaction) : List Hash160 :=
  tx.attributes.filterMap Attribute.scriptHash?

end LedgerVM
