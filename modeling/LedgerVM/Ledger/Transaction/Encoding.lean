import LedgerVM.Bytes.Reader
import LedgerVM.Ledger.Transaction.Basic

/-!
# The encoding of transactions

Every field but the hash is written in order, numbers little-endian, lists and byte strings behind
their length in four bytes.  This is the message that the signatures of a transaction commit to.
The hash is no part of the encoding, so a reader has to be told it.
-/

namespace LedgerVM

/-- The bytes of an attribute. -/
def Attribute.encode (a : Attribute) : Bytes := a.usage :: Bytes.ofSized a.data

/-- The bytes of an input. -/
def Input.encode (i : Input) : Bytes := i.prevHash.bytes ++ Bytes.ofNat 2 i.prevIndex.toNat

/-- The bytes of an output. -/
def Output.encode (o : Output) : Bytes :=
  o.assetId.bytes ++ Bytes.ofInt64 o.value ++ o.scriptHash.bytes

/-- The bytes of a transaction without its hash. -/
def Transaction.encode (tx : Transaction) : Bytes :=
  tx.type.toByte :: tx.version ::
    (Bytes.ofList Attribute.encode tx.attributes ++ Bytes.ofList Input.encode tx.inputs ++
      Bytes.ofList Output.encode tx.outputs ++ Bytes.ofSized tx.script ++ Bytes.ofInt64 tx.gas)

/-- Reads an attribute. -/
def Attribute.read : Reader Attribute := do
  let usage ← .byte
  let data ← .sized
  return { usage, data }

/-- Reads an input. -/
def Input.read : Reader Input := do
  let prevHash ← .digest 32
  let prevIndex ← .nat 2
  return { prevHash, prevIndex := UInt16.ofNat prevIndex }

/-- Reads an output. -/
def Output.read : Reader Output := do
  let assetId ← .digest 32
  let value ← .int64
  let scriptHash ← .digest 20
  return { assetId, value, scriptHash }

/-- Reads a transaction named `hash`. -/
def Transaction.read (hash : Hash256) : Reader Transaction := do
  let some type := TransactionType.ofByte? (← .byte) | failure
  let version ← .byte
  let attributes ← .list Attribute.read
  let inputs ← .list Input.read
  let outputs ← .list Output.read
  let script ← .sized
  let gas ← .int64
  return { hash, type, version, attributes, inputs, outputs, script, gas }

/-- The transaction named `hash` whose encoding the bytes begin with; what follows it is ignored. -/
def Transaction.decode? (hash : Hash256) (bs : Bytes) : Option Transaction :=
  ((Transaction.read hash).run bs).map Prod.fst

end LedgerVM
