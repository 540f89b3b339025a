import LedgerVM.Service.Basic
import LedgerVM.Service.State
import LedgerVM.Service.Witness

/-!
# Services that read ledger entities

Each takes the handle of an entity, and any argument from below it, and leaves one of the entity's
fields.
-/

namespace LedgerVM

/-- Takes an item of some shape. -/
def Operation.popAs {α : Type} (coerce : Item → Except Fault α) : Operation α := do
  Action.ofExcept (coerce (← pop))

/-- Takes a block, and where its handle was obtained. -/
def Operation.popBlock : Operation (Origin × Block) := do
  let item ← pop
  let block ← Action.ofExcept item.toBlock
  return ((← Action.ofExcept item.toHandle).origin, block)

/-- Reads a field of a header. -/
def HeaderField.read (header : Header) : HeaderField → Item
  | hash => .byteArray header.hash.bytes
  | version => .integer header.version.toNat
  | prevHash => .byteArray header.prevHash.bytes
  | merkleRoot => .byteArray header.merkleRoot.bytes
  | timestamp => .integer header.timestamp.toNat
  | index => .integer header.index.toNat
  | consensusData => .integer header.consensusData.toNat
  | nextConsensus => .byteArray header.nextConsensus.bytes

/-- Runs a service on a block.  The transactions of a block are members of it, whichever way they
are obtained. -/
def BlockService.run (limits : Limits) : BlockService → Operation Unit
  | getTransactionCount => do
    .pushNumber (wrapInt64 (← Operation.popAs Item.toBlock).transactions.length)
  | getTransactions => do
    let (origin, block) ← Operation.popBlock
    .pushBounded limits (block.transactions.zipIdx.map fun (tx, i) =>
      .interface { entity := .transaction tx, origin := .member origin i })
  | getTransaction => do
    let (origin, block) ← Operation.popBlock
    let index ← .popIndex
    match block.transactions[index]? with
    | some tx => .pushHandle (.transaction tx) (.member origin index)
    | none => throw (.indexOutOfRange (wrapInt64 index) block.transactions.length)

/-- Puts an array of fresh handles on top. -/
def Operation.pushEntities (limits : Limits) (entities : List Entity) : Operation Unit := do
  let handles ← entities.mapM newHandle
  pushBounded limits (handles.map .interface)

/-- Runs a service on a transaction. -/
def TransactionService.run (setting : Setting) (service : TransactionService) : Operation Unit := do
  let tx ← Operation.popAs Item.toTransaction
  match service with
  | getHash => .pushBytes tx.hash.bytes
  | getType => .pushNumber tx.type.toByte.toNat
  | getAttributes => .pushEntities setting.limits (tx.attributes.map .txAttribute)
  | getInputs => .pushEntities setting.limits (tx.inputs.map .input)
  | getOutputs => .pushEntities setting.limits (tx.outputs.map .output)
  | getReferences =>
    let outputs ← Action.ofExcept (setting.ledger.spentOutputs tx)
    .pushEntities setting.limits (outputs.map .output)

/-- Reads a field of an attribute. -/
def AttributeField.read (a : Attribute) : AttributeField → Item
  | usage => .integer a.usage.toNat
  | data => .byteArray a.data

/-- Reads a field of an input. -/
def InputField.read (i : Input) : InputField → Item
  | hash => .byteArray i.prevHash.bytes
  | index => .integer i.prevIndex.toNat

/-- Reads a field of an output. -/
def OutputField.read (o : Output) : OutputField → Item
  | assetId => .byteArray o.assetId.bytes
  | value => .integer o.value.toInt
  | scriptHash => .byteArray o.scriptHash.bytes

/-- Runs a service on an account. -/
def AccountService.run (service : AccountService) : Operation Unit := do
  let account ← Operation.popAs Item.toAccount
  match service with
  | getScriptHash => .pushBytes account.scriptHash.bytes
  | getVotes => .pushArray (account.votes.map .byteArray)
  | getBalance => .pushNumber (account.balance (← .popHash256)).toInt

/-- Reads a field of an asset. -/
def AssetField.read (a : Asset) : AssetField → Item
  | assetId => .byteArray a.assetId.bytes
  | type => .integer a.type.toByte.toNat
  | amount => .integer a.amount.toInt
  | available => .integer a.available.toInt
  | precision => .integer a.precision.toNat
  | owner => .byteArray a.owner
  | admin => .byteArray a.admin.bytes
  | issuer => .byteArray a.issuer.bytes

/-- Runs a service on a contract.  A contract's handle gives access to its storage only while that
contract is executing. -/
def ContractService.run (executing : Hash160) (service : ContractService) : Operation Unit := do
  let contract ← Operation.popAs Item.toContract
  match service with
  | getScript => .pushBytes contract.script
  | isPayable => .pushBool contract.properties.isPayable
  | getStorageContext =>
    if contract.scriptHash ≠ executing then throw (.refused .foreignStorageContext)
    .pushFresh (.storageContext { scriptHash := contract.scriptHash })

end LedgerVM
