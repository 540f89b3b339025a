import LedgerVM.Ledger.Block
import LedgerVM.Ledger.Entity

/-!
# The ledger

A chain holds its blocks and their headers in order, and finds blocks and transactions by hash
through two indexes that grow with every block added.  Scripts see the ledger through lookups that
fail as a whole if its backend is out of order.

* `Chain.addBlock`: a block lands at the next height, which becomes its index whatever index it came
  with.
* `Ledger.block`, `Ledger.transaction` and the other lookups: what is found, or nothing, or a
  failure.
-/

namespace LedgerVM

/-- Why a lookup in the ledger fails. -/
inductive LedgerError where
  /-- The ledger has no blocks. -/
  | empty
  /-- The backend is out of order. -/
  | backend (reason : String)
  deriving DecidableEq, Repr

namespace LedgerError

/-- The stable name of a failure. -/
def code : LedgerError → String
  | empty => "LEDGER_EMPTY"
  | backend _ => "LEDGER_BACKEND"

/-- The failure in words. -/
def message : LedgerError → String
  | empty => "ledger has no blocks"
  | backend reason => "ledger backend failure: " ++ reason

end LedgerError

/-- Where a transaction stands: the height of its block and its position in it. -/
structure TransactionPlace where
  height : Nat
  position : Nat
  deriving DecidableEq, Repr

/-- The blocks and entities of a ledger, with indexes of blocks and transactions by hash. -/
structure Chain where
  blocks : Array Block := #[]
  /-- The header of each block, at the height of the block. -/
  headers : Array Header := #[]
  /-- The height of the last block with a hash. -/
  heights : Std.ExtTreeMap Hash256 Nat := ∅
  /-- The last transaction with a hash. -/
  places : Std.ExtTreeMap Hash256 TransactionPlace := ∅
  accounts : Std.ExtTreeMap Hash160 Account := ∅
  assets : Std.ExtTreeMap Hash256 Asset := ∅
  contracts : Std.ExtTreeMap Hash160 Contract := ∅
  validators : List Validator := []

namespace Chain

/-- The chain without blocks or entities. -/
def empty : Chain := {}

/-- Enters the transactions of the block at `height` into an index; later ones replace earlier
ones. -/
def indexTransactions (height : Nat) (places : Std.ExtTreeMap Hash256 TransactionPlace)
    (transactions : List Transaction) : Std.ExtTreeMap Hash256 TransactionPlace :=
  transactions.zipIdx.foldl
    (fun places (tx, position) => places.insert tx.hash { height, position }) places

/-- Appends a block at the next height, which becomes its index. -/
def addBlock (c : Chain) (block : Block) : Chain :=
  let height := c.blocks.size
  let header := { block.header with index := UInt32.ofNat height }
  { c with
    blocks := c.blocks.push { block with header }
    headers := c.headers.push header
    heights := c.heights.insert block.header.hash height
    places := indexTransactions height c.places block.transactions }

/-- Records an account, replacing the one with its script hash. -/
def putAccount (c : Chain) (account : Account) : Chain :=
  { c with accounts := c.accounts.insert account.scriptHash account }

/-- Records an asset, replacing the one with its id. -/
def registerAsset (c : Chain) (asset : Asset) : Chain :=
  { c with assets := c.assets.insert asset.assetId asset }

/-- Records a contract, replacing the one with its script hash. -/
def deployContract (c : Chain) (contract : Contract) : Chain :=
  { c with contracts := c.contracts.insert contract.scriptHash contract }

/-- Records one more validator. -/
def addValidator (c : Chain) (validator : Validator) : Chain :=
  { c with validators := c.validators ++ [validator] }

/-- A contract is deployed under the script hash. -/
def isContract (c : Chain) (scriptHash : Hash160) : Bool := c.contracts.contains scriptHash

/-- The height of the block asked for, if there is one. -/
def height? (c : Chain) : BlockId → Option Nat
  | .index i => if i.toNat < c.blocks.size then some i.toNat else none
  | .hash h => c.heights[h]?

/-- The block asked for with its height, if there is one. -/
def block? (c : Chain) (id : BlockId) : Option (Nat × Block) := do
  let height ← c.height? id
  return (height, ← c.blocks[height]?)

/-- The header of the block asked for with its height, if there is one. -/
def header? (c : Chain) (id : BlockId) : Option (Nat × Header) := do
  let height ← c.height? id
  return (height, ← c.headers[height]?)

/-- The last transaction with a hash and where it stands, if there is one. -/
def transaction? (c : Chain) (hash : Hash256) : Option (TransactionPlace × Transaction) := do
  let place ← c.places[hash]?
  let block ← c.blocks[place.height]?
  return (place, ← block.transactions[place.position]?)

end Chain

/-- What scripts read ledger entities from: a chain, or a backend that fails every lookup. -/
inductive Ledger where
  | available (chain : Chain)
  | unavailable (reason : String)

namespace Ledger

/-- Reads from the chain, or fails if the backend is out of order. -/
def read {α : Type} (l : Ledger) (f : Chain → α) : Except LedgerError α :=
  match l with
  | available c => .ok (f c)
  | unavailable reason => .error (.backend reason)

/-- The last block. -/
def currentBlock (l : Ledger) : Except LedgerError Block := do
  match ← l.read (·.blocks.back?) with
  | some block => return block
  | none => throw .empty

/-- The height of the last block. -/
def height (l : Ledger) : Except LedgerError UInt32 := do return (← l.currentBlock).header.index

/-- The block asked for with its height. -/
def block (l : Ledger) (id : BlockId) : Except LedgerError (Option (Nat × Block)) :=
  l.read (·.block? id)

/-- The header of the block asked for with its height. -/
def header (l : Ledger) (id : BlockId) : Except LedgerError (Option (Nat × Header)) :=
  l.read (·.header? id)

/-- The last transaction with a hash and where it stands. -/
def transaction (l : Ledger) (hash : Hash256) :
    Except LedgerError (Option (TransactionPlace × Transaction)) :=
  l.read (·.transaction? hash)

/-- The account under a script hash. -/
def account (l : Ledger) (scriptHash : Hash160) : Except LedgerError (Option Account) :=
  l.read (·.accounts[scriptHash]?)

/-- The asset with an id. -/
def asset (l : Ledger) (assetId : Hash256) : Except LedgerError (Option Asset) :=
  l.read (·.assets[assetId]?)

/-- The contract under a script hash. -/
def contract (l : Ledger) (scriptHash : Hash160) : Except LedgerError (Option Contract) :=
  l.read (·.contracts[scriptHash]?)

/-- The validators, in order of registration. -/
def validators (l : Ledger) : Except LedgerError (List Validator) := l.read (·.validators)

end Ledger
end LedgerVM
