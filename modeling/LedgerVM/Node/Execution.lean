import LedgerVM.Machine.Run
import LedgerVM.Node.Config
import LedgerVM.Node.Error
import LedgerVM.Node.Receipt

/-!
# Executing invocations

A node runs scripts on behalf of transactions, each on a machine of its own, and decides when their
changes become visible: those of a single invocation right after it, those of a block once all its
invocations are done.

Runs carry fuel; an answer of `none` says that a script was given up.

* `Host.runTransaction`, `Host.runScript`: one invocation, committed if it halts.
* `Host.verify`: one invocation of which nothing is ever committed.
* `Host.validateBlock`: all invocations of a block against the store as it was before, committed as
  one.
-/

namespace LedgerVM

/-- What is to be run: a script, where to start in it, its arguments with the heap they live in, and
the transaction it serves, with its place in the chain if it was read from there. -/
structure Invocation where
  script : Bytes
  transaction : Option Transaction := none
  place : Option TransactionPlace := none
  entry : Nat := 0
  arguments : List Item := []
  heap : Heap := {}

/-- Runs the script of a transaction, which is taken to be the caller's own. -/
def Invocation.ofTransaction (tx : Transaction) : Invocation :=
  { script := tx.script, transaction := some tx }

/-- A run that is over: its receipt and the changes it wants. -/
structure Execution where
  receipt : Receipt
  changes : ChangeSet

/-- What a node runs on: its configuration, the ledger and the store. -/
structure Host where
  config : Config
  ledger : Ledger
  store : Store

namespace Host

/-- The setting of an invocation. -/
def setting (host : Host) (trigger : Trigger) (limits : Limits) (persisting : Option Block)
    (invocation : Invocation) : Setting where
  trigger
  limits
  schedule := host.config.schedule
  ledger := host.ledger
  store := host.store
  persisting
  transaction := invocation.transaction
  place := invocation.place

/-- The machine that an invocation leaves. -/
def run (fuel : Nat) (setting : Setting) (invocation : Invocation) :
    ExceptT NodeError Option Machine :=
  let start := Machine.initial setting.limits invocation.heap
  let load := Machine.load setting.limits invocation.script invocation.entry invocation.arguments
  match load.run start with
  | .ok () m => m.execute setting fuel
  | .error fault _ => throw (.fault fault)

/-- The limits of an invocation: its transaction pays for gas beyond the configured limit. -/
def limitsFor (host : Host) (invocation : Invocation) : Limits :=
  match invocation.transaction with
  | some tx => host.config.limitsFor tx
  | none => host.config.limits

/-- The hash that the receipt of an invocation carries. -/
def receiptHash (invocation : Invocation) : Hash256 :=
  (invocation.transaction.map Transaction.hash).getD (.zero 32)

/-- Runs an invocation as an application and makes its receipt. -/
def execute (fuel : Nat) (host : Host) (persisting : Option Block) (invocation : Invocation) :
    ExceptT NodeError Option Execution := do
  let setting := host.setting .application (host.limitsFor invocation) persisting invocation
  let m ← run fuel setting invocation
  return { receipt := .ofMachine (receiptHash invocation) m, changes := m.outcomeChanges }

/-- The store after changes; a store that refuses the commit is not asked if there is nothing to
commit. -/
def commit (host : Host) (changes : ChangeSet) : Except NodeError Store :=
  if changes.isEmpty then .ok host.store else (host.store.commit changes).mapError .store

/-- Runs an invocation and commits what it wants. -/
def runScript (fuel : Nat) (host : Host) (invocation : Invocation) :
    ExceptT NodeError Option (Receipt × Store) := do
  let execution ← execute fuel host none invocation
  return (execution.receipt, ← ExceptT.mk (some (host.commit execution.changes)))

/-- Runs the script of an invocation transaction and commits what it wants. -/
def runTransaction (fuel : Nat) (host : Host) (tx : Transaction) :
    ExceptT NodeError Option (Receipt × Store) :=
  if tx.type = .invocation then runScript fuel host (.ofTransaction tx)
  else throw (.notInvocation tx.hash)

/-- Whether a verification passes: it halts and leaves exactly one item, which is true. -/
def verify (fuel : Nat) (host : Host) (invocation : Invocation) :
    ExceptT NodeError Option Bool := do
  let m ← run fuel (host.setting .verification host.config.limits none invocation) invocation
  match m.status, m.results with
  | .halted, [item] => return item.toBool
  | _, _ => return false

/-- Runs every invocation of a block against the store as it is, then commits the changes of those
that halted, laid over one another in the order of the block. -/
def validateBlock (fuel : Nat) (host : Host) (block : Block) :
    ExceptT NodeError Option (BlockReceipt × Store) := do
  let invocations := block.transactions.filter (·.type = .invocation)
  let executions ← invocations.mapM fun tx => execute fuel host (some block) (.ofTransaction tx)
  let changes := executions.foldl (fun changes execution => changes.merge execution.changes) .empty
  let receipt : BlockReceipt :=
    { blockHash := block.header.hash
      index := block.header.index
      receipts := executions.map Execution.receipt
      committed := executions.foldl (fun total execution => total + execution.changes.size) 0 }
  return (receipt, ← ExceptT.mk (some (host.commit changes)))

end Host
end LedgerVM
