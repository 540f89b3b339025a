import LedgerVM.Node.Execution

/-!
# The life of a node

A node runs until it is stopped, which closes its store.  A stopped node refuses every request;
stopping it once more changes nothing.
-/

namespace LedgerVM

/-- Whether a node takes requests. -/
inductive NodeStatus where
  | running
  | stopped
  deriving DecidableEq, Repr

/-- The name of a node's status. -/
def NodeStatus.name : NodeStatus → String
  | running => "Running"
  | stopped => "Stopped"

/-- A node and what it runs on. -/
structure Node where
  status : NodeStatus := .running
  host : Host

namespace Node

/-- A running node. -/
def start (config : Config) (ledger : Ledger) (store : Store) : Node :=
  { host := { config, ledger, store } }

/-- Asks a running node for something. -/
def request {α : Type} (node : Node) (ask : Host → ExceptT NodeError Option α) :
    ExceptT NodeError Option α :=
  match node.status with
  | .running => ask node.host
  | .stopped => throw .stopped

/-- The node with another store. -/
def withStore (node : Node) (store : Store) : Node := { node with host := { node.host with store } }

/-- Runs a request that changes the store. -/
def update {α : Type} (node : Node) (ask : Host → ExceptT NodeError Option (α × Store)) :
    ExceptT NodeError Option (α × Node) := do
  let (a, store) ← node.request ask
  return (a, node.withStore store)

/-- Runs the script of an invocation transaction. -/
def runTransaction (fuel : Nat) (node : Node) (tx : Transaction) :
    ExceptT NodeError Option (Receipt × Node) :=
  node.update (Host.runTransaction fuel · tx)

/-- Runs a script. -/
def runScript (fuel : Nat) (node : Node) (invocation : Invocation) :
    ExceptT NodeError Option (Receipt × Node) :=
  node.update (Host.runScript fuel · invocation)

/-- Runs a verification. -/
def verify (fuel : Nat) (node : Node) (invocation : Invocation) : ExceptT NodeError Option Bool :=
  node.request (Host.verify fuel · invocation)

/-- Runs the invocations of a block. -/
def validateBlock (fuel : Nat) (node : Node) (block : Block) :
    ExceptT NodeError Option (BlockReceipt × Node) :=
  node.update (Host.validateBlock fuel · block)

/-- Closes the store behind the node's back. -/
def closeStore (node : Node) : Node := node.withStore node.host.store.close

/-- Stops the node and closes its store. -/
def stop (node : Node) : Node :=
  match node.status with
  | .stopped => node
  | .running => { node.closeStore with status := .stopped }

end Node
end LedgerVM
