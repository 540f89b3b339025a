import LedgerVM.Fault

/-!
# Errors of a node

Why a node cannot do what it is asked to.  A script that faults is no error: its receipt says so.
-/

namespace LedgerVM

/-- Why a node refuses a request or cannot be set up. -/
inductive NodeError where
  /-- The invocation cannot be set up. -/
  | fault (fault : Fault)
  | store (error : StoreError)
  /-- The transaction carries no script. -/
  | notInvocation (txHash : Hash256)
  | stopped
  /-- The configuration cannot be read. -/
  | configUnreadable (reason : String)
  /-- The configuration is malformed. -/
  | configMalformed
  deriving DecidableEq

namespace NodeError

/-- The stable name of an error. -/
def code : NodeError → String
  | fault f => f.code
  | store error => error.code
  | notInvocation _ => "NOT_INVOCATION"
  | stopped => "NODE_STOPPED"
  | configUnreadable _ => "CONFIG_IO"
  | configMalformed => "CONFIG_PARSE"

/-- The error in words.  What is wrong with a malformed configuration is not said. -/
def message : NodeError → String
  | fault f => f.message
  | store error => error.message
  | notInvocation txHash => s!"transaction {txHash.toHex} carries no script"
  | stopped => "node is stopped"
  | configUnreadable reason => "unable to read config: " ++ reason
  | configMalformed => "unable to parse config:"

end NodeError
end LedgerVM
