import LedgerVM.Ledger.Chain
import LedgerVM.Machine.Gas
import LedgerVM.Machine.Limits
import LedgerVM.Store.Basic

/-!
# The setting of a run

Everything that stays fixed while a script runs: why it runs, its limits and prices, the ledger and
the store it reads, the block being persisted and the transaction it serves.
-/

namespace LedgerVM

/-- Why a script runs.  Only an application may write to storage. -/
inductive Trigger where
  | verification
  | application
  deriving DecidableEq, Repr

/-- The number that stands for a trigger. -/
def Trigger.number : Trigger → Int
  | verification => 0x00
  | application => 0x10

/-- What stays fixed during a run. -/
structure Setting where
  trigger : Trigger := .application
  limits : Limits := {}
  schedule : GasSchedule := {}
  ledger : Ledger
  store : Store
  /-- The block being persisted, if any. -/
  persisting : Option Block := none
  /-- The transaction that the run serves, if any. -/
  transaction : Option Transaction := none
  /-- Where the chain holds that transaction, if it was read from there and is not the caller's
  own. -/
  place : Option TransactionPlace := none

end LedgerVM
