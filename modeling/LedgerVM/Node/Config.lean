import LedgerVM.Ledger.Transaction.Basic
import LedgerVM.Machine.Gas
import LedgerVM.Machine.Limits

/-!
# Configuration of a node

The limits and prices of the runs a node makes.  The gas limit is what every invocation gets for
free; a transaction adds the fee it paid.
-/

namespace LedgerVM

/-- The settings of a node. -/
structure Config where
  limits : Limits := {}
  schedule : GasSchedule := {}
  /-- The transactions of a block may run side by side.  Receipts and the store do not hang on it,
  for none of them sees what another writes. -/
  parallel : Bool := true
  deriving DecidableEq, Repr, Inhabited

namespace Config

/-- Replaces the gas that every invocation gets for free. -/
def withGasLimit (c : Config) (gas : UInt64) : Config := { c with limits := { c.limits with gas } }

/-- Replaces the bound on steps. -/
def withMaxSteps (c : Config) (steps : Option Nat) : Config :=
  { c with limits := { c.limits with steps } }

/-- Lets the transactions of a block run side by side, or not. -/
def withParallel (c : Config) (parallel : Bool) : Config := { c with parallel }

/-- The limits of an invocation on behalf of a transaction: a positive fee adds to the gas, up to
`2 ^ 64 - 1`. -/
def limitsFor (c : Config) (tx : Transaction) : Limits :=
  let gas := min (c.limits.gas.toNat + tx.gas.toInt.toNat) (UInt64.size - 1)
  { c.limits with gas := UInt64.ofNat gas }

end Config
end LedgerVM
