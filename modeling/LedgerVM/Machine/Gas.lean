import LedgerVM.Fault
import LedgerVM.Script.Instruction

/-!
# Gas

Every instruction costs gas.  The schedule holds the prices, in units of `10⁻³`; the meter debits
them from the budget of a run and refuses a price that the rest of the budget does not cover.

* `GasSchedule.instructionPrice`: the price of an instruction that does not hang on the stack.
* `GasSchedule.multisigPrice`, `GasSchedule.storagePutPrice`: prices by the amount of work, at most
  `2 ^ 64 - 1`.
* `GasMeter.charge`: debits a price or leaves the meter as it was.
-/

namespace LedgerVM

/-- The prices of instructions. -/
structure GasSchedule where
  push : UInt64 := 0
  instruction : UInt64 := 1
  appCall : UInt64 := 10
  sha : UInt64 := 10
  hash : UInt64 := 20
  checkSig : UInt64 := 100
  checkMultisigPerKey : UInt64 := 100
  syscall : UInt64 := 1
  storagePutPerKib : UInt64 := 1000
  deriving DecidableEq, Repr, Inhabited

/-- The product of a price and a count, or the largest price if it exceeds it. -/
def saturatingPrice (price : UInt64) (count : Nat) : UInt64 :=
  UInt64.ofNat (min (price.toNat * count) (UInt64.size - 1))

namespace GasSchedule

/-- The price of an operator by its kind. -/
def operatorPrice (s : GasSchedule) : Operator → UInt64
  | .hash .sha1 | .hash .sha256 => s.sha
  | .hash .hash160 | .hash .hash256 => s.hash
  | .checkSig | .verify => s.checkSig
  | _ => s.instruction

/-- The price of an instruction by its kind. -/
def instructionPrice (s : GasSchedule) : Instruction → UInt64
  | .pushBytes _ | .pushInt _ | .nop => s.push
  | .appCall .. => s.appCall
  | .syscall _ => s.syscall
  | .operate op => s.operatorPrice op
  | _ => s.instruction

/-- The price of checking signatures against a number of keys. -/
def multisigPrice (s : GasSchedule) (keys : Nat) : UInt64 :=
  if keys = 0 then s.instruction else saturatingPrice s.checkMultisigPerKey keys

/-- The price of writing a storage entry: one for each kibibyte of key and value that is begun, and
at least one. -/
def storagePutPrice (s : GasSchedule) (keyLength valueLength : Nat) : UInt64 :=
  saturatingPrice s.storagePutPerKib (max 1 ((keyLength + valueLength + 1023) / 1024))

end GasSchedule

/-- The gas budget of a run and what was used of it. -/
structure GasMeter where
  limit : UInt64
  consumed : UInt64 := 0
  deriving DecidableEq, Repr

namespace GasMeter

/-- What is left of the budget. -/
def remaining (m : GasMeter) : UInt64 := m.limit - m.consumed

/-- Debits a price that the rest of the budget covers. -/
def charge (m : GasMeter) (price : UInt64) : Except Fault GasMeter :=
  if m.remaining < price then .error (.insufficientGas price m.remaining)
  else .ok { m with consumed := m.consumed + price }

end GasMeter
end LedgerVM
