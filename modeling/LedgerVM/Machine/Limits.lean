/-!
# Limits of a run

What bounds a run: the number of items it may hold, how large they may be, how deep calls may nest,
how much gas it may use and, if asked for, how many instructions it may execute.
-/

namespace LedgerVM

/-- The limits of a run. -/
structure Limits where
  /-- Items on all stacks and in all slots, with the contents of collections. -/
  stackSize : Nat := 2048
  /-- Bytes in one byte string. -/
  itemSize : Nat := 1024 * 1024
  /-- Elements of one array or struct, or entries of one map. -/
  arraySize : Nat := 1024
  /-- Frames on the call stack. -/
  callDepth : Nat := 1024
  /-- Gas in units of `10⁻³`. -/
  gas : UInt64 := 10000
  /-- Executed instructions, if they are bounded. -/
  steps : Option Nat := none
  deriving DecidableEq, Repr, Inhabited

end LedgerVM
