import LedgerVM.Operator.Workbench

/-!
# Rearranging the stack

Copies made by these operators are duplicates: structs are copied and other collections shared.
Rolling by zero places moves nothing and asks for no item.
-/

namespace LedgerVM

/-- Runs a rearrangement. -/
def StackOperator.run : StackOperator → Operation Unit
  | xdrop => do
    let n ← .popIndex
    let _ ← .removeAt n
  | xswap => do .swapAt (← .popIndex)
  | xtuck => do
    let n ← .popIndex
    if n = 0 then throw (.refused .tuckIndexZero)
    .insertAt n (← .duplicate (← .peek 0))
  | depth => do .pushNumber (wrapInt64 (← Operation.depth))
  | drop => do let _ ← .pop
  | dup => do .push (← .duplicate (← .peek 0))
  | nip => do let _ ← .removeAt 1
  | copyOver => do .push (← .duplicate (← .peek 1))
  | pick => do
    let n ← .popIndex
    .push (← .duplicate (← .peek n))
  | roll => do
    let n ← .popIndex
    if n ≠ 0 then .push (← .removeAt n)
  | rot => do .push (← .removeAt 2)
  | swap => .swapAt 1
  | tuck => do .insertAt 2 (← .duplicate (← .peek 0))

end LedgerVM
