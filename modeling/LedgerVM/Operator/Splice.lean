import LedgerVM.Machine.Limits
import LedgerVM.Operator.Workbench

/-!
# Byte strings

Joining and cutting byte strings.  A cut that reaches past the end takes what is there, but taking
more bytes from the right than there are is out of range.
-/

namespace LedgerVM

/-- Runs an operator on byte strings. -/
def SpliceOperator.run (limits : Limits) : SpliceOperator → Operation Unit
  | cat => do
    let second ← .popBytes
    let first ← .popBytes
    let size := first.length + second.length
    if limits.itemSize < size then throw (.itemTooLarge size limits.itemSize)
    .pushBytes (first ++ second)
  | substr => do
    let count ← .popIndex
    let index ← .popIndex
    let bytes ← .popBytes
    .pushBytes ((bytes.drop index).take count)
  | left => do
    let count ← .popIndex
    let bytes ← .popBytes
    .pushBytes (bytes.take count)
  | right => do
    let count ← .popIndex
    let bytes ← .popBytes
    if bytes.length < count then throw (.indexOutOfRange (wrapInt64 count) bytes.length)
    .pushBytes (bytes.drop (bytes.length - count))
  | size => do .pushNumber (wrapInt64 (← .popBytes).length)

end LedgerVM
