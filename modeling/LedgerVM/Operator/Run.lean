import LedgerVM.Hashing.Script
import LedgerVM.Hashing.Sha1
import LedgerVM.Item.Equality
import LedgerVM.Operator.Collection
import LedgerVM.Operator.Multisig
import LedgerVM.Operator.Splice
import LedgerVM.Operator.Stack

/-!
# Running operators

Every operator takes its operands from the evaluation stack and leaves its result there.
-/

namespace LedgerVM

/-- The digest of a byte string under a hash function. -/
def HashFunction.apply : HashFunction → Bytes → Bytes
  | sha1, data => (Hashing.sha1 data).bytes
  | sha256, data => (Hashing.sha256 data).bytes
  | hash160, data => (Hashing.hash160 data).bytes
  | hash256, data => (Hashing.hash256 data).bytes

/-- Runs an operator within the limits of a run that serves `transaction`.  A shift by zero leaves
the item to be shifted as it is. -/
def Operator.run (limits : Limits) (transaction : Option Transaction) : Operator → Operation Unit
  | stack op => op.run
  | splice op => op.run limits
  | equal => do
    let b ← .pop
    let a ← .pop
    .pushBool (← Action.ofExcept ((← Operation.heap).equal a b))
  | unary op => do .pushInteger (op.apply (← .popInteger))
  | binary op => do
    let (a, b) ← .popPair
    .pushInteger (← Action.ofExcept (op.apply a b))
  | shift toLeft => do
    let shift ← .popShift
    if shift ≠ 0 then .pushInteger (shiftLeft (← .popInteger) (if toLeft then shift else -shift))
  | compare op => do
    let (a, b) ← .popPair
    .pushBool (op.holds a b)
  | not => do .pushBool !(← .popBool)
  | nonzero => do .pushBool ((← .popInteger) ≠ 0)
  | boolAnd => do
    let b ← .popBool
    let a ← .popBool
    .pushBool (a && b)
  | boolOr => do
    let b ← .popBool
    let a ← .popBool
    .pushBool (a || b)
  | within => do
    let upper ← .popInteger
    let lower ← .popInteger
    let x ← .popInteger
    .pushBool (lower ≤ x && x < upper)
  | hash function => do .pushBytes (function.apply (← .popBytes))
  | checkSig => .checkSig transaction
  | verify => .verify
  | checkMultisig => .checkMultisig transaction
  | collection op => op.run limits

end LedgerVM
