import LedgerVM.Item.Coercion
import LedgerVM.Item.Copy
import LedgerVM.Operator.Arithmetic

/-!
# Operations on the evaluation stack

An action changes a state and either gives a value or ends in a fault; a fault keeps what was
changed before it.  Operators act on a workbench: an evaluation stack and the heap its items live
in.

* `Action.within`: runs an action on a part of a larger state.
* `Operation.pop`, `Operation.push` and the other ways to the stack; each checks that the stack is
  deep enough.
-/

namespace LedgerVM

/-- Changes a state and gives a value or a fault. -/
abbrev Action (σ α : Type) := EStateM Fault σ α

namespace Action

variable {σ τ α : Type}

/-- The value of a computation without a state. -/
def ofExcept (x : Except Fault α) : Action σ α := fun s =>
  match x with
  | .ok a => .ok a s
  | .error fault => .error fault s

/-- Runs an action on a part of a state. -/
def within (part : σ → τ) (replace : σ → τ → σ) (action : Action τ α) : Action σ α := fun s =>
  match action (part s) with
  | .ok a t => .ok a (replace s t)
  | .error fault t => .error fault (replace s t)

end Action

/-- An evaluation stack, top first, and the heap its items live in. -/
structure Workbench where
  stack : List Item
  heap : Heap

/-- An action on the evaluation stack. -/
abbrev Operation (α : Type) := Action Workbench α

namespace Operation

/-! ### The stack -/

/-- Puts an item on top. -/
def push (item : Item) : Operation Unit := fun w => .ok () { w with stack := item :: w.stack }

/-- Puts items on top, the first of them uppermost. -/
def pushAll (items : List Item) : Operation Unit :=
  fun w => .ok () { w with stack := items ++ w.stack }

/-- Takes the top item. -/
def pop : Operation Item := fun w =>
  match w.stack with
  | item :: rest => .ok item { w with stack := rest }
  | [] => .error .stackUnderflow w

/-- Looks at the item `n` places below the top. -/
def peek (n : Nat) : Operation Item := fun w =>
  match w.stack[n]? with
  | some item => .ok item w
  | none => .error .stackUnderflow w

/-- Takes the item `n` places below the top. -/
def removeAt (n : Nat) : Operation Item := fun w =>
  match w.stack[n]? with
  | some item => .ok item { w with stack := w.stack.eraseIdx n }
  | none => .error .stackUnderflow w

/-- Puts an item `n` places below the top. -/
def insertAt (n : Nat) (item : Item) : Operation Unit := fun w =>
  if n ≤ w.stack.length then .ok () { w with stack := w.stack.insertIdx n item }
  else .error .stackUnderflow w

/-- Swaps the top item with the one `n` places below it. -/
def swapAt (n : Nat) : Operation Unit := fun w =>
  match w.stack[0]?, w.stack[n]? with
  | some top, some item => .ok () { w with stack := (w.stack.set 0 item).set n top }
  | _, _ => .error .stackUnderflow w

/-- Takes `n` items, top first.  If there are too few, those there are taken all the same. -/
def popMany (n : Nat) : Operation (List Item) := fun w =>
  if n ≤ w.stack.length then .ok (w.stack.take n) { w with stack := w.stack.drop n }
  else .error .stackUnderflow { w with stack := [] }

/-- The number of items. -/
def depth : Operation Nat := fun w => .ok w.stack.length w

/-! ### Operands -/

/-- Takes the top item's bytes. -/
def popBytes : Operation Bytes := do Action.ofExcept (← pop).toBytes

/-- Takes the top item's truth value. -/
def popBool : Operation Bool := do return (← pop).toBool

/-- Takes the top item's integer. -/
def popInteger : Operation Int := do Action.ofExcept (← pop).toInteger

/-- Takes two integers; the one on top is the second. -/
def popPair : Operation (Int × Int) := do
  let b ← popInteger
  let a ← popInteger
  return (a, b)

/-- Takes a count or an index. -/
def popIndex : Operation Nat := do
  let value ← popInteger
  match index? value with
  | some n => return n
  | none => throw (.indexOutOfRange (int64Or minInt64 value) 0)

/-- Takes the number of places to shift by. -/
def popShift : Operation Int := do
  let shift ← popInteger
  if -shiftLimit ≤ shift ∧ shift ≤ shiftLimit then return shift
  else throw (.shiftOutOfRange (clampInt64 shift) shiftLimit)

/-- Takes a hash of 20 bytes. -/
def popHash160 : Operation Hash160 := do
  match Digest.ofBytes? 20 (← popBytes) with
  | some hash => return hash
  | none => throw (.refused .hash160Width)

/-- Takes a hash of 32 bytes. -/
def popHash256 : Operation Hash256 := do
  match Digest.ofBytes? 32 (← popBytes) with
  | some hash => return hash
  | none => throw (.refused .hash256Width)

/-! ### Results -/

/-- Puts a truth value on top. -/
def pushBool (value : Bool) : Operation Unit := push (.boolean value)

/-- Puts bytes on top. -/
def pushBytes (bytes : Bytes) : Operation Unit := push (.byteArray bytes)

/-- Puts a number on top that is known to be small. -/
def pushNumber (value : Int) : Operation Unit := push (.integer value)

/-- Puts the result of arithmetic on top, unless it is too wide for an integer. -/
def pushInteger (value : Int) : Operation Unit :=
  if Item.integerBytes < (Bytes.ofInt value).length then throw (.integerOverflow Item.integerBytes)
  else push (.integer value)

/-! ### The heap -/

/-- Looks at the heap. -/
def heap : Operation Heap := fun w => .ok w.heap w

/-- Changes the heap. -/
def modifyHeap (f : Heap → Heap) : Operation Unit := fun w => .ok () { w with heap := f w.heap }

/-- Adds a list to the heap. -/
def newList (items : List Item) : Operation Nat := fun w =>
  let (ref, heap) := w.heap.newList items
  .ok ref { w with heap }

/-- Puts a new array on top. -/
def pushArray (items : List Item) : Operation Unit := do push (.array (← newList items))

/-- Makes a fresh handle. -/
def newHandle (entity : Entity) : Operation Handle := fun w =>
  let (handle, heap) := w.heap.newHandle entity
  .ok handle { w with heap }

/-- Copies an item. -/
def duplicate (item : Item) : Operation Item := fun w =>
  match w.heap.duplicate item with
  | .ok (copy, heap) => .ok copy { w with heap }
  | .error fault => .error fault w

end Operation
end LedgerVM
