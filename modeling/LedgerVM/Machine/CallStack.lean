import LedgerVM.Operator.Workbench

/-!
# Frames and calls

A frame is one level of a call: the script it runs, its place in it, its two stacks and its slots.
A call within a script makes a frame over the same script that shares the static slot; a call of
another contract makes one with a static slot of its own.  The frame on top of the call stack is the
one executing.

* `CallAction.onTop`: runs an operation on the evaluation stack of the executing frame.
* `CallStack.items`: every item that frames hold, each static slot counted once.
-/

namespace LedgerVM

/-- A script and the hash that names it. -/
structure Script where
  bytes : Bytes
  hash : Hash160
  deriving DecidableEq

/-- One level of a call. -/
structure Frame where
  script : Script
  /-- The position of the next instruction. -/
  pointer : Nat := 0
  /-- The evaluation stack, top first. -/
  stack : List Item := []
  /-- The alt stack, top first. -/
  alt : List Item := []
  locals : Option (List Item) := none
  arguments : Option (List Item) := none
  /-- Which of the static slots is this frame's. -/
  statics : Nat
  /-- The frame threw an exception. -/
  thrown : Bool := false

/-- The frames, executing one first, with their static slots and the heap of their items. -/
structure CallStack where
  frames : List Frame := []
  statics : Array (Option (List Item)) := #[]
  heap : Heap := {}

/-- An action on the call stack. -/
abbrev CallAction (α : Type) := Action CallStack α

namespace Frame

/-- The items of a frame, without those of its static slot. -/
def items (f : Frame) : List Item := f.stack ++ f.alt ++ f.locals.getD [] ++ f.arguments.getD []

/-- The name of the script and the position in it. -/
def location (f : Frame) : Hash160 × Nat := (f.script.hash, f.pointer)

/-- The position that a jump leads to: the end of the script is one, anything beyond it is not. -/
def target (f : Frame) (target : Int) : Except Fault Nat :=
  if target < 0 ∨ f.script.bytes.length < target then
    .error (.invalidJump target f.script.bytes.length)
  else .ok target.toNat

end Frame

namespace CallStack

/-- The hash of the executing frame's script. -/
def executing? (c : CallStack) : Option Hash160 := c.frames.head?.map (·.script.hash)

/-- The hash of the script that called the executing frame. -/
def calling? (c : CallStack) : Option Hash160 := c.frames[1]?.map (·.script.hash)

/-- The hash of the outermost frame's script. -/
def entry? (c : CallStack) : Option Hash160 := c.frames.getLast?.map (·.script.hash)

/-- The items of the static slots of the frames, each slot once. -/
def staticItems (c : CallStack) : List Item :=
  (c.frames.map (·.statics)).eraseDups.flatMap fun ref => (c.statics.getD ref none).getD []

/-- Every item that the frames hold. -/
def items (c : CallStack) : List Item := c.frames.flatMap Frame.items ++ c.staticItems

end CallStack

namespace CallAction

/-- The executing frame. -/
def top : CallAction Frame := fun c =>
  match c.frames with
  | frame :: _ => .ok frame c
  | [] => .error .noFrame c

/-- Replaces the executing frame. -/
def setTop (frame : Frame) : CallAction Unit := fun c =>
  match c.frames with
  | _ :: rest => .ok () { c with frames := frame :: rest }
  | [] => .error .noFrame c

/-- Changes the executing frame. -/
def modifyTop (f : Frame → Frame) : CallAction Unit := do setTop (f (← top))

/-- Runs an operation on the evaluation stack of the executing frame. -/
def onTop {α : Type} (operation : Operation α) : CallAction α := fun c =>
  match c.frames with
  | [] => .error .noFrame c
  | frame :: rest =>
    match operation { stack := frame.stack, heap := c.heap } with
    | .ok a w => .ok a { c with frames := { frame with stack := w.stack } :: rest, heap := w.heap }
    | .error fault w =>
      .error fault { c with frames := { frame with stack := w.stack } :: rest, heap := w.heap }

/-! ### Frames -/

/-- Puts a frame on the call stack unless that is full. -/
def pushFrame (maxDepth : Nat) (frame : Frame) : CallAction Unit := fun c =>
  if maxDepth ≤ c.frames.length then .error (.callDepth maxDepth) c
  else .ok () { c with frames := frame :: c.frames }

/-- Takes the executing frame off the call stack. -/
def popFrame : CallAction Frame := fun c =>
  match c.frames with
  | frame :: rest => .ok frame { c with frames := rest }
  | [] => .error .noFrame c

/-- Makes a frame at the start of a script, with a static slot of its own. -/
def newFrame (script : Script) (stack : List Item) : CallAction Frame := fun c =>
  .ok { script, stack, statics := c.statics.size } { c with statics := c.statics.push none }

/-- Moves the executing frame to a position of its script. -/
def jump (target : Int) : CallAction Unit := do
  let frame ← top
  let pointer ← Action.ofExcept (frame.target target)
  setTop { frame with pointer }

/-- Takes the executing frame's evaluation stack away from it. -/
def takeStack : CallAction (List Item) := do
  let frame ← top
  setTop { frame with stack := [] }
  return frame.stack

/-- Marks that the executing frame threw an exception. -/
def markThrown : CallAction Unit := modifyTop ({ · with thrown := true })

/-! ### The alt stack -/

/-- Puts an item on the alt stack. -/
def pushAlt (item : Item) : CallAction Unit := modifyTop fun f => { f with alt := item :: f.alt }

/-- The top item of the alt stack. -/
def peekAlt : CallAction Item := do
  match (← top).alt with
  | item :: _ => return item
  | [] => throw .stackUnderflow

/-- Takes the top item of the alt stack. -/
def popAlt : CallAction Item := do
  let frame ← top
  match frame.alt with
  | item :: rest =>
    setTop { frame with alt := rest }
    return item
  | [] => throw .stackUnderflow

/-! ### Slots -/

/-- The variables of one of the executing frame's slots, if that is set up. -/
def slot? (kind : SlotKind) : CallAction (Option (List Item)) := do
  let frame ← top
  match kind with
  | .local => return frame.locals
  | .argument => return frame.arguments
  | .static => return (← get).statics.getD frame.statics none

/-- Replaces the variables of one of the executing frame's slots. -/
def setSlot (kind : SlotKind) (values : List Item) : CallAction Unit := do
  let frame ← top
  match kind with
  | .local => setTop { frame with locals := some values }
  | .argument => setTop { frame with arguments := some values }
  | .static =>
    modify fun c => { c with statics := c.statics.setIfInBounds frame.statics (some values) }

/-- Sets up the static slot, every variable false. -/
def initStatic (count : Nat) : CallAction Unit := do
  if (← slot? .static).isSome then throw (.refused .staticSlotInitialized)
  setSlot .static (List.replicate count (.boolean false))

/-- Sets up the local slot, every variable false, and moves items from the evaluation stack into the
argument slot, top item first. -/
def initSlots (locals arguments : Nat) : CallAction Unit := do
  let frame ← top
  if frame.locals.isSome || frame.arguments.isSome then throw (.refused .slotsInitialized)
  if locals ≠ 0 then setSlot .local (List.replicate locals (.boolean false))
  if arguments ≠ 0 then setSlot .argument (← onTop (.popMany arguments))

/-- The variables of a slot that is set up. -/
def slot (kind : SlotKind) : CallAction (List Item) := do
  match ← slot? kind with
  | some values => return values
  | none => throw .slotNotInitialized

/-- The value of a variable. -/
def load (kind : SlotKind) (index : Nat) : CallAction Item := do
  let values ← slot kind
  match values[index]? with
  | some item => return item
  | none => throw (.slotOutOfRange index values.length)

/-- Sets the value of a variable. -/
def store (kind : SlotKind) (index : Nat) (item : Item) : CallAction Unit := do
  let values ← slot kind
  if index < values.length then setSlot kind (values.set index item)
  else throw (.slotOutOfRange index values.length)

end CallAction
end LedgerVM
