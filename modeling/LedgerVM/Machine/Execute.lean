import LedgerVM.Machine.Basic
import LedgerVM.Operator.Run
import LedgerVM.Service.Run

/-!
# Executing instructions

By the time an instruction is executed it has been paid for and the executing frame already points
behind it, so that control flow only has to move that pointer.  Offsets count from the instruction
itself.

* `MachineAction.call`, `MachineAction.ret`, `MachineAction.appCall`: how frames come and go.  The
  evaluation stack is handed over as a whole.
* `Instruction.execute`: what each instruction does.
-/

namespace LedgerVM

namespace MachineAction

/-- Calls a position of the executing script: a new frame takes over the evaluation stack and shares
the static slot. -/
def call (limits : Limits) (target : Int) : MachineAction Unit := .onCalls do
  let frame ← .top
  let pointer ← Action.ofExcept (frame.target target)
  let stack ← .takeStack
  .pushFrame limits.callDepth { script := frame.script, pointer, stack, statics := frame.statics }

/-- Returns from the executing frame.  Its evaluation stack goes on top of its caller's; that of the
outermost frame becomes the result, and the machine halts. -/
def ret : MachineAction Unit := do
  let frame ← onCalls .popFrame
  if (← get).calls.frames.isEmpty then
    modify fun m => { m with results := m.results ++ frame.stack.reverse, status := .halted }
  else onStack (.pushAll frame.stack)

/-- Only a deployed contract that was granted it may call a contract whose hash it computes. -/
def checkDynamicInvoke (ledger : Ledger) : MachineAction Unit := do
  let frame ← onCalls .top
  match ← Action.ofExcept ((ledger.contract frame.script.hash).mapError .ledger) with
  | some contract => if !contract.properties.hasDynamicInvoke then throw (.refused .dynamicInvoke)
  | none => throw (.refused .dynamicInvoke)

/-- The contract to call: the zero hash stands for a hash on the stack. -/
def callTarget (ledger : Ledger) (target : Hash160) : MachineAction Hash160 := do
  if target.isZero then
    checkDynamicInvoke ledger
    match Digest.ofBytes? 20 (← onStack .popBytes) with
    | some hash => return hash
    | none => throw (.refused .dynamicTargetWidth)
  else return target

/-- Calls a contract: a new frame over its script takes over the evaluation stack.  A tail call
takes the place of the executing frame. -/
def appCall (setting : Setting) (target : Hash160) (tail : Bool) : MachineAction Unit := do
  let hash ← callTarget setting.ledger target
  match ← Action.ofExcept ((setting.ledger.contract hash).mapError .ledger) with
  | none => throw (.contractNotFound hash.toHex)
  | some contract => .onCalls do
    let stack ← .takeStack
    let frame ← .newFrame { bytes := contract.script, hash } stack
    if tail then let _ ← .popFrame
    .pushFrame setting.limits.callDepth frame

/-- The service with an id. -/
def findService (id : UInt32) : MachineAction Service :=
  match Service.ofId? id with
  | some service => return service
  | none => throw (.unknownService id)

/-- Runs a service on the evaluation stack of the executing frame and the effects of the run. -/
def callService (setting : Setting) (service : Service) : MachineAction Unit := fun m =>
  match m.calls.frames with
  | [] => .error .noFrame m
  | frame :: rest =>
    let context : ServiceContext :=
      { setting
        executing := frame.script.hash
        calling := m.calls.calling?
        entry := m.calls.entry?.getD frame.script.hash }
    let replace (s : ServiceState) : Machine :=
      { m with
        calls := { m.calls with
          frames := { frame with stack := s.bench.stack } :: rest
          heap := s.bench.heap }
        effects := s.effects }
    let bench : Workbench := { stack := frame.stack, heap := m.calls.heap }
    match service.run context { bench, effects := m.effects } with
    | .ok () s => .ok () (replace s)
    | .error fault s => .error fault (replace s)

end MachineAction

/-- Executes an instruction that stands at a position of the executing script. -/
def Instruction.execute (setting : Setting) (position : Nat) : Instruction → MachineAction Unit
  | pushBytes data => do
    if setting.limits.itemSize < data.length then
      throw (.itemTooLarge data.length setting.limits.itemSize)
    .onStack (.pushBytes data)
  | pushInt value => .onStack (.pushNumber value)
  | nop => return
  | jump offset => .onCalls (.jump (position + offset))
  | jumpIf expected offset => .onCalls do
    let pointer ← Action.ofExcept ((← .top).target (position + offset))
    if (← .onTop .popBool) = expected then .modifyTop ({ · with pointer })
  | call offset => .call setting.limits (position + offset)
  | ret => .ret
  | appCall target tail => .appCall setting target tail
  | syscall id => do .callService setting (← .findService id)
  | dupFromAlt => .onCalls do
    let item ← .peekAlt
    .onTop do .push (← .duplicate item)
  | toAlt => .onCalls do .pushAlt (← .onTop .pop)
  | fromAlt => .onCalls do
    let item ← .popAlt
    .onTop (.push item)
  | operate op => .onStack (op.run setting.limits setting.transaction)
  | initStatic count => do
    if count = 0 then throw (.refused .staticSlotEmpty)
    .onCalls (.initStatic count)
  | initSlots locals arguments => do
    if locals = 0 ∧ arguments = 0 then throw (.refused .slotsEmpty)
    .onCalls (.initSlots locals arguments)
  | load slot index => .onCalls do
    let item ← .load slot index
    .onTop (.push item)
  | store slot index => .onCalls do .store slot index (← .onTop .pop)
  | raise => do
    .onCalls .markThrown
    throw .thrown
  | raiseUnless => do
    if !(← .onStack .popBool) then
      .onCalls .markThrown
      throw .thrown

end LedgerVM
