import LedgerVM.Machine.Execute
import LedgerVM.Script.Decode

/-!
# One step

A step fetches an instruction, checks the bound on steps, charges the price, executes the
instruction and checks how many items the machine holds.  Whichever of these fails first is the
fault of the run.

* `Machine.step`: one instruction.
* `Machine.advance`: one instruction with what becomes of the machine's status.
-/

namespace LedgerVM.Machine

/-- The number of public keys on top of the stack: the length of an array or struct, or a count.
What is no count stands for none. -/
def multisigKeys : Operation Nat := do
  match ← .peek 0 with
  | .array ref | .struct ref => return ((← Operation.heap).list ref).length
  | item => return (index? (← Action.ofExcept item.toInteger)).getD 0

/-- The price of an instruction on the stack as it is before. -/
def price (schedule : GasSchedule) : Instruction → MachineAction UInt64
  | .syscall id => do .onStack ((← .findService id).price schedule)
  | .operate .checkMultisig => do return schedule.multisigPrice (← .onStack multisigKeys)
  | instruction => return schedule.instructionPrice instruction

/-- Reads the next instruction and its size, and remembers where it stands. -/
def fetch : MachineAction (Instruction × Nat) := do
  let frame ← .onCalls .top
  modify fun m => { m with cursor := some frame.location }
  Action.ofExcept (decode frame.script.bytes frame.pointer)

/-- Fails once as many instructions were executed as the limits allow. -/
def checkSteps (limits : Limits) : MachineAction Unit := do
  match limits.steps with
  | some limit => if limit ≤ (← get).steps then throw (.stepLimit limit)
  | none => return

/-- Debits the price of an instruction and counts it. -/
def charge (schedule : GasSchedule) (instruction : Instruction) : MachineAction Unit := do
  let price ← price schedule instruction
  let gas ← Action.ofExcept ((← get).gas.charge price)
  modify fun m => { m with gas, steps := m.steps + 1 }

/-- Fails if the machine holds more items than the limits allow. -/
def checkSize (limits : Limits) : MachineAction Unit := do
  let size := (← get).size
  if limits.stackSize < size then throw (.stackOverflow size limits.stackSize)

/-- Executes one instruction. -/
def step (setting : Setting) : MachineAction Unit := do
  let (instruction, size) ← fetch
  checkSteps setting.limits
  charge setting.schedule instruction
  let frame ← .onCalls .top
  .onCalls (.setTop { frame with pointer := frame.pointer + size })
  instruction.execute setting frame.pointer
  checkSize setting.limits

/-- Stops a running machine whose next instruction is at a breakpoint. -/
def stopAtBreakpoint (m : Machine) : Machine :=
  match m.status, m.location? with
  | .running, some location =>
    if m.breakpoints.any (· = location) then { m with status := .paused }
    else m
  | _, _ => m

/-- Executes one instruction.  A machine without frames halts, a failed step is a fault, and a
machine that can go on stops at a breakpoint. -/
def advance (setting : Setting) (m : Machine) : Machine :=
  if m.calls.frames.isEmpty then { m with status := .halted }
  else
    match (step setting).run m with
    | .ok () m => m.stopAtBreakpoint
    | .error fault m => m.faultWith fault

end LedgerVM.Machine
