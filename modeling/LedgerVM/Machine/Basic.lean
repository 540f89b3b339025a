import LedgerVM.Hashing.Script
import LedgerVM.Item.Tally
import LedgerVM.Machine.CallStack
import LedgerVM.Service.State

/-!
# The machine

A machine runs one invocation: it holds the call stack, the results once the outermost frame has
returned, the gas meter, the effects of the run, and where and why the run ended if it faulted.

* `Machine.loadScript`, `Machine.load`: put a script on the call stack.
* `Machine.faultWith`: what a fault leaves.
* `Machine.outcomeChanges`, `Machine.commit`: the changes that survive the run.
-/

namespace LedgerVM

/-- Whether a machine can go on. -/
inductive Status where
  /-- It can. -/
  | running
  /-- The outermost frame returned. -/
  | halted
  /-- An instruction failed. -/
  | faulted
  /-- It was stopped by a breakpoint or after a step, and can go on. -/
  | paused
  deriving DecidableEq, Repr

namespace Status

/-- The name of a status in receipts. -/
def name : Status → String
  | running => "None"
  | halted => "Halt"
  | faulted => "Fault"
  | paused => "Break"

/-- The run is over. -/
def isTerminal (s : Status) : Bool := s = halted || s = faulted

end Status

/-- The hash of a script and a position in it. -/
abbrev Location := Hash160 × Nat

/-- A run in progress or at its end. -/
structure Machine where
  status : Status := .running
  calls : CallStack := {}
  /-- The evaluation stack of the last frame to return, bottom first. -/
  results : List Item := []
  gas : GasMeter
  /-- The number of instructions executed. -/
  steps : Nat := 0
  effects : Effects := {}
  breakpoints : List Location := []
  /-- The instruction that was fetched last. -/
  cursor : Option Location := none
  fault : Option Fault := none
  faultLocation : Option Location := none

/-- An action on a machine. -/
abbrev MachineAction (α : Type) := Action Machine α

namespace MachineAction

/-- Acts on the call stack alone. -/
def onCalls {α : Type} (action : CallAction α) : MachineAction α :=
  Action.within Machine.calls (fun m calls => { m with calls }) action

/-- Acts on the evaluation stack of the executing frame alone. -/
def onStack {α : Type} (operation : Operation α) : MachineAction α := onCalls (.onTop operation)

end MachineAction

namespace Machine

/-- The machine before anything is loaded, with the heap that the arguments of its scripts live
in. -/
def initial (limits : Limits) (heap : Heap) : Machine :=
  { gas := { limit := limits.gas }, calls := { heap } }

/-- Puts a script on the call stack.  Its hash is computed from its bytes. -/
def loadScript (limits : Limits) (script : Bytes) : MachineAction Unit := .onCalls do
  .pushFrame limits.callDepth (← .newFrame { bytes := script, hash := Hashing.hash160 script } [])

/-- Puts a script on the call stack, moves to its entry point, which is read as a signed 64-bit
number, and puts the arguments on its stack, the first uppermost. -/
def load (limits : Limits) (script : Bytes) (entry : Nat) (arguments : List Item) :
    MachineAction Unit := do
  loadScript limits script
  .onCalls (.jump (wrapInt64 entry))
  .onStack (.pushAll arguments)

/-- Every item on stacks, in slots and among the results. -/
def items (m : Machine) : List Item := m.calls.items ++ m.results

/-- The number of items the machine holds, with the contents of collections. -/
def size (m : Machine) : Nat := m.calls.heap.countItems m.items

/-- Where the executing frame stands. -/
def location? (m : Machine) : Option Location := m.calls.frames.head?.map Frame.location

/-- Ends the run with a fault: frames, results, notifications and pending changes are dropped; the
log, the gas used and the number of steps stay. -/
def faultWith (fault : Fault) (m : Machine) : Machine :=
  { m with
    status := .faulted
    calls := { m.calls with frames := [] }
    results := []
    effects := { m.effects with notifications := [], changes := {} }
    fault := some fault
    faultLocation := m.cursor }

/-- Announces an item. -/
def notify (scriptHash : Hash160) (item : Item) (m : Machine) : Machine :=
  let notifications := m.effects.notifications ++ [⟨scriptHash, item⟩]
  { m with effects := { m.effects with notifications } }

/-- Logs a message. -/
def log (scriptHash : Hash160) (message : String) (m : Machine) : Machine :=
  { m with effects := { m.effects with logs := m.effects.logs ++ [{ scriptHash, message }] } }

/-- The changes that survive the run: those of a machine that halted. -/
def outcomeChanges (m : Machine) : ChangeSet := if m.status = .halted then m.effects.changes else {}

/-- Commits the changes of a machine that halted and says how many entries were written or
deleted. -/
def commit (m : Machine) (store : Store) : Except Fault (Nat × Store) :=
  if m.status = .halted then (m.effects.changes.commitTo store).mapError .store
  else .error (.refused .commitBeforeHalt)

/-- Stops the run whenever the next instruction is at a location. -/
def addBreakpoint (location : Location) (m : Machine) : Machine :=
  if location ∈ m.breakpoints then m else { m with breakpoints := location :: m.breakpoints }

/-- Takes a breakpoint away. -/
def removeBreakpoint (location : Location) (m : Machine) : Machine :=
  { m with breakpoints := m.breakpoints.filter (· ≠ location) }

end Machine
end LedgerVM
