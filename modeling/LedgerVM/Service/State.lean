import LedgerVM.Machine.Setting
import LedgerVM.Operator.Workbench

/-!
# What services act on

A service acts on the evaluation stack of the frame that calls it and on the effects of the run: the
changes it wants in the store, its notifications and its log.  The rest of the machine is out of its
reach; of the frames it sees the hashes alone.
-/

namespace LedgerVM

/-- An item that a script announced. -/
structure Notification where
  scriptHash : Hash160
  item : Item

/-- A message that a script logged. -/
structure LogEntry where
  scriptHash : Hash160
  message : String
  deriving DecidableEq

/-- What a run does besides computing: pending changes of the store, notifications and log
messages. -/
structure Effects where
  changes : ChangeSet := {}
  notifications : List Notification := []
  logs : List LogEntry := []

/-- The stack of the calling frame and the effects of the run. -/
structure ServiceState where
  bench : Workbench
  effects : Effects

/-- What a service does. -/
abbrev ServiceAction (α : Type) := Action ServiceState α

/-- What a service knows of the run: its setting and the scripts of the executing frame, of the one
that called it and of the outermost one. -/
structure ServiceContext where
  setting : Setting
  executing : Hash160
  calling : Option Hash160
  entry : Hash160

namespace ServiceAction

/-- Acts on the evaluation stack alone. -/
def onBench {α : Type} (operation : Operation α) : ServiceAction α :=
  Action.within ServiceState.bench (fun s bench => { s with bench }) operation

/-- Looks at the pending changes. -/
def changes : ServiceAction ChangeSet := fun s => .ok s.effects.changes s

/-- Changes the effects of the run. -/
def modifyEffects (f : Effects → Effects) : ServiceAction Unit := fun s =>
  .ok () { s with effects := f s.effects }

end ServiceAction

/-- The value of a ledger look-up; a failing ledger is a fault. -/
def Operation.lookUp {α : Type} (answer : Except LedgerError α) : Operation α :=
  Action.ofExcept (answer.mapError .ledger)

/-- Puts a handle on top. -/
def Operation.pushHandle (entity : Entity) (origin : Origin) : Operation Unit :=
  .push (.interface { entity, origin })

/-- Puts a fresh handle on top. -/
def Operation.pushFresh (entity : Entity) : Operation Unit := do
  .push (.interface (← .newHandle entity))

/-- Puts an array on top whose size the limits bound. -/
def Operation.pushBounded (limits : Limits) (items : List Item) : Operation Unit :=
  if limits.arraySize < items.length then throw (.arrayTooLarge items.length limits.arraySize)
  else .pushArray items

end LedgerVM
