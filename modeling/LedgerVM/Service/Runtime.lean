import LedgerVM.Bytes.Lossy
import LedgerVM.Service.Basic
import LedgerVM.Service.Witness

/-!
# Services about the run

The trigger, the time, witnesses, notifications and the log; the scripts on the call stack and the
transaction that the run serves.
-/

namespace LedgerVM

/-- The seconds between two blocks. -/
def blockSeconds : Nat := 15

/-- The time of the run: that of the block being persisted, or else one block after the last. -/
def Setting.time (setting : Setting) : Except LedgerError Nat :=
  match setting.persisting with
  | some block => .ok block.header.timestamp.toNat
  | none => do
    let current ← setting.ledger.currentBlock
    return min (current.header.timestamp.toNat + blockSeconds) (UInt32.size - 1)

/-- Whether the popped witness must witness the transaction of the run. -/
def Operation.checkWitness (setting : Setting) : Operation Unit := do
  let hash ← Action.ofExcept (witnessHash (← .popBytes))
  match setting.transaction with
  | some tx => .pushBool ((← Action.ofExcept (setting.ledger.witnesses tx)).contains hash)
  | none => throw (.refused .noContainer)

/-- Runs a service that reports on the run. -/
def RuntimeService.run (context : ServiceContext) : RuntimeService → ServiceAction Unit
  | getTrigger => .onBench (.pushNumber context.setting.trigger.number)
  | checkWitness => .onBench (.checkWitness context.setting)
  | notify => do
    let item ← .onBench .pop
    .modifyEffects fun e =>
      { e with notifications := e.notifications ++ [{ scriptHash := context.executing, item }] }
  | log => do
    let message ← .onBench .popBytes
    .modifyEffects fun e =>
      let entry : LogEntry := { scriptHash := context.executing, message := message.toTextLossy }
      { e with logs := e.logs ++ [entry] }
  | getTime => .onBench do .pushNumber (← .lookUp context.setting.time)

/-- Where the transaction that the run serves was obtained. -/
def Setting.containerOrigin (setting : Setting) : Origin :=
  (setting.place.map TransactionPlace.origin).getD .container

/-- Runs a service that reports on frames and the transaction of the run. -/
def EngineService.run (context : ServiceContext) : EngineService → Operation Unit
  | getScriptContainer =>
    match context.setting.transaction with
    | some tx => .pushHandle (.transaction tx) context.setting.containerOrigin
    | none => throw (.refused .noContainer)
  | getExecutingScriptHash => .pushBytes context.executing.bytes
  | getCallingScriptHash => .pushBytes ((context.calling.map Digest.bytes).getD [])
  | getEntryScriptHash => .pushBytes context.entry.bytes

end LedgerVM
