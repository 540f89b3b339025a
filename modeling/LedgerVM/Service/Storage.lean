import LedgerVM.Service.Basic
import LedgerVM.Service.State

/-!
# Contract storage services

A storage context is the only way to a contract's storage.  Reads see the pending changes of the
run; writes stay pending until the run is over.  Writing needs the application trigger, a context
that is not read-only and a deployed contract with storage.
-/

namespace LedgerVM

/-- The longest key of a storage entry. -/
def storageKeyLimit : Nat := 1024

/-- The contract of a context is deployed and has storage. -/
def Ledger.checkStorage (ledger : Ledger) (context : StorageContext) : Except Fault Unit := do
  match ← (ledger.contract context.scriptHash).mapError .ledger with
  | some contract =>
    if !contract.properties.hasStorage then throw (.refused .contractWithoutStorage)
  | none => throw (.contractNotFound context.scriptHash.toHex)

namespace Operation

/-- Takes a storage context. -/
def popContext : Operation StorageContext := do Action.ofExcept (← pop).toStorageContext

/-- Takes a context through which the run may write. -/
def popWritableContext (setting : Setting) : Operation StorageContext := do
  if setting.trigger ≠ .application then throw (.refused .verificationWrite)
  let context ← popContext
  if context.readOnly then throw (.refused .readOnlyContext)
  Action.ofExcept (setting.ledger.checkStorage context)
  return context

end Operation

/-- The price of a write, from the stack before it: the context is on top and the key and value
below it. -/
def GasSchedule.putPrice (schedule : GasSchedule) : Operation UInt64 := do
  let key ← Action.ofExcept (← .peek 1).toBytes
  let value ← Action.ofExcept (← .peek 2).toBytes
  return schedule.storagePutPrice key.length value.length

/-- Runs a storage service. -/
def StorageService.run (context : ServiceContext) : StorageService → ServiceAction Unit
  | getContext => .onBench (.pushFresh (.storageContext { scriptHash := context.executing }))
  | getReadOnlyContext =>
    .onBench (.pushFresh (.storageContext { scriptHash := context.executing, readOnly := true }))
  | asReadOnly => .onBench do .pushFresh (.storageContext (← .popContext).asReadOnly)
  | get => do
    let changes ← .changes
    .onBench do
      let owner ← .popContext
      Action.ofExcept (context.setting.ledger.checkStorage owner)
      let key : StoreKey := { contract := owner.scriptHash, key := ← .popBytes }
      let value ← Action.ofExcept ((changes.getOver context.setting.store key).mapError .store)
      .pushBytes (value.getD [])
  | put => do
    let (key, value) ← .onBench do
      let owner ← .popWritableContext context.setting
      let key ← .popBytes
      if storageKeyLimit < key.length then throw (.itemTooLarge key.length storageKeyLimit)
      return (({ contract := owner.scriptHash, key } : StoreKey), ← .popBytes)
    .modifyEffects fun e => { e with changes := e.changes.put key value }
  | delete => do
    let key ← .onBench do
      let owner ← .popWritableContext context.setting
      return ({ contract := owner.scriptHash, key := ← .popBytes } : StoreKey)
    .modifyEffects fun e => { e with changes := e.changes.delete key }

end LedgerVM
