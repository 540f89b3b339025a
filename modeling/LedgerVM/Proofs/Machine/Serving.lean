import LedgerVM.Machine.Run
import LedgerVM.Script.Assembly

/-!
# Steps that call services

A service is found by an id that is computed from its name.  Where it is known which service an id stands for, a step
that calls it pays for that service and runs it (`Machine.perform_syscall`), and a run is the same if some of the
services in it are found in a list of known ids (`Machine.execute_eq_runListed`).
-/

namespace LedgerVM

/-- The services of some ids. -/
def Service.listed : List (UInt32 × Service) :=
  [(0x0DD61884, .storage .getContext), (0xF541A152, .storage .put), (0x5DEF7CEF, .storage .delete),
    (0x1B9802EB, .chain .getValidators)]

theorem Service.ofId?_of_listed : ∀ entry ∈ listed, ofId? entry.1 = some entry.2 := by
  decide +kernel

namespace Machine

variable {setting : Setting}

/-- What a step does with the instruction that it has fetched. -/
def perform (setting : Setting) (i : Instruction) (size : Nat) : MachineAction Unit := do
  checkSteps setting.limits
  charge setting.schedule i
  let frame ← .onCalls .top
  .onCalls (.setTop { frame with pointer := frame.pointer + size })
  i.execute setting frame.pointer
  checkSize setting.limits

theorem step_eq_perform (setting : Setting) :
    step setting = (do let (i, size) ← fetch; perform setting i size : MachineAction Unit) := rfl

/-- What a step does at the call of a service. -/
def serve (setting : Setting) (service : Service) (size : Nat) : MachineAction Unit := do
  checkSteps setting.limits
  let price ← .onStack (service.price setting.schedule)
  let gas ← Action.ofExcept ((← get).gas.charge price)
  modify fun m => { m with gas, steps := m.steps + 1 }
  let frame ← .onCalls .top
  .onCalls (.setTop { frame with pointer := frame.pointer + size })
  .callService setting service
  checkSize setting.limits

/-- The call of an id is the call of its service. -/
theorem perform_syscall {id : UInt32} {service : Service} (hid : Service.ofId? id = some service) (size : Nat) :
    perform setting (.syscall id) size = serve setting service size := by
  have hfind : MachineAction.findService id = pure service := by
    rw [MachineAction.findService, hid]
  have hprice : price setting.schedule (.syscall id) = .onStack (service.price setting.schedule) := by
    show MachineAction.findService id >>= _ = _
    rw [hfind]
    rfl
  have hexecute (position : Nat) : (Instruction.syscall id).execute setting position = .callService setting service := by
    show MachineAction.findService id >>= _ = _
    rw [hfind]
    rfl
  unfold perform serve charge
  simp only [hprice, hexecute, bind_assoc]

/-! ### Runs with known services -/

/-- One step, with the services in the list at hand. -/
def stepListed (setting : Setting) : MachineAction Unit := do
  let (i, size) ← fetch
  match i with
  | .syscall id =>
    match Service.listed.lookup id with
    | some service => serve setting service size
    | none => perform setting (.syscall id) size
  | i => perform setting i size

theorem stepListed_eq : stepListed setting = step setting := by
  rw [step_eq_perform]
  refine congrArg (fetch >>= ·) (funext fun (i, size) => ?_)
  cases i with
  | syscall id =>
    show (match Service.listed.lookup id with
      | some service => serve setting service size
      | none => perform setting (.syscall id) size) = perform setting (.syscall id) size
    split
    · rename_i service hlookup
      obtain ⟨before, after, hlisted, -⟩ := List.lookup_eq_some_iff.1 hlookup
      have hmem : (id, service) ∈ Service.listed := by
        rw [hlisted]
        exact List.mem_append_right _ List.mem_cons_self
      exact (perform_syscall (Service.ofId?_of_listed _ hmem) size).symm
    · rfl
  | _ => rfl

/-- `Machine.advance`, with the services in the list at hand. -/
def advanceListed (setting : Setting) (m : Machine) : Machine :=
  if m.calls.frames.isEmpty then { m with status := .halted }
  else
    match (stepListed setting).run m with
    | .ok () m => m.stopAtBreakpoint
    | .error fault m => m.faultWith fault

/-- Runs to the end or to a breakpoint, with the services in the list at hand. -/
def runListed (setting : Setting) : (fuel : Nat) → Machine → Option Machine
  | fuel, m =>
    if m.status = .running then
      match fuel with
      | 0 => none
      | fuel + 1 => runListed setting fuel (m.advanceListed setting)
    else some m

private theorem runListed_eq (fuel : Nat) (m : Machine) :
    runListed setting fuel m = runWhile setting (fun _ => true) fuel m := by
  have hadvance (m : Machine) : m.advanceListed setting = m.advance setting := by
    rw [advanceListed, stepListed_eq]
    rfl
  induction fuel generalizing m with
  | zero =>
    unfold runListed runWhile
    simp
  | succ fuel ih =>
    unfold runListed runWhile
    simp only [ih, hadvance, and_true]

/-- A machine is executed with the services in the list at hand. -/
theorem execute_eq_runListed (fuel : Nat) (m : Machine) :
    m.execute setting fuel = if m.status.isTerminal then some m else runListed setting fuel m.resume := by
  rw [execute, runListed_eq]

end Machine

/-! ### A contract with storage -/

/-- A contract that hands out the context of its storage to whoever calls it. -/
def vault : Contract where
  scriptHash :=
    ⟨[0x0A, 0xBE, 0xAC, 0x23, 0x2F, 0x7B, 0xC0, 0x76, 0xE0, 0x2B, 0x13, 0xDC, 0x65, 0x7A, 0xF4, 0x96, 0x4A, 0x0C, 0xC6,
      0xD2], rfl⟩
  script := assemble [.syscallId "Neo.Storage.GetContext"]
  parameters := []
  returnType := 0
  properties := ⟨1⟩
  name := "Vault"

/-- The vault goes by the hash of its script. -/
example : Hashing.hash160 vault.script = vault.scriptHash := by decide +kernel

/-- The ledger with the vault and nothing else. -/
def Ledger.withVault : Ledger := .available (Chain.empty.deployContract vault)

/-- A setting with the vault on its ledger. -/
def Setting.keeping : Setting := { ledger := .withVault, store := .empty }

/-- The entry of the vault under a key of one byte. -/
def vaultKey (key : UInt8) : StoreKey := { contract := vault.scriptHash, key := [key] }

/-- Puts a value of one byte into the vault. -/
def vaultPut (key value : UInt8) : Bytes :=
  assemble [.pushBytes [value], .pushBytes [key], .appCall vault.scriptHash false, .syscallId "Neo.Storage.Put"]

/-- Deletes an entry of the vault. -/
def vaultDelete (key : UInt8) : Bytes :=
  assemble [.pushBytes [key], .appCall vault.scriptHash false, .syscallId "Neo.Storage.Delete"]

end LedgerVM
