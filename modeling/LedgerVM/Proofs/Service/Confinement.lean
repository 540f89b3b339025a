import LedgerVM.Proofs.Operator.Confinement
import LedgerVM.Proofs.Service.Answers

/-!
# Services stay in scope

Services make handles of ledger entities, but a storage context only of the executing contract, or of the contract of
a context that was there before.  So a service leaves nothing out of scope if the storage of the executing contract
is in scope (`Service.run_confined`).
-/

namespace LedgerVM

/-- The service action leaves the workbench in scope and gives values of this kind. -/
def Scope.ConfinesService {α : Type} (scope : Scope) (Q : α → Prop) (a : ServiceAction α) : Prop :=
  Action.Maintains (fun s => scope.HoldsBench s.bench) Q a

variable {scope : Scope}

theorem Item.toStorageContext_yields (item : Item) :
    Yields (fun context => ∃ handle, item = .interface handle ∧ handle.entity = .storageContext context)
      item.toStorageContext := by
  refine (item.toEntity_answers _ _).yields.mono ?_
  rintro context ⟨handle, hitem, hselect⟩
  split at hselect
  · rename_i found hentity
    cases hselect
    exact ⟨handle, hitem, hentity⟩
  · cases hselect

namespace Operation

theorem lookUp_confined {α : Type} (answer : Except LedgerError α) :
    scope.Confines (fun _ => True) (lookUp answer) :=
  .mono (.ofExcept (.mapError nofun answer)) fun _ _ => trivial

/-- What is popped in some shape of an entity that is no storage context says nothing about the scope. -/
theorem popEntity_confined {α : Type} (expected : Mismatch) (select : Entity → Option α) :
    scope.Confines (fun _ => True) (popAs (Item.toEntity expected select)) :=
  popAs_confined fun item _ => (item.toEntity_answers expected select).yields.mono fun _ _ => trivial

theorem pushHandle_confined {entity : Entity} (h : entity.kind ≠ .storageContext) (origin : Origin) :
    scope.Confines (fun _ => True) (pushHandle entity origin) := push_confined (Scope.holds_handle h)

theorem pushFresh_confined {entity : Entity}
    (h : ∀ context, entity = .storageContext context → scope.owners context.scriptHash) :
    scope.Confines (fun _ => True) (pushFresh entity) := by
  refine .bind (newHandle_confined entity) fun handle hhandle => push_confined ?_
  intro context hcontext
  exact h context (hhandle ▸ hcontext)

theorem pushFound_confined {α : Type} {f : α → Entity × Origin} (h : ∀ x, (f x).1.kind ≠ .storageContext)
    (found : Option α) : scope.Confines (fun _ => True) (pushFound (found.map f)) := by
  cases found with
  | some x => exact pushHandle_confined (h x) _
  | none => exact push_confined trivial

theorem pushBounded_confined (limits : Limits) {items : List Item} (h : ∀ item ∈ items, scope.Holds item) :
    scope.Confines (fun _ => True) (pushBounded limits items) := by
  unfold pushBounded
  split
  · exact .throw nofun
  · exact pushArray_confined h

theorem pushEntities_confined (limits : Limits) {entities : List Entity}
    (h : ∀ entity ∈ entities, entity.kind ≠ .storageContext) :
    scope.Confines (fun _ => True) (pushEntities limits entities) := by
  have hhandle : ∀ entity ∈ entities, scope.Confines (fun handle => handle.kind ≠ .storageContext) (newHandle entity) :=
    fun entity hentity => .mono (newHandle_confined entity) fun handle hsame => by
      rw [Handle.kind, hsame]
      exact h entity hentity
  refine .bind (.mapM hhandle) fun handles hhandles => pushBounded_confined limits fun item hitem => ?_
  obtain ⟨handle, hmem, rfl⟩ := List.mem_map.1 hitem
  exact Scope.holds_handle (hhandles handle hmem)

theorem readField_confined {α : Type} {expected : Mismatch} {select : Entity → Option α} {read : α → Item}
    (hread : ∀ x, scope.Holds (read x)) :
    scope.Confines (fun _ => True) (readField (Item.toEntity expected select) read) :=
  .bind (popEntity_confined expected select) fun x _ => push_confined (hread x)

theorem popContext_confined :
    scope.Confines (fun (context : StorageContext) => scope.owners context.scriptHash) popContext := by
  refine popAs_confined fun item hitem => .mono item.toStorageContext_yields ?_
  rintro context ⟨handle, rfl, hentity⟩
  exact hitem context hentity

theorem popWritableContext_confined (setting : Setting) :
    scope.Confines (fun _ => True) (popWritableContext setting) := by
  unfold popWritableContext
  refine .check nofun fun _ => .bind popContext_confined fun context _ => .check nofun fun _ => ?_
  exact .bind (.ofExcept (setting.ledger.checkStorage_answers context).yields) fun _ _ => .pure trivial

end Operation

open Operation

/-! ### Services -/

theorem ChainService.run_confined (ledger : Ledger) (service : ChainService) :
    scope.Confines (fun _ => True) (service.run ledger) := by
  cases service with
  | getHeight => exact .bind (lookUp_confined _) fun _ _ => pushNumber_confined _
  | getHeader | getBlock =>
    refine .bind popBytes_confined fun bytes _ => ?_
    refine .bind (.ofExcept (BlockId.ofBytes_answers bytes).yields) fun id _ => ?_
    exact .bind (lookUp_confined _) fun found _ => pushFound_confined (by nofun) found
  | getTransaction =>
    refine .bind popHash256_confined fun hash _ => .bind (lookUp_confined _) fun found _ => ?_
    exact pushFound_confined (by nofun) found
  | getTransactionHeight =>
    refine .bind popHash256_confined fun hash _ => .bind (lookUp_confined _) fun found _ => ?_
    cases found with
    | some found => exact pushNumber_confined _
    | none => exact pushNumber_confined _
  | getAccount =>
    refine .bind popHash160_confined fun hash _ => .bind (lookUp_confined _) fun found _ => ?_
    cases found with
    | some account => exact pushHandle_confined (by nofun) _
    | none => exact pushFresh_confined (by nofun)
  | getValidators =>
    refine .bind (lookUp_confined _) fun validators _ => pushArray_confined fun item hitem => ?_
    obtain ⟨⟨validator, seat⟩, -, rfl⟩ := List.mem_map.1 hitem
    exact Scope.holds_handle nofun
  | getAsset =>
    refine .bind popHash256_confined fun id _ => .bind (lookUp_confined _) fun found _ => ?_
    exact pushFound_confined (by nofun) found
  | getContract =>
    refine .bind popHash160_confined fun hash _ => .bind (lookUp_confined _) fun found _ => ?_
    exact pushFound_confined (by nofun) found

theorem BlockService.run_confined (limits : Limits) (service : BlockService) :
    scope.Confines (fun _ => True) (service.run limits) := by
  have hblock : scope.Confines (fun _ => True) popBlock := by
    refine .bind pop_confined fun item _ => ?_
    have hblock : Yields (fun _ => True) item.toBlock := (item.toEntity_answers _ _).yields.mono fun _ _ => trivial
    have hhandle : Yields (fun _ => True) item.toHandle := by
      cases item with
      | interface handle => trivial
      | _ => nofun
    exact .bind (.ofExcept hblock) fun block _ => .bind (.ofExcept hhandle) fun handle _ => .pure trivial
  cases service with
  | getTransactionCount => exact .bind (popEntity_confined _ _) fun _ _ => pushNumber_confined _
  | getTransactions =>
    refine .bind hblock fun (origin, block) _ => pushBounded_confined limits fun item hitem => ?_
    obtain ⟨⟨tx, position⟩, -, rfl⟩ := List.mem_map.1 hitem
    exact Scope.holds_handle nofun
  | getTransaction =>
    refine .bind hblock fun (origin, block) _ => .bind popIndex_confined fun index _ => ?_
    split
    · exact pushHandle_confined (by nofun) _
    · exact .throw nofun

theorem TransactionService.run_confined (setting : Setting) (service : TransactionService) :
    scope.Confines (fun _ => True) (service.run setting) := by
  have hpush {α : Type} {make : α → Entity} (hmake : ∀ x, (make x).kind ≠ .storageContext) (xs : List α) :
      scope.Confines (fun _ => True) (pushEntities setting.limits (xs.map make)) := by
    refine pushEntities_confined setting.limits fun entity hentity => ?_
    obtain ⟨x, -, rfl⟩ := List.mem_map.1 hentity
    exact hmake x
  refine .bind (popEntity_confined _ _) fun tx _ => ?_
  cases service with
  | getHash => exact pushBytes_confined _
  | getType => exact pushNumber_confined _
  | getAttributes | getInputs | getOutputs => exact hpush nofun _
  | getReferences => exact .bind (.ofExcept (setting.ledger.spentOutputs_answers tx).yields) fun _ _ => hpush nofun _

theorem AccountService.run_confined (service : AccountService) : scope.Confines (fun _ => True) service.run := by
  refine .bind (popEntity_confined _ _) fun account _ => ?_
  cases service with
  | getScriptHash => exact pushBytes_confined _
  | getVotes =>
    refine pushArray_confined fun item hitem => ?_
    obtain ⟨key, -, rfl⟩ := List.mem_map.1 hitem
    trivial
  | getBalance => exact .bind popHash256_confined fun _ _ => pushNumber_confined _

theorem ContractService.run_confined {executing : Hash160} (hexecuting : scope.owners executing)
    (service : ContractService) : scope.Confines (fun _ => True) (service.run executing) := by
  refine .bind (popEntity_confined _ _) fun contract _ => ?_
  cases service with
  | getScript => exact pushBytes_confined _
  | isPayable => exact pushBool_confined _
  | getStorageContext =>
    -- the service is refused unless the contract is the executing one itself
    refine .check nofun fun hsame => pushFresh_confined ?_
    rintro context ⟨⟩
    rwa [Decidable.of_not_not hsame]

theorem EngineService.run_confined (context : ServiceContext) (service : EngineService) :
    scope.Confines (fun _ => True) (service.run context) := by
  cases service with
  | getScriptContainer =>
    rw [EngineService.run]
    split
    · exact pushHandle_confined (by nofun) _
    · exact .throw nofun
  | _ => exact pushBytes_confined _

theorem Operation.checkWitness_confined (setting : Setting) :
    scope.Confines (fun _ => True) (checkWitness setting) := by
  refine .bind popBytes_confined fun bytes _ => .bind (.ofExcept (witnessHash_answers bytes).yields) fun hash _ => ?_
  cases setting.transaction with
  | some tx => exact .bind (.ofExcept (setting.ledger.witnesses_answers tx).yields) fun _ _ => pushBool_confined _
  | none => exact .throw nofun

namespace Scope.ConfinesService

theorem onBench {α : Type} {Q : α → Prop} {operation : Operation α} (h : scope.Confines Q operation) :
    scope.ConfinesService Q (ServiceAction.onBench operation) :=
  .within (fun _ hs => hs) (fun _ _ _ ht => ht) h

theorem modifyEffects (f : Effects → Effects) :
    scope.ConfinesService (fun _ => True) (ServiceAction.modifyEffects f) := fun _ hs => ⟨hs, trivial⟩

theorem changes : scope.ConfinesService (fun _ => True) ServiceAction.changes := fun _ hs => ⟨hs, trivial⟩

end Scope.ConfinesService

open Scope.ConfinesService

theorem RuntimeService.run_confined (context : ServiceContext) (service : RuntimeService) :
    scope.ConfinesService (fun _ => True) (service.run context) := by
  cases service with
  | getTrigger => exact onBench (pushNumber_confined _)
  | checkWitness => exact onBench (checkWitness_confined _)
  | notify => exact .bind (onBench pop_confined) fun item _ => modifyEffects _
  | log => exact .bind (onBench popBytes_confined) fun message _ => modifyEffects _
  | getTime => exact onBench (.bind (lookUp_confined _) fun _ _ => pushNumber_confined _)

theorem StorageService.run_confined {context : ServiceContext} (hexecuting : scope.owners context.executing)
    (service : StorageService) : scope.ConfinesService (fun _ => True) (service.run context) := by
  cases service with
  | getContext | getReadOnlyContext =>
    refine onBench (pushFresh_confined ?_)
    rintro made ⟨⟩
    exact hexecuting
  | asReadOnly =>
    refine onBench (.bind popContext_confined fun found hfound => pushFresh_confined ?_)
    rintro made ⟨⟩
    exact hfound
  | get =>
    refine .bind changes fun pending _ => onBench (.bind popContext_confined fun owner _ => ?_)
    refine .bind (.ofExcept (context.setting.ledger.checkStorage_answers owner).yields) fun _ _ => ?_
    refine .bind popBytes_confined fun key _ => .bind (.ofExcept (.mapError nofun _)) fun value _ => ?_
    exact pushBytes_confined _
  | put =>
    refine .bind (R := fun _ => True) (onBench ?_) fun (key, value) _ => modifyEffects _
    refine .bind (popWritableContext_confined _) fun owner _ => .bind popBytes_confined fun key _ => ?_
    exact .check nofun fun _ => .bind popBytes_confined fun value _ => .pure trivial
  | delete =>
    refine .bind (R := fun _ => True) (onBench ?_) fun key _ => modifyEffects _
    exact .bind (popWritableContext_confined _) fun owner _ => .bind popBytes_confined fun key _ => .pure trivial

/-- Every service stays in scope if the storage of the executing contract is in scope. -/
theorem Service.run_confined {context : ServiceContext} (hexecuting : scope.owners context.executing)
    (service : Service) : scope.ConfinesService (fun _ => True) (service.run context) := by
  cases service with
  | runtime service => exact service.run_confined context
  | engine service => exact onBench (service.run_confined context)
  | chain service => exact onBench (service.run_confined _)
  | header field => exact onBench (readField_confined fun x => by cases field <;> trivial)
  | block service => exact onBench (service.run_confined _)
  | transaction service => exact onBench (service.run_confined _)
  | txAttribute field =>
    have hitem (item : Item) : Yields (fun _ => True) item.toAttributeItem :=
      (item.toEntity_answers _ _).yields.mono fun _ _ => trivial
    have hattribute (item : Item) : Yields (fun _ => True) item.toAttribute :=
      (item.toEntity_answers _ _).yields.mono fun _ _ => trivial
    refine onBench (.bind (popAs_confined fun item _ => hitem item) fun item _ => ?_)
    refine .bind (.ofExcept (hattribute item)) fun x _ => push_confined ?_
    cases field <;> trivial
  | input field => exact onBench (readField_confined fun x => by cases field <;> trivial)
  | output field => exact onBench (readField_confined fun x => by cases field <;> trivial)
  | account service => exact onBench service.run_confined
  | asset field => exact onBench (readField_confined fun x => by cases field <;> trivial)
  | contract service => exact onBench (service.run_confined hexecuting)
  | validatorKey => exact onBench (readField_confined fun _ => trivial)
  | storage service => exact service.run_confined hexecuting

/-- The price of a service is found out without leaving the scope. -/
theorem Service.price_confined (schedule : GasSchedule) (service : Service) :
    scope.Confines (fun _ => True) (service.price schedule) := by
  unfold Service.price
  split
  · exact .pure trivial
  · refine .bind (peek_confined 1) fun key _ => .bind (.ofExcept key.toBytes_answers.yields) fun _ _ => ?_
    exact .bind (peek_confined 2) fun value _ => .bind (.ofExcept value.toBytes_answers.yields) fun _ _ => .pure trivial

end LedgerVM
