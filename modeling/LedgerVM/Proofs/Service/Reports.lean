import LedgerVM.Proofs.Operator.Reports
import LedgerVM.Proofs.Service.Writes

/-!
# The index that a service reports

Of all services only the one that takes a transaction out of a block checks an index
(`Service.run_reports`).
-/

namespace LedgerVM

/-! ### Look-ups -/

theorem Item.toEntity_silent {α : Type} (expected : Mismatch) (select : Entity → Option α) (item : Item) :
    Silent (item.toEntity expected select) := by
  unfold toEntity
  split
  · split <;> exact nofun
  · exact nofun

theorem Item.toHandle_silent (item : Item) : Silent item.toHandle := by
  cases item <;> exact nofun

theorem BlockId.ofBytes_silent (bytes : Bytes) : Silent (ofBytes bytes) := by
  unfold ofBytes
  split
  · exact nofun
  · exact .ite (.ite nofun nofun) nofun

theorem witnessHash_silent (witness : Bytes) : Silent (witnessHash witness) := by
  unfold witnessHash
  split
  · exact nofun
  · exact .ite nofun nofun

namespace Ledger

variable (ledger : Ledger)

theorem spentOutputs_silent (tx : Transaction) : Silent (ledger.spentOutputs tx) := by
  refine .mapM (fun input => .bind (.mapError (fun _ => rfl) _) fun found => ?_) _
  split
  · split <;> exact nofun
  · exact nofun

theorem witnesses_silent (tx : Transaction) : Silent (ledger.witnesses tx) :=
  .bind (ledger.spentOutputs_silent tx) fun _ => nofun

theorem checkStorage_silent (context : StorageContext) : Silent (ledger.checkStorage context) := by
  refine .bind (.mapError (fun _ => rfl) _) fun found => ?_
  split
  · exact .ite nofun nofun
  · exact nofun

end Ledger

open LedgerVM.Action LedgerVM.Action.Quiet

namespace Operation

variable {α : Type}

theorem popAs_quiet {coerce : Item → Except Fault α} (hcoerce : ∀ item, Silent (coerce item)) : (popAs coerce).Quiet :=
  bind pop_quiet fun item => ofExcept (hcoerce item)

theorem popEntity_quiet {expected : Mismatch} {select : Entity → Option α} :
    (popAs (Item.toEntity expected select)).Quiet := popAs_quiet (Item.toEntity_silent expected select)

theorem lookUp_quiet (answer : Except LedgerError α) : (lookUp answer).Quiet := ofExcept (.mapError (fun _ => rfl) answer)

theorem readField_quiet {expected : Mismatch} {select : Entity → Option α} (read : α → Item) :
    (readField (Item.toEntity expected select) read).Quiet := bind popEntity_quiet fun _ => push_quiet _

theorem popHash160_quiet : popHash160.Quiet := by
  refine bind popBytes_quiet fun bytes => ?_
  split
  · exact pure _
  · exact throw rfl

theorem popHash256_quiet : popHash256.Quiet := by
  refine bind popBytes_quiet fun bytes => ?_
  split
  · exact pure _
  · exact throw rfl

theorem newHandle_quiet (entity : Entity) : (newHandle entity).Quiet := of_ok fun _ => ⟨_, _, rfl⟩

theorem pushFresh_quiet (entity : Entity) : (pushFresh entity).Quiet :=
  bind (newHandle_quiet entity) fun _ => push_quiet _

theorem pushFound_quiet (found : Option (Entity × Origin)) : (pushFound found).Quiet := by
  cases found with
  | some found => exact push_quiet _
  | none => exact push_quiet _

theorem pushBounded_quiet (limits : Limits) (items : List Item) : (pushBounded limits items).Quiet := by
  unfold pushBounded
  split
  · exact throw rfl
  · exact pushArray_quiet items

theorem pushEntities_quiet (limits : Limits) (entities : List Entity) : (pushEntities limits entities).Quiet :=
  bind (mapM newHandle_quiet entities) fun _ => pushBounded_quiet limits _

theorem popBlock_quiet : popBlock.Quiet :=
  bind pop_quiet fun item => bind (ofExcept (item.toEntity_silent _ _)) fun _ =>
    bind (ofExcept item.toHandle_silent) fun _ => pure _

/-- A block is read from the handle on top of the stack. -/
theorem popBlock_bind_reports {f : Origin × Block → Operation α} {w : Workbench} {index : Int} {length : Nat} :
    (popBlock >>= f).Reports w index length ↔
      ∃ handle block rest, w.stack = .interface handle :: rest ∧ handle.entity = .block block ∧
        (f (handle.origin, block)).Reports { w with stack := rest } index length := by
  obtain ⟨stack, h⟩ := w
  constructor
  · rintro ⟨t, hrun⟩
    cases stack with
    | nil => cases hrun
    | cons item rest =>
      cases item with
      | interface handle =>
        obtain ⟨entity, origin⟩ := handle
        cases entity with
        | block block => exact ⟨⟨.block block, origin⟩, block, rest, rfl, rfl, t, hrun⟩
        | _ => cases hrun
      | _ => cases hrun
  · rintro ⟨⟨entity, origin⟩, block, rest, rfl, rfl, t, hrun⟩
    exact ⟨t, hrun⟩

theorem popContext_quiet : popContext.Quiet := popEntity_quiet

theorem popWritableContext_quiet (setting : Setting) : (popWritableContext setting).Quiet := by
  unfold popWritableContext
  refine check rfl (bind popContext_quiet fun context => check rfl ?_)
  exact bind (ofExcept (setting.ledger.checkStorage_silent context)) fun _ => pure _

theorem checkWitness_quiet (setting : Setting) : (checkWitness setting).Quiet := by
  refine bind popBytes_quiet fun bytes => bind (ofExcept (witnessHash_silent bytes)) fun hash => ?_
  split
  · exact bind (ofExcept (setting.ledger.witnesses_silent _)) fun _ => push_quiet _
  · exact throw rfl

end Operation

open Operation

/-! ### Services on the stack -/

theorem ChainService.run_quiet (ledger : Ledger) (service : ChainService) : (service.run ledger).Quiet := by
  cases service with
  | getHeight => exact bind (lookUp_quiet _) fun _ => push_quiet _
  | getHeader | getBlock =>
    exact bind popBytes_quiet fun bytes => bind (ofExcept (BlockId.ofBytes_silent bytes)) fun _ =>
      bind (lookUp_quiet _) fun _ => pushFound_quiet _
  | getTransaction | getAsset =>
    exact bind popHash256_quiet fun _ => bind (lookUp_quiet _) fun _ => pushFound_quiet _
  | getContract => exact bind popHash160_quiet fun _ => bind (lookUp_quiet _) fun _ => pushFound_quiet _
  | getTransactionHeight =>
    refine bind popHash256_quiet fun hash => bind (lookUp_quiet _) fun found => ?_
    cases found with
    | some found => exact push_quiet _
    | none => exact push_quiet _
  | getAccount =>
    refine bind popHash160_quiet fun hash => bind (lookUp_quiet _) fun found => ?_
    cases found with
    | some account => exact push_quiet _
    | none => exact pushFresh_quiet _
  | getValidators => exact bind (lookUp_quiet _) fun _ => pushArray_quiet _

theorem TransactionService.run_quiet (setting : Setting) (service : TransactionService) :
    (service.run setting).Quiet := by
  refine bind popEntity_quiet fun tx => ?_
  cases service with
  | getHash | getType => exact push_quiet _
  | getAttributes | getInputs | getOutputs => exact pushEntities_quiet _ _
  | getReferences => exact bind (ofExcept (setting.ledger.spentOutputs_silent tx)) fun _ => pushEntities_quiet _ _

theorem AccountService.run_quiet (service : AccountService) : service.run.Quiet := by
  refine bind popEntity_quiet fun account => ?_
  cases service with
  | getScriptHash => exact push_quiet _
  | getVotes => exact pushArray_quiet _
  | getBalance => exact bind popHash256_quiet fun _ => push_quiet _

theorem ContractService.run_quiet (executing : Hash160) (service : ContractService) :
    (service.run executing).Quiet := by
  refine bind popEntity_quiet fun contract => ?_
  cases service with
  | getScript | isPayable => exact push_quiet _
  | getStorageContext => exact check rfl (pushFresh_quiet _)

theorem EngineService.run_quiet (context : ServiceContext) (service : EngineService) : (service.run context).Quiet := by
  cases service with
  | getScriptContainer =>
    rw [EngineService.run]
    split
    · exact push_quiet _
    · exact throw rfl
  | _ => exact push_quiet _

/-- The service takes an operand off the stack and checks it in this way: it has to be a count, and in the block that is
above it there has to be a transaction behind as many. -/
inductive Service.Checks : Service → List Item → Item → IndexCheck → Prop
  | transaction {handle : Handle} {block : Block} {item : Item} {below : List Item} {check : IndexCheck}
      (hblock : handle.entity = .block block) (hcheck : check = .count ∨ check = .member block.transactions.length) :
      Checks (.block .getTransaction) (.interface handle :: item :: below) item check

theorem BlockService.getTransaction_reports {limits : Limits} {stack : List Item} {h : Heap} {index : Int}
    {length : Nat} :
    (getTransaction.run limits).Reports ⟨stack, h⟩ index length ↔
      ∃ item check, (Service.block getTransaction).Checks stack item check ∧ check.Reports item index length := by
  refine popBlock_bind_reports.trans ?_
  constructor
  · rintro ⟨handle, block, rest, hstack, hblock, hrun⟩
    obtain rfl : stack = .interface handle :: rest := hstack
    obtain ⟨item, below, hrest, hitem | ⟨n, hitem, hpasses, hrun⟩⟩ := popIndex_bind_reports.1 hrun
    · obtain rfl : rest = item :: below := hrest
      exact ⟨item, .count, .transaction hblock (.inl rfl), hitem⟩
    · obtain rfl : rest = item :: below := hrest
      obtain ⟨t, hrun⟩ := hrun
      cases htx : block.transactions[n]? with
      | some tx =>
        simp only [htx] at hrun
        cases hrun
      | none =>
        simp only [htx] at hrun
        obtain ⟨hindex, hlength⟩ := Fault.indexOutOfRange.inj (EStateM.Result.error.inj hrun).1
        refine ⟨item, _, .transaction hblock (.inr rfl), n, hitem, ⟨?_, ?_⟩, hindex.symm, hlength.symm⟩
        · exact Int.ofNat_le.2 (List.getElem?_eq_none_iff.1 htx)
        · exact Int.not_le.1 fun hlarge => hpasses (.inr hlarge)
  · rintro ⟨item, check, hchecks, hitem⟩
    cases hchecks with
    | transaction hblock hcheck =>
      refine ⟨_, _, _, rfl, hblock, popIndex_bind_reports.2 ⟨item, _, rfl, ?_⟩⟩
      rcases hcheck with rfl | rfl
      · exact .inl hitem
      · obtain ⟨n, hn, hpasses, ⟨hlong, -⟩, hindex, hlength⟩ := hitem.exists_natCast rfl
        refine .inr ⟨n, hn, hpasses, ?_⟩
        simp only [List.getElem?_eq_none_iff.2 (Int.ofNat_le.1 hlong), hindex, hlength]
        exact ⟨_, rfl⟩

/-! ### Services with effects -/

namespace ServiceAction

theorem onBench_quiet {α : Type} {operation : Operation α} (h : operation.Quiet) : (onBench operation).Quiet := within h

theorem changes_quiet : changes.Quiet := of_ok fun _ => ⟨_, _, rfl⟩

theorem modifyEffects_quiet (f : Effects → Effects) : (modifyEffects f).Quiet := of_ok fun _ => ⟨_, _, rfl⟩

end ServiceAction

open ServiceAction

theorem RuntimeService.run_quiet (context : ServiceContext) (service : RuntimeService) :
    (service.run context).Quiet := by
  cases service with
  | getTrigger => exact onBench_quiet (push_quiet _)
  | checkWitness => exact onBench_quiet (checkWitness_quiet _)
  | notify => exact bind (onBench_quiet pop_quiet) fun _ => modifyEffects_quiet _
  | log => exact bind (onBench_quiet popBytes_quiet) fun _ => modifyEffects_quiet _
  | getTime => exact onBench_quiet (bind (lookUp_quiet _) fun _ => push_quiet _)

theorem StorageService.run_quiet (context : ServiceContext) (service : StorageService) :
    (service.run context).Quiet := by
  cases service with
  | getContext | getReadOnlyContext => exact onBench_quiet (pushFresh_quiet _)
  | asReadOnly => exact onBench_quiet (bind popContext_quiet fun _ => pushFresh_quiet _)
  | get =>
    refine bind changes_quiet fun pending => onBench_quiet (bind popContext_quiet fun owner => ?_)
    refine bind (ofExcept (context.setting.ledger.checkStorage_silent owner)) fun _ => bind popBytes_quiet fun key => ?_
    exact bind (ofExcept (.mapError (fun _ => rfl) _)) fun _ => push_quiet _
  | put =>
    refine bind (onBench_quiet (bind (popWritableContext_quiet _) fun owner => ?_)) fun _ => modifyEffects_quiet _
    exact bind popBytes_quiet fun key => check rfl (bind popBytes_quiet fun value => pure _)
  | delete =>
    refine bind (onBench_quiet (bind (popWritableContext_quiet _) fun owner => ?_)) fun _ => modifyEffects_quiet _
    exact bind popBytes_quiet fun key => pure _

/-- Only the service that takes a transaction out of a block reports an index. -/
theorem Service.run_quiet (context : ServiceContext) {service : Service} (hservice : service ≠ .block .getTransaction) :
    (service.run context).Quiet := by
  cases service with
  | runtime service => exact service.run_quiet context
  | engine service => exact onBench_quiet (service.run_quiet context)
  | chain service => exact onBench_quiet (service.run_quiet _)
  | header field | input field | output field | asset field | validatorKey => exact onBench_quiet (readField_quiet _)
  | block service =>
    cases service with
    | getTransaction => exact absurd rfl hservice
    | getTransactionCount => exact onBench_quiet (bind popEntity_quiet fun _ => push_quiet _)
    | getTransactions => exact onBench_quiet (bind popBlock_quiet fun _ => pushBounded_quiet _ _)
  | transaction service => exact onBench_quiet (service.run_quiet _)
  | txAttribute field =>
    refine onBench_quiet (bind (popAs_quiet fun item => item.toEntity_silent _ _) fun item => ?_)
    exact bind (ofExcept (item.toEntity_silent _ _)) fun a => push_quiet _
  | account service => exact onBench_quiet service.run_quiet
  | contract service => exact onBench_quiet (service.run_quiet _)
  | storage service => exact service.run_quiet context

/-- A service reports the operand that it refuses, and nothing else. -/
theorem Service.run_reports (context : ServiceContext) (service : Service) {s : ServiceState} {index : Int}
    {length : Nat} :
    (service.run context).Reports s index length ↔
      ∃ item check, service.Checks s.bench.stack item check ∧ check.Reports item index length := by
  by_cases hservice : service = .block .getTransaction
  · subst hservice
    exact reports_within.trans BlockService.getTransaction_reports
  · refine iff_of_false (run_quiet context hservice s index length) ?_
    rintro ⟨item, check, hchecks, -⟩
    generalize s.bench.stack = stack at hchecks
    cases hchecks
    exact hservice rfl

end LedgerVM
