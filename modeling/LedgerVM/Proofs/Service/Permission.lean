import LedgerVM.Proofs.Service.Confinement
import LedgerVM.Proofs.Service.Writes

/-!
# Leave to write

A service that writes does so through the storage context on top of the stack, and only for an application, through a
context that is not read-only, and to a deployed contract with storage (`Service.permitted_of_run`).  The contexts
that are asked for as read-only are (`StorageService.readOnly_of_run`).
-/

namespace LedgerVM

/-- The setting lets a run write through a storage context. -/
structure Setting.PermitsWrite (setting : Setting) (context : StorageContext) : Prop where
  trigger : setting.trigger = .application
  writable : context.readOnly = false
  contract : ∃ contract, setting.ledger.contract context.scriptHash = .ok (some contract) ∧
    contract.properties.hasStorage = true

theorem Ledger.checkStorage_eq_ok {ledger : Ledger} {context : StorageContext}
    (h : ledger.checkStorage context = .ok ()) :
    ∃ contract, ledger.contract context.scriptHash = .ok (some contract) ∧
      contract.properties.hasStorage = true := by
  unfold checkStorage at h
  cases hfound : ledger.contract context.scriptHash with
  | error e =>
    rw [hfound] at h
    cases h
  | ok found =>
    rw [hfound] at h
    cases found with
    | none => cases h
    | some contract =>
      cases hstorage : contract.properties.hasStorage with
      | true => exact ⟨contract, rfl, hstorage⟩
      | false =>
        simp only [Except.mapError, bind, Except.bind, hstorage] at h
        cases h

theorem Item.toStorageContext_eq_ok {item : Item} {context : StorageContext}
    (h : item.toStorageContext = .ok context) :
    ∃ handle, item = .interface handle ∧ handle.entity = .storageContext context := by
  have hyields := item.toStorageContext_yields
  rw [h] at hyields
  exact hyields

variable {context : ServiceContext} {s t : ServiceState} {w : Write}

/-- A write that is asked for is one to the contract of the context on top of the stack. -/
theorem StorageService.write?_eq_some {service : StorageService} {stack : List Item}
    (h : service.write? stack = some w) :
    (service = .put ∨ service = .delete) ∧
      ∃ top below owner, stack = top :: below ∧ top.toStorageContext = .ok owner ∧
        w.1.contract = owner.scriptHash := by
  have howner {top : Item} {owner : StorageContext} (hsome : top.toStorageContext.toOption = some owner) :
      top.toStorageContext = .ok owner := by
    cases hread : top.toStorageContext with
    | ok read =>
      rw [hread] at hsome
      exact congrArg Except.ok (Option.some.inj hsome)
    | error fault =>
      rw [hread] at hsome
      cases hsome
  unfold write? at h
  split at h
  · rename_i top second third below
    obtain ⟨owner, hread, h⟩ := Option.bind_eq_some_iff.1 h
    obtain ⟨key, -, h⟩ := Option.bind_eq_some_iff.1 h
    obtain ⟨value, -, h⟩ := Option.bind_eq_some_iff.1 h
    cases h
    exact ⟨.inl rfl, top, _, owner, rfl, howner hread, rfl⟩
  · rename_i top second below
    obtain ⟨owner, hread, h⟩ := Option.bind_eq_some_iff.1 h
    obtain ⟨key, -, h⟩ := Option.bind_eq_some_iff.1 h
    cases h
    exact ⟨.inr rfl, top, _, owner, rfl, howner hread, rfl⟩
  · cases h

/-- A storage service that writes has leave to. -/
theorem StorageService.permitted_of_run {service : StorageService} (h : service.run context s = .ok () t)
    (hw : service.write? s.bench.stack = some w) :
    ∃ handle owner below, s.bench.stack = .interface handle :: below ∧ handle.entity = .storageContext owner ∧
      w.1.contract = owner.scriptHash ∧ context.setting.PermitsWrite owner := by
  obtain ⟨hservice, top, below, owner, hstack, hread, hcontract⟩ := write?_eq_some hw
  have hpopped : ∃ popped v, Operation.popWritableContext context.setting s.bench = .ok popped v := by
    rcases hservice with rfl | rfl
    all_goals
      obtain ⟨_, _, hbench, -⟩ := Action.bind_eq_ok.1 h
      obtain ⟨_, hoperands, -⟩ := Action.within_eq_ok.1 hbench
      obtain ⟨popped, v, hpop, -⟩ := Action.bind_eq_ok.1 hoperands
      exact ⟨popped, v, hpop⟩
  obtain ⟨popped, v, hpop⟩ := hpopped
  obtain ⟨htrigger, hwritable, hstorage, hpop⟩ := Operation.popWritableContext_eq_ok hpop
  obtain ⟨item, rest, hstack', hread', -⟩ := Operation.popAs_eq_ok.1 hpop
  rw [hstack] at hstack'
  cases hstack'
  rw [hread] at hread'
  cases hread'
  obtain ⟨handle, rfl, hentity⟩ := Item.toStorageContext_eq_ok hread
  exact ⟨handle, owner, below, hstack, hentity, hcontract, htrigger, hwritable, Ledger.checkStorage_eq_ok hstorage⟩

/-- A service that writes has leave to. -/
theorem Service.permitted_of_run {service : Service} (h : service.run context s = .ok () t)
    (hw : service.write? s.bench.stack = some w) :
    ∃ handle owner below, s.bench.stack = .interface handle :: below ∧ handle.entity = .storageContext owner ∧
      w.1.contract = owner.scriptHash ∧ context.setting.PermitsWrite owner := by
  cases service with
  | storage service => exact StorageService.permitted_of_run h hw
  | _ => cases hw

theorem Operation.pushFresh_eq_ok {entity : Entity} {b c : Workbench} (h : pushFresh entity b = .ok () c) :
    ∃ handle, handle.entity = entity ∧ c.stack = .interface handle :: b.stack := by
  cases h
  exact ⟨_, rfl, rfl⟩

/-- The service that gives a context for reading alone, or makes one of a context, leaves a read-only one. -/
theorem StorageService.readOnly_of_run {service : StorageService}
    (hservice : service = .getReadOnlyContext ∨ service = .asReadOnly) (h : service.run context s = .ok () t) :
    ∃ handle owner below, t.bench.stack = .interface handle :: below ∧ handle.entity = .storageContext owner ∧
      owner.readOnly = true := by
  rcases hservice with rfl | rfl
  · rw [run, ServiceAction.onBench] at h
    obtain ⟨b, hb, rfl⟩ := Action.within_eq_ok.1 h
    obtain ⟨handle, hentity, hstack⟩ := Operation.pushFresh_eq_ok hb
    exact ⟨handle, _, _, hstack, hentity, rfl⟩
  · rw [run, ServiceAction.onBench] at h
    obtain ⟨b, hb, rfl⟩ := Action.within_eq_ok.1 h
    obtain ⟨owner, c, -, hb⟩ := Action.bind_eq_ok.1 hb
    obtain ⟨handle, hentity, hstack⟩ := Operation.pushFresh_eq_ok hb
    exact ⟨handle, _, _, hstack, hentity, rfl⟩

end LedgerVM
