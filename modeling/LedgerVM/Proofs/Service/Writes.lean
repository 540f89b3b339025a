import LedgerVM.Service.Run
import LedgerVM.Proofs.Operator.Action
import LedgerVM.Proofs.Store.Writes

/-!
# The writes that services make

Only the two services that write to storage touch the pending changes of a run, and each of them records one
write, whose key and value can be read off the stack before the call (`Service.changes_of_run`).
-/

namespace LedgerVM

namespace Operation

variable {w v : Workbench}

theorem pop_eq_ok {item : Item} :
    pop w = .ok item v ↔ ∃ rest, w.stack = item :: rest ∧ v = { w with stack := rest } := by
  unfold pop
  cases hstack : w.stack with
  | nil => simp
  | cons top rest =>
    constructor
    · intro h
      cases h
      exact ⟨rest, rfl, rfl⟩
    · rintro ⟨rest', heq, rfl⟩
      cases heq
      rfl

/-- An operand is taken off the stack and read. -/
theorem popAs_eq_ok {α : Type} {coerce : Item → Except Fault α} {x : α} :
    popAs coerce w = .ok x v ↔
      ∃ item rest, w.stack = item :: rest ∧ coerce item = .ok x ∧ v = { w with stack := rest } := by
  constructor
  · intro h
    obtain ⟨item, u, hpop, hcoerce⟩ := Action.bind_eq_ok.1 h
    obtain ⟨rest, hstack, rfl⟩ := pop_eq_ok.1 hpop
    obtain ⟨hx, rfl⟩ := Action.ofExcept_eq_ok.1 hcoerce
    exact ⟨item, rest, hstack, hx, rfl⟩
  · rintro ⟨item, rest, hstack, hx, rfl⟩
    refine Action.bind_eq_ok.2 ⟨item, _, pop_eq_ok.2 ⟨rest, hstack, rfl⟩, ?_⟩
    exact Action.ofExcept_eq_ok.2 ⟨hx, rfl⟩

/-- A context through which an application may write is taken off the stack. -/
theorem popWritableContext_eq_ok {setting : Setting} {owner : StorageContext}
    (h : popWritableContext setting w = .ok owner v) :
    setting.trigger = .application ∧ owner.readOnly = false ∧ setting.ledger.checkStorage owner = .ok () ∧
      popAs Item.toStorageContext w = .ok owner v := by
  by_cases htrigger : setting.trigger ≠ .application
  · simp only [popWritableContext, if_pos htrigger] at h
    cases h
  · simp only [popWritableContext, if_neg htrigger] at h
    obtain ⟨context, u, hpop, h⟩ := Action.bind_eq_ok.1 h
    cases hreadOnly : context.readOnly with
    | true =>
      rw [hreadOnly] at h
      cases h
    | false =>
      rw [hreadOnly] at h
      obtain ⟨_, u', hcheck, h⟩ := Action.bind_eq_ok.1 h
      obtain ⟨hstorage, rfl⟩ := Action.ofExcept_eq_ok.1 hcheck
      cases h
      exact ⟨not_not.1 htrigger, hreadOnly, hstorage, hpop⟩

/-- A write takes its context off the stack, and then its key. -/
theorem writeTarget_eq_ok {α : Type} {setting : Setting} {f : StorageContext → Bytes → Operation α} {x : α}
    (h : (popWritableContext setting >>= fun owner => popBytes >>= f owner) w = .ok x v) :
    ∃ top second rest owner key, w.stack = top :: second :: rest ∧ top.toStorageContext = .ok owner ∧
      second.toBytes = .ok key ∧ f owner key { w with stack := rest } = .ok x v := by
  obtain ⟨owner, w₁, hpop₁, h⟩ := Action.bind_eq_ok.1 h
  obtain ⟨-, -, -, hpop₁⟩ := popWritableContext_eq_ok hpop₁
  obtain ⟨top, rest₁, hstack₁, howner, rfl⟩ := popAs_eq_ok.1 hpop₁
  obtain ⟨key, w₂, hpop₂, h⟩ := Action.bind_eq_ok.1 h
  obtain ⟨second, rest₂, hstack₂, hkey, rfl⟩ := popAs_eq_ok.1 hpop₂
  have hrest : rest₁ = second :: rest₂ := hstack₂
  exact ⟨top, second, rest₂, owner, key, by rw [hstack₁, hrest], howner, hkey, h⟩

end Operation

/-- The write that a storage service asks for with the operands on the stack, if it writes at all. -/
def StorageService.write? : StorageService → List Item → Option Write
  | put, owner :: key :: value :: _ => do
    let context ← owner.toStorageContext.toOption
    return ({ contract := context.scriptHash, key := ← key.toBytes.toOption }, some (← value.toBytes.toOption))
  | delete, owner :: key :: _ => do
    let context ← owner.toStorageContext.toOption
    return ({ contract := context.scriptHash, key := ← key.toBytes.toOption }, none)
  | _, _ => none

/-- The write that a service asks for with the operands on the stack, if it writes at all. -/
def Service.write? : Service → List Item → Option Write
  | storage service, stack => service.write? stack
  | _, _ => none

namespace ServiceAction

/-- Whenever the action succeeds, the pending changes are what they were. -/
def KeepsChanges {α : Type} (a : ServiceAction α) : Prop :=
  Action.Ensures (fun s t => t.effects.changes = s.effects.changes) a

namespace KeepsChanges

variable {α β : Type}

theorem bind {a : ServiceAction α} {f : α → ServiceAction β} (ha : KeepsChanges a) (hf : ∀ x, KeepsChanges (f x)) :
    KeepsChanges (a >>= f) :=
  Action.Ensures.bind (fun hst htu => htu.trans hst) ha hf

theorem onBench (operation : Operation α) : KeepsChanges (onBench operation) := by
  intro s x t h
  obtain ⟨w, -, rfl⟩ := Action.within_eq_ok.1 h
  rfl

theorem changes : KeepsChanges changes := by
  intro s x t h
  cases h
  rfl

theorem modifyEffects {f : Effects → Effects} (hf : ∀ e, (f e).changes = e.changes) :
    KeepsChanges (modifyEffects f) := by
  intro s x t h
  cases h
  exact hf s.effects

end KeepsChanges
end ServiceAction

theorem RuntimeService.keepsChanges (context : ServiceContext) (service : RuntimeService) :
    (service.run context).KeepsChanges := by
  cases service with
  | notify | log => exact .bind (.onBench _) fun _ => .modifyEffects fun _ => rfl
  | _ => exact .onBench _

/-- A write that succeeds takes a context, a key and a value off the stack, and puts the value under the key. -/
theorem StorageService.put_of_run {context : ServiceContext} {s t : ServiceState} (h : put.run context s = .ok () t) :
    ∃ top second third rest owner key value, s.bench.stack = top :: second :: third :: rest ∧
      top.toStorageContext = .ok owner ∧ second.toBytes = .ok key ∧ third.toBytes = .ok value ∧
      t.effects.changes = s.effects.changes.put { contract := owner.scriptHash, key } value := by
  obtain ⟨⟨key, value⟩, u, hbench, hrecord⟩ := Action.bind_eq_ok.1 h
  obtain ⟨w, hoperands, rfl⟩ := Action.within_eq_ok.1 hbench
  cases hrecord
  obtain ⟨top, second, rest, owner, key, hstack, howner, hkey, hvalue⟩ := Operation.writeTarget_eq_ok hoperands
  -- the key is checked before the value is taken
  by_cases hlong : storageKeyLimit < key.length
  · simp only [if_pos hlong] at hvalue
    cases hvalue
  · simp only [if_neg hlong] at hvalue
    obtain ⟨value, w', hpop, hpair⟩ := Action.bind_eq_ok.1 hvalue
    obtain ⟨third, rest', hrest, hread, rfl⟩ := Operation.popAs_eq_ok.1 hpop
    cases hpair
    simp only at hrest
    exact ⟨top, second, third, rest', owner, key, value, by rw [hstack, hrest], howner, hkey, hread, rfl⟩

/-- A storage service that succeeds records the write it asks for. -/
theorem StorageService.changes_of_run {context : ServiceContext} {service : StorageService} {s t : ServiceState}
    (h : service.run context s = .ok () t) :
    t.effects.changes = s.effects.changes.recordAll (service.write? s.bench.stack).toList := by
  cases service with
  | put =>
    obtain ⟨top, second, third, rest, owner, key, value, hstack, howner, hkey, hvalue, hchanges⟩ := put_of_run h
    have hwrite : put.write? s.bench.stack = some ({ contract := owner.scriptHash, key }, some value) := by
      rw [hstack]
      simp [write?, howner, hkey, hvalue, Except.toOption]
    rw [hwrite]
    exact hchanges
  | delete =>
    obtain ⟨key, u, hbench, hrecord⟩ := Action.bind_eq_ok.1 h
    obtain ⟨w, hoperands, rfl⟩ := Action.within_eq_ok.1 hbench
    cases hrecord
    obtain ⟨top, second, rest, owner, key, hstack, howner, hkey, hname⟩ := Operation.writeTarget_eq_ok hoperands
    cases hname
    have hwrite : delete.write? s.bench.stack = some ({ contract := owner.scriptHash, key }, none) := by
      rw [hstack]
      simp [write?, howner, hkey, Except.toOption]
    rw [hwrite]
    rfl
  | get => exact ServiceAction.KeepsChanges.bind .changes (fun _ => .onBench _) s () t h
  | _ => exact ServiceAction.KeepsChanges.onBench _ s () t h

/-- A service that succeeds records the write it asks for. -/
theorem Service.changes_of_run {context : ServiceContext} {service : Service} {s t : ServiceState}
    (h : service.run context s = .ok () t) :
    t.effects.changes = s.effects.changes.recordAll (service.write? s.bench.stack).toList := by
  cases service with
  | storage service => exact StorageService.changes_of_run h
  | runtime service => exact service.keepsChanges context s () t h
  | _ => exact ServiceAction.KeepsChanges.onBench _ s () t h

end LedgerVM
