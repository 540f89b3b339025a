import LedgerVM.Proofs.Item.Bounds
import LedgerVM.Proofs.Service.Writes

/-!
# Services change no collection

Services make arrays and handles, but they change nothing that was on the heap before (`Service.run_adds`).
-/

namespace LedgerVM

namespace Heap

/-- What is on the one heap is on the other, and holds there what it held. -/
structure KeptIn (h k : Heap) : Prop extends h.Grows k where
  list : ∀ ref, ref < h.lists.size → k.list ref = h.list ref
  map : ∀ ref, ref < h.maps.size → k.map ref = h.map ref

variable {h k l : Heap}

theorem KeptIn.refl (h : Heap) : h.KeptIn h := ⟨.refl h, fun _ _ => rfl, fun _ _ => rfl⟩

theorem KeptIn.trans (hk : h.KeptIn k) (kl : k.KeptIn l) : h.KeptIn l where
  toGrows := hk.toGrows.trans kl.toGrows
  list ref hin := (kl.list ref (Nat.lt_of_lt_of_le hin hk.lists)).trans (hk.list ref hin)
  map ref hin := (kl.map ref (Nat.lt_of_lt_of_le hin hk.maps)).trans (hk.map ref hin)

theorem keptIn_newList (h : Heap) (items : List Item) : h.KeptIn (h.newList items).2 where
  toGrows := grows_newList h items
  list ref hin := by
    rw [list_newList, if_neg (by omega)]
  map _ _ := rfl

theorem keptIn_newHandle (h : Heap) (entity : Entity) : h.KeptIn (h.newHandle entity).2 :=
  ⟨grows_newHandle h entity, fun _ _ => rfl, fun _ _ => rfl⟩

end Heap

namespace Operation

/-- Whenever the operation succeeds, it has changed nothing on the heap, though it may have added to it. -/
def Adds {α : Type} (operation : Operation α) : Prop := Action.Ensures (fun w v => w.heap.KeptIn v.heap) operation

namespace Adds

variable {α β : Type}

theorem pure (x : α) : Adds (Pure.pure x) := Action.Ensures.pure (fun w => .refl w.heap) x

theorem throw (fault : Fault) : Adds (MonadExcept.throw fault : Operation α) := Action.Ensures.throw fault

theorem ofExcept (x : Except Fault α) : Adds (Action.ofExcept x) := Action.Ensures.ofExcept (fun w => .refl w.heap) x

theorem bind {a : Operation α} {f : α → Operation β} (ha : Adds a) (hf : ∀ x, Adds (f x)) : Adds (a >>= f) :=
  Action.Ensures.bind (fun hv hu => hv.trans hu) ha hf

/-- A check lets the rest of the operation happen or fails. -/
theorem check {p : Prop} [Decidable p] {fault : Fault} {f : Unit → Operation α} (hf : Adds (f ())) :
    Adds (if p then (MonadExcept.throw fault : Operation Unit) >>= f else f ()) := by
  split
  · exact bind (throw fault) fun _ => hf
  · exact hf

theorem mapM {f : β → Operation α} (hf : ∀ x, Adds (f x)) (items : List β) : Adds (items.mapM f) := by
  induction items with
  | nil => exact pure _
  | cons item items ih =>
    rw [List.mapM_cons]
    exact bind (hf item) fun _ => bind ih fun _ => pure _

theorem push (item : Item) : Adds (push item) := by
  intro w x v h
  cases h
  exact .refl w.heap

theorem pop : Adds pop := by
  intro w x v h
  obtain ⟨rest, -, rfl⟩ := pop_eq_ok.1 h
  exact .refl w.heap

theorem popAs (coerce : Item → Except Fault α) : Adds (popAs coerce) := bind pop fun _ => ofExcept _

theorem popHash160 : Adds popHash160 := by
  refine bind (popAs _) fun bytes => ?_
  split
  · exact pure _
  · exact throw _

theorem popHash256 : Adds popHash256 := by
  refine bind (popAs _) fun bytes => ?_
  split
  · exact pure _
  · exact throw _

theorem popIndex : Adds popIndex := by
  refine bind (popAs _) fun value => ?_
  split
  · exact pure _
  · exact throw _

theorem pushArray (items : List Item) : Adds (pushArray items) := by
  refine bind ?_ fun _ => push _
  intro w x v h
  cases h
  exact w.heap.keptIn_newList items

theorem newHandle (entity : Entity) : Adds (newHandle entity) := by
  intro w x v h
  cases h
  exact w.heap.keptIn_newHandle entity

theorem pushFresh (entity : Entity) : Adds (pushFresh entity) := bind (newHandle entity) fun _ => push _

theorem pushFound (found : Option (Entity × Origin)) : Adds (pushFound found) := by
  cases found with
  | some found => exact push _
  | none => exact push _

theorem pushBounded (limits : Limits) (items : List Item) : Adds (pushBounded limits items) := by
  unfold Operation.pushBounded
  split
  · exact throw _
  · exact pushArray items

theorem pushEntities (limits : Limits) (entities : List Entity) : Adds (pushEntities limits entities) :=
  bind (mapM newHandle entities) fun _ => pushBounded limits _

theorem readField (coerce : Item → Except Fault α) (read : α → Item) : Adds (readField coerce read) :=
  bind (popAs coerce) fun _ => push _

theorem popWritableContext (setting : Setting) : Adds (popWritableContext setting) := by
  unfold Operation.popWritableContext
  refine check (bind (popAs _) fun context => check ?_)
  exact bind (ofExcept _) fun _ => pure _

theorem checkWitness (setting : Setting) : Adds (checkWitness setting) := by
  refine bind (popAs _) fun bytes => bind (ofExcept _) fun hash => ?_
  split
  · exact bind (ofExcept _) fun _ => push _
  · exact throw _

end Adds
end Operation

open Operation.Adds

/-! ### Services on the stack -/

theorem ChainService.run_adds (ledger : Ledger) (service : ChainService) : (service.run ledger).Adds := by
  cases service with
  | getHeight => exact bind (ofExcept _) fun _ => push _
  | getHeader | getBlock =>
    exact bind (popAs _) fun _ => bind (ofExcept _) fun _ => bind (ofExcept _) fun _ => pushFound _
  | getTransaction | getAsset => exact bind popHash256 fun _ => bind (ofExcept _) fun _ => pushFound _
  | getContract => exact bind popHash160 fun _ => bind (ofExcept _) fun _ => pushFound _
  | getTransactionHeight =>
    refine bind popHash256 fun hash => bind (ofExcept _) fun found => ?_
    cases found with
    | some found => exact push _
    | none => exact push _
  | getAccount =>
    refine bind popHash160 fun hash => bind (ofExcept _) fun found => ?_
    cases found with
    | some account => exact push _
    | none => exact pushFresh _
  | getValidators => exact bind (ofExcept _) fun _ => pushArray _

theorem BlockService.run_adds (limits : Limits) (service : BlockService) : (service.run limits).Adds := by
  have hblock : Operation.popBlock.Adds :=
    bind pop fun _ => bind (ofExcept _) fun _ => bind (ofExcept _) fun _ => pure _
  cases service with
  | getTransactionCount => exact bind (popAs _) fun _ => push _
  | getTransactions => exact bind hblock fun _ => pushBounded limits _
  | getTransaction =>
    refine bind hblock fun (origin, block) => bind popIndex fun index => ?_
    split
    · exact push _
    · exact throw _

theorem TransactionService.run_adds (setting : Setting) (service : TransactionService) :
    (service.run setting).Adds := by
  refine bind (popAs _) fun tx => ?_
  cases service with
  | getHash | getType => exact push _
  | getAttributes | getInputs | getOutputs => exact pushEntities _ _
  | getReferences => exact bind (ofExcept _) fun _ => pushEntities _ _

theorem AccountService.run_adds (service : AccountService) : service.run.Adds := by
  refine bind (popAs _) fun account => ?_
  cases service with
  | getScriptHash => exact push _
  | getVotes => exact pushArray _
  | getBalance => exact bind popHash256 fun _ => push _

theorem ContractService.run_adds (executing : Hash160) (service : ContractService) : (service.run executing).Adds := by
  refine bind (popAs _) fun contract => ?_
  cases service with
  | getScript | isPayable => exact push _
  | getStorageContext => exact check (pushFresh _)

theorem EngineService.run_adds (context : ServiceContext) (service : EngineService) : (service.run context).Adds := by
  cases service with
  | getScriptContainer =>
    rw [EngineService.run]
    split
    · exact push _
    · exact throw _
  | _ => exact push _

/-! ### All services -/

namespace ServiceAction

/-- Whenever the action succeeds, it has changed nothing on the heap, though it may have added to it. -/
def Adds {α : Type} (a : ServiceAction α) : Prop :=
  Action.Ensures (fun s t => s.bench.heap.KeptIn t.bench.heap) a

variable {α β : Type}

theorem adds_onBench {operation : Operation α} (h : operation.Adds) : (onBench operation).Adds :=
  .within (fun _ _ hkept => hkept) h

theorem adds_bind {a : ServiceAction α} {f : α → ServiceAction β} (ha : a.Adds) (hf : ∀ x, (f x).Adds) :
    (a >>= f).Adds := Action.Ensures.bind (fun ht hu => ht.trans hu) ha hf

theorem adds_changes : changes.Adds := by
  intro s x t h
  cases h
  exact .refl s.bench.heap

theorem adds_modifyEffects (f : Effects → Effects) : (modifyEffects f).Adds := by
  intro s x t h
  cases h
  exact .refl s.bench.heap

end ServiceAction

open ServiceAction

theorem RuntimeService.run_adds (context : ServiceContext) (service : RuntimeService) : (service.run context).Adds := by
  cases service with
  | getTrigger => exact adds_onBench (push _)
  | checkWitness => exact adds_onBench (Operation.Adds.checkWitness _)
  | notify => exact adds_bind (adds_onBench pop) fun _ => adds_modifyEffects _
  | log => exact adds_bind (adds_onBench (popAs _)) fun _ => adds_modifyEffects _
  | getTime => exact adds_onBench (bind (ofExcept _) fun _ => push _)

theorem StorageService.run_adds (context : ServiceContext) (service : StorageService) : (service.run context).Adds := by
  cases service with
  | getContext | getReadOnlyContext => exact adds_onBench (pushFresh _)
  | asReadOnly => exact adds_onBench (bind (popAs _) fun _ => pushFresh _)
  | get =>
    refine adds_bind adds_changes fun pending => adds_onBench (bind (popAs _) fun owner => ?_)
    exact bind (ofExcept _) fun _ => bind (popAs _) fun key => bind (ofExcept _) fun value => push _
  | put =>
    refine adds_bind (adds_onBench (bind (popWritableContext _) fun owner => ?_)) fun _ => adds_modifyEffects _
    exact bind (popAs _) fun key => check (bind (popAs _) fun value => pure _)
  | delete =>
    refine adds_bind (adds_onBench (bind (popWritableContext _) fun owner => ?_)) fun _ => adds_modifyEffects _
    exact bind (popAs _) fun key => pure _

/-- No service changes what is on the heap. -/
theorem Service.run_adds (context : ServiceContext) (service : Service) : (service.run context).Adds := by
  cases service with
  | runtime service => exact service.run_adds context
  | engine service => exact adds_onBench (service.run_adds context)
  | chain service => exact adds_onBench (service.run_adds _)
  | header field | input field | output field | asset field | validatorKey => exact adds_onBench (readField _ _)
  | block service => exact adds_onBench (service.run_adds _)
  | transaction service => exact adds_onBench (service.run_adds _)
  | txAttribute field => exact adds_onBench (bind (popAs _) fun item => bind (ofExcept _) fun a => push _)
  | account service => exact adds_onBench service.run_adds
  | contract service => exact adds_onBench (service.run_adds _)
  | storage service => exact service.run_adds context

end LedgerVM
