import LedgerVM.Proofs.Service.Writes

/-!
# Who must witness a transaction

A script can ask whether a hash must witness the transaction of its run, and for the outputs that a transaction spends.
Both find these outputs through the ledger, input by input, and they agree: the hash must witness if an attribute
names it or if it owns an output that the other service hands out, and an input that leads to no output is the same
fault for both (`Service.witnesses_agree`).
-/

namespace LedgerVM

/-! ### Inputs and the outputs they spend -/

namespace Ledger

variable {ledger : Ledger} {input : Input} {output : Output} {fault : Fault} {tx : Transaction} {outputs : List Output}

/-- The ledger knows the transaction that an input refers to, and the transaction has the output. -/
def Spends (ledger : Ledger) (input : Input) (output : Output) : Prop :=
  ∃ place previous, ledger.transaction input.prevHash = .ok (some (place, previous)) ∧
    previous.outputs[input.prevIndex.toNat]? = some output

/-- Why an input leads to no output. -/
inductive Lacks (ledger : Ledger) (input : Input) : Fault → Prop
  | ledger {error : LedgerError} (h : ledger.transaction input.prevHash = .error error) :
      Lacks ledger input (.ledger error)
  | transaction (h : ledger.transaction input.prevHash = .ok none) : Lacks ledger input (.refused .unknownReference)
  | output {place : TransactionPlace} {previous : Transaction}
      (h : ledger.transaction input.prevHash = .ok (some (place, previous)))
      (hnone : previous.outputs[input.prevIndex.toNat]? = none) :
      Lacks ledger input (.refused .unknownReferenceOutput)

/-- The inputs of a transaction lead to these outputs, one each. -/
def Resolves (ledger : Ledger) (tx : Transaction) (outputs : List Output) : Prop :=
  List.Forall₂ ledger.Spends tx.inputs outputs

/-- The first input of a transaction that leads to no output fails for this reason. -/
def Dangles (ledger : Ledger) (tx : Transaction) (fault : Fault) : Prop :=
  ∃ earlier input later, tx.inputs = earlier ++ input :: later ∧
    (∀ other ∈ earlier, ∃ output, ledger.Spends other output) ∧ ledger.Lacks input fault

theorem spentOutput_cases (ledger : Ledger) (input : Input) :
    (∃ output, ledger.spentOutput input = .ok output ∧ ledger.Spends input output) ∨
      ∃ fault, ledger.spentOutput input = .error fault ∧ ledger.Lacks input fault := by
  unfold spentOutput
  cases hfound : ledger.transaction input.prevHash with
  | error error => exact .inr ⟨_, rfl, .ledger hfound⟩
  | ok found =>
    cases found with
    | none => exact .inr ⟨_, rfl, .transaction hfound⟩
    | some found =>
      obtain ⟨place, previous⟩ := found
      cases houtput : previous.outputs[input.prevIndex.toNat]? with
      | none =>
        refine .inr ⟨_, ?_, .output hfound houtput⟩
        simp [Except.mapError, bind, Except.bind, houtput]
        rfl
      | some output =>
        refine .inl ⟨output, ?_, place, previous, hfound, houtput⟩
        simp [Except.mapError, bind, Except.bind, houtput]
        rfl

/-- Either every input leads to an output or the first one that does not is the fault. -/
theorem spentOutputs_cases (ledger : Ledger) (tx : Transaction) :
    (∃ outputs, ledger.spentOutputs tx = .ok outputs ∧ ledger.Resolves tx outputs) ∨
      ∃ fault, ledger.spentOutputs tx = .error fault ∧ ledger.Dangles tx fault := by
  unfold spentOutputs Resolves Dangles
  induction tx.inputs with
  | nil => exact .inl ⟨[], rfl, .nil⟩
  | cons input inputs ih =>
    rw [List.mapM_cons]
    rcases ledger.spentOutput_cases input with ⟨output, houtput, hspends⟩ | ⟨fault, hfault, hlacks⟩
    · rw [houtput]
      rcases ih with ⟨outputs, hrest, hall⟩ | ⟨fault, hrest, earlier, other, later, hsplit, hearlier, hlacks⟩
      · exact .inl ⟨output :: outputs, by rw [hrest]; rfl, .cons hspends hall⟩
      · refine .inr ⟨fault, by rw [hrest]; rfl, input :: earlier, other, later, by rw [hsplit]; rfl, ?_, hlacks⟩
        exact List.forall_mem_cons.2 ⟨⟨output, hspends⟩, hearlier⟩
    · exact .inr ⟨fault, by rw [hfault]; rfl, [], input, inputs, rfl, by simp, hlacks⟩

end Ledger

/-! ### Who must witness -/

theorem Digest.ofBytes?_eq_some {n : Nat} {bytes : Bytes} {d : Digest n} :
    ofBytes? n bytes = some d ↔ bytes = d.bytes := by
  constructor
  · intro h
    unfold ofBytes? at h
    split at h
    · cases h
      rfl
    · cases h
  · rintro rfl
    exact d.ofBytes?_bytes

/-- A script hash must witness a transaction that spends these outputs: an attribute for script hashes has it as its
data, or one of the outputs is owned by it. -/
def Transaction.AsksFor (tx : Transaction) (outputs : List Output) (h : Hash160) : Prop :=
  (∃ a ∈ tx.attributes, a.usage = Attribute.scriptUsage ∧ a.data = h.bytes) ∨ ∃ o ∈ outputs, o.scriptHash = h

instance (tx : Transaction) (outputs : List Output) (h : Hash160) : Decidable (tx.AsksFor outputs h) :=
  inferInstanceAs (Decidable (_ ∨ _))

theorem Transaction.asksFor_iff {tx : Transaction} {outputs : List Output} {h : Hash160} :
    tx.AsksFor outputs h ↔ h ∈ tx.attributeScriptHashes ++ outputs.map Output.scriptHash := by
  have hattribute (a : Attribute) : a.scriptHash? = some h ↔ a.usage = Attribute.scriptUsage ∧ a.data = h.bytes := by
    unfold Attribute.scriptHash?
    split
    · rename_i husage
      simp [husage, Digest.ofBytes?_eq_some]
    · rename_i husage
      simp [husage]
  simp only [AsksFor, attributeScriptHashes, List.mem_append, List.mem_filterMap, List.mem_map, hattribute]

theorem witnessHash_bytes (h : Hash160) : witnessHash h.bytes = .ok h := by
  rw [witnessHash, h.ofBytes?_bytes]

theorem witnessHash_key {key : Bytes} (hkey : key.length = 33) :
    witnessHash key = .ok (Hashing.hash160 (0x21 :: key ++ [0xAC])) := by
  have hnone : Digest.ofBytes? 20 key = none := dif_neg (by omega)
  rw [witnessHash, hnone]
  exact if_pos hkey

/-! ### The two services -/

namespace Operation

variable {setting : Setting} {tx : Transaction} {item : Item} {bytes : Bytes} {rest : List Item} {heap : Heap}
  {h : Hash160} {fault : Fault}

theorem popBytes_eq (hitem : item.toBytes = .ok bytes) : popBytes ⟨item :: rest, heap⟩ = .ok bytes ⟨rest, heap⟩ := by
  show (Action.ofExcept item.toBytes : Operation Bytes) ⟨rest, heap⟩ = _
  rw [hitem]
  rfl

theorem checkWitness_eq (htx : setting.transaction = some tx) (hitem : item.toBytes = .ok bytes)
    (hhash : witnessHash bytes = .ok h) :
    checkWitness setting ⟨item :: rest, heap⟩ =
      match setting.ledger.witnesses tx with
      | .ok hashes => .ok () ⟨.boolean (hashes.contains h) :: rest, heap⟩
      | .error fault => .error fault ⟨rest, heap⟩ := by
  rw [checkWitness, Action.bind_of_ok (popBytes_eq hitem), hhash, htx,
    Action.bind_of_ok (Action.ofExcept_eq_ok.2 ⟨rfl, rfl⟩)]
  dsimp only
  cases hwitnesses : setting.ledger.witnesses tx with
  | ok hashes => rfl
  | error fault => rfl

/-- Fresh handles leave the lists of the heap alone. -/
theorem mapM_newHandle (entities : List Entity) (stack : List Item) (heap : Heap) :
    ∃ handles later, entities.mapM newHandle ⟨stack, heap⟩ = .ok handles ⟨stack, later⟩ ∧
      handles.map Handle.entity = entities := by
  induction entities generalizing heap with
  | nil => exact ⟨[], heap, rfl, rfl⟩
  | cons entity entities ih =>
    obtain ⟨handles, later, hrest, hentities⟩ := ih (heap.newHandle entity).2
    refine ⟨(heap.newHandle entity).1 :: handles, later, ?_, ?_⟩
    · rw [List.mapM_cons]
      exact Action.bind_eq_ok.2 ⟨_, _, rfl, Action.bind_eq_ok.2 ⟨_, _, hrest, rfl⟩⟩
    · rw [List.map_cons, hentities]
      rfl

/-- Entities are handed out as an array of handles, unless they are too many. -/
theorem pushEntities_eq (limits : Limits) (entities : List Entity) (rest : List Item) (heap : Heap) :
    (entities.length ≤ limits.arraySize → ∃ (ref : Nat) (handles : List Handle) (later : Heap),
      pushEntities limits entities ⟨rest, heap⟩ = .ok () ⟨.array ref :: rest, later⟩ ∧
      later.list ref = handles.map .interface ∧ handles.map Handle.entity = entities) ∧
    (limits.arraySize < entities.length → ∃ later : Heap,
      pushEntities limits entities ⟨rest, heap⟩ =
        .error (.arrayTooLarge entities.length limits.arraySize) ⟨rest, later⟩) := by
  obtain ⟨handles, later, hhandles, hentities⟩ := mapM_newHandle entities rest heap
  have hlength : (handles.map Item.interface).length = entities.length := by
    rw [← hentities, List.length_map, List.length_map]
  rw [pushEntities, Action.bind_of_ok hhandles, pushBounded, hlength]
  constructor
  · intro hfits
    rw [if_neg (Nat.not_lt.2 hfits)]
    refine ⟨later.lists.size, handles, (later.newList (handles.map .interface)).2, rfl, ?_, hentities⟩
    rw [Heap.list_newList, if_pos rfl]
  · intro hmany
    rw [if_pos hmany]
    exact ⟨later, rfl⟩

theorem getReferences_eq {handle : Handle} (hentity : handle.entity = .transaction tx) :
    TransactionService.run setting .getReferences ⟨.interface handle :: rest, heap⟩ =
      match setting.ledger.spentOutputs tx with
      | .ok outputs => pushEntities setting.limits (outputs.map .output) ⟨rest, heap⟩
      | .error fault => .error fault ⟨rest, heap⟩ := by
  have hcoerce : (Item.interface handle).toTransaction = .ok tx := by
    rw [Item.toTransaction, Item.toEntity, hentity]
  have hpop : popAs Item.toTransaction ⟨.interface handle :: rest, heap⟩ = .ok tx ⟨rest, heap⟩ :=
    popAs_eq_ok.2 ⟨_, _, rfl, hcoerce, rfl⟩
  rw [TransactionService.run, Action.bind_of_ok hpop]
  cases houtputs : setting.ledger.spentOutputs tx with
  | ok outputs => exact Action.bind_of_ok (Action.ofExcept_eq_ok.2 ⟨rfl, rfl⟩)
  | error fault => exact Action.bind_of_error (Action.ofExcept_eq_error.2 ⟨rfl, rfl⟩)

end Operation

theorem ServiceAction.onBench_apply {α : Type} (operation : Operation α) (bench : Workbench) (effects : Effects) :
    onBench operation ⟨bench, effects⟩ =
      match operation bench with
      | .ok x later => .ok x ⟨later, effects⟩
      | .error fault later => .error fault ⟨later, effects⟩ := by
  unfold onBench Action.within
  cases operation bench with
  | ok x later => rfl
  | error fault later => rfl

namespace Service

variable {context : ServiceContext} {tx : Transaction} {outputs : List Output} {fault : Fault}

/-- Both services answer, and from these outputs: a script hash must witness if the transaction asks for it, and the
references are the outputs, unless they are more than an array may hold. -/
structure AnswersFrom (context : ServiceContext) (tx : Transaction) (outputs : List Output) : Prop where
  witness : ∀ (item : Item) (h : Hash160) (rest : List Item) (heap : Heap) (effects : Effects),
    item.toBytes = .ok h.bytes →
      run context (.runtime .checkWitness) ⟨⟨item :: rest, heap⟩, effects⟩ =
        .ok () ⟨⟨.boolean (tx.AsksFor outputs h) :: rest, heap⟩, effects⟩
  references : ∀ (handle : Handle) (rest : List Item) (heap : Heap) (effects : Effects),
    handle.entity = .transaction tx → outputs.length ≤ context.setting.limits.arraySize →
      ∃ (ref : Nat) (handles : List Handle) (later : Heap),
        run context (.transaction .getReferences) ⟨⟨.interface handle :: rest, heap⟩, effects⟩ =
          .ok () ⟨⟨.array ref :: rest, later⟩, effects⟩ ∧
        later.list ref = handles.map .interface ∧ handles.map Handle.entity = outputs.map .output
  crowded : ∀ (handle : Handle) (rest : List Item) (heap : Heap) (effects : Effects),
    handle.entity = .transaction tx → context.setting.limits.arraySize < outputs.length →
      ∃ later : Heap,
        run context (.transaction .getReferences) ⟨⟨.interface handle :: rest, heap⟩, effects⟩ =
          .error (.arrayTooLarge outputs.length context.setting.limits.arraySize) ⟨⟨rest, later⟩, effects⟩

/-- Both services fail for this reason, whatever script hash is asked about. -/
structure FailsWith (context : ServiceContext) (tx : Transaction) (fault : Fault) : Prop where
  witness : ∀ (item : Item) (h : Hash160) (rest : List Item) (heap : Heap) (effects : Effects),
    item.toBytes = .ok h.bytes →
      run context (.runtime .checkWitness) ⟨⟨item :: rest, heap⟩, effects⟩ = .error fault ⟨⟨rest, heap⟩, effects⟩
  references : ∀ (handle : Handle) (rest : List Item) (heap : Heap) (effects : Effects),
    handle.entity = .transaction tx →
      run context (.transaction .getReferences) ⟨⟨.interface handle :: rest, heap⟩, effects⟩ =
        .error fault ⟨⟨rest, heap⟩, effects⟩

/-- Whatever stands for a script hash is answered as the hash is. -/
theorem run_checkWitness {item : Item} {bytes : Bytes} {h : Hash160} {rest : List Item} {heap : Heap}
    {effects : Effects} (htx : context.setting.transaction = some tx) (hitem : item.toBytes = .ok bytes)
    (hhash : witnessHash bytes = .ok h) :
    run context (.runtime .checkWitness) ⟨⟨item :: rest, heap⟩, effects⟩ =
      match context.setting.ledger.witnesses tx with
      | .ok hashes => .ok () ⟨⟨.boolean (hashes.contains h) :: rest, heap⟩, effects⟩
      | .error fault => .error fault ⟨⟨rest, heap⟩, effects⟩ := by
  show ServiceAction.onBench (.checkWitness context.setting) _ = _
  rw [ServiceAction.onBench_apply, Operation.checkWitness_eq htx hitem hhash]
  cases context.setting.ledger.witnesses tx with
  | ok hashes => rfl
  | error fault => rfl

/-- The references of a transaction are the outputs that it spends, handed out. -/
theorem run_getReferences {handle : Handle} {rest : List Item} {heap : Heap} {effects : Effects}
    (hentity : handle.entity = .transaction tx) :
    run context (.transaction .getReferences) ⟨⟨.interface handle :: rest, heap⟩, effects⟩ =
      match context.setting.ledger.spentOutputs tx with
      | .ok outputs =>
        ServiceAction.onBench (.pushEntities context.setting.limits (outputs.map .output)) ⟨⟨rest, heap⟩, effects⟩
      | .error fault => .error fault ⟨⟨rest, heap⟩, effects⟩ := by
  show ServiceAction.onBench (TransactionService.run context.setting .getReferences) _ = _
  rw [ServiceAction.onBench_apply, Operation.getReferences_eq hentity]
  cases context.setting.ledger.spentOutputs tx with
  | ok outputs =>
    exact (ServiceAction.onBench_apply (.pushEntities context.setting.limits (outputs.map .output)) ⟨rest, heap⟩
      effects).symm
  | error fault => rfl

theorem answersFrom (htx : context.setting.transaction = some tx)
    (houtputs : context.setting.ledger.spentOutputs tx = .ok outputs) : AnswersFrom context tx outputs where
  witness item h rest heap effects hitem := by
    have hwitnesses : context.setting.ledger.witnesses tx =
        .ok (tx.attributeScriptHashes ++ outputs.map Output.scriptHash) := by
      rw [Ledger.witnesses, houtputs]
      rfl
    rw [run_checkWitness htx hitem (witnessHash_bytes h), hwitnesses]
    simp only [Transaction.asksFor_iff, List.contains_eq_mem]
  references handle rest heap effects hentity hfits := by
    obtain ⟨ref, handles, later, hpush, hlist, hentities⟩ :=
      (Operation.pushEntities_eq context.setting.limits (outputs.map .output) rest heap).1 (by rwa [List.length_map])
    refine ⟨ref, handles, later, ?_, hlist, hentities⟩
    rw [run_getReferences hentity, houtputs]
    exact Action.within_eq_ok.2 ⟨_, hpush, rfl⟩
  crowded handle rest heap effects hentity hmany := by
    obtain ⟨later, hpush⟩ :=
      (Operation.pushEntities_eq context.setting.limits (outputs.map .output) rest heap).2 (by rwa [List.length_map])
    rw [List.length_map] at hpush
    refine ⟨later, ?_⟩
    rw [run_getReferences hentity, houtputs]
    exact Action.within_eq_error.2 ⟨_, hpush, rfl⟩

theorem failsWith (htx : context.setting.transaction = some tx)
    (hfault : context.setting.ledger.spentOutputs tx = .error fault) : FailsWith context tx fault where
  witness item h rest heap effects hitem := by
    have hwitnesses : context.setting.ledger.witnesses tx = .error fault := by
      rw [Ledger.witnesses, hfault]
      rfl
    rw [run_checkWitness htx hitem (witnessHash_bytes h), hwitnesses]
  references handle rest heap effects hentity := by
    rw [run_getReferences hentity, hfault]

/-- The witness check and the references of a transaction agree.  Either every input leads to an output and both
services answer from these outputs, or the first input that leads to none is the fault of both.  A public key is
answered as the hash of its signature script. -/
theorem witnesses_agree (htx : context.setting.transaction = some tx) :
    ((∃ outputs, context.setting.ledger.Resolves tx outputs ∧ AnswersFrom context tx outputs) ∨
      ∃ fault, context.setting.ledger.Dangles tx fault ∧ FailsWith context tx fault) ∧
    ∀ (item : Item) (key : Bytes) (rest : List Item) (heap : Heap) (effects : Effects),
      item.toBytes = .ok key → key.length = 33 →
        run context (.runtime .checkWitness) ⟨⟨item :: rest, heap⟩, effects⟩ =
          run context (.runtime .checkWitness)
            ⟨⟨.byteArray (Hashing.hash160 (0x21 :: key ++ [0xAC])).bytes :: rest, heap⟩, effects⟩ := by
  constructor
  · rcases context.setting.ledger.spentOutputs_cases tx with ⟨outputs, houtputs, hresolves⟩ | ⟨fault, hfault, hdangles⟩
    · exact .inl ⟨outputs, hresolves, answersFrom htx houtputs⟩
    · exact .inr ⟨fault, hdangles, failsWith htx hfault⟩
  · intro item key rest heap effects hitem hkey
    rw [run_checkWitness htx hitem (witnessHash_key hkey), run_checkWitness htx rfl (witnessHash_bytes _)]

/-- The owner of the output that is spent must witness, and so must the hash in a script attribute.  An attribute with
one more byte asks for nobody. -/
theorem owner_and_signer_must_witness :
    let owner : Hash160 := ⟨List.replicate 20 1, rfl⟩
    let signer : Hash160 := ⟨List.replicate 20 2, rfl⟩
    let stranger : Hash160 := ⟨List.replicate 20 3, rfl⟩
    let funding : Transaction :=
      { hash := .zero 32, type := .contract, version := 0, attributes := [], inputs := []
        outputs := [⟨.zero 32, 1, owner⟩], script := [], gas := 0 }
    let header : Header :=
      { hash := .zero 32, version := 0, prevHash := .zero 32, merkleRoot := .zero 32, timestamp := 0, index := 0
        consensusData := 0, nextConsensus := .zero 20 }
    let spending : Transaction :=
      { funding with
        attributes := [⟨0x20, signer.bytes⟩, ⟨0x20, stranger.bytes ++ [0]⟩], inputs := [⟨.zero 32, 0⟩], outputs := [] }
    let context : ServiceContext :=
      { setting :=
          { ledger := .available (Chain.empty.addBlock ⟨header, [funding]⟩), store := .empty
            transaction := some spending }
        executing := .zero 20, calling := none, entry := .zero 20 }
    let answer (h : Hash160) (asked : Bool) := ∀ rest heap effects,
      run context (.runtime .checkWitness) ⟨⟨.byteArray h.bytes :: rest, heap⟩, effects⟩ =
        .ok () ⟨⟨.boolean asked :: rest, heap⟩, effects⟩
    answer owner true ∧ answer signer true ∧ answer stranger false := by
  intro owner signer stranger funding header spending context answer
  have hfound : context.setting.ledger.transaction (.zero 32) = .ok (some (⟨0, 0⟩, funding)) := by decide +kernel
  obtain ⟨⟨outputs, hresolves, hanswers⟩ | ⟨fault, hdangles, -⟩, -⟩ :=
    witnesses_agree (show context.setting.transaction = some spending from rfl)
  · obtain ⟨output, _, ⟨place, previous, hprevious, houtput⟩, hrest, rfl⟩ := List.forall₂_cons_left_iff.1 hresolves
    cases hrest
    cases hfound.symm.trans hprevious
    cases houtput
    exact ⟨fun rest heap effects => hanswers.witness _ owner rest heap effects rfl,
      fun rest heap effects => hanswers.witness _ signer rest heap effects rfl,
      fun rest heap effects => hanswers.witness _ stranger rest heap effects rfl⟩
  · obtain ⟨earlier, input, later, hsplit, -, hlacks⟩ := hdangles
    have hinput : input ∈ spending.inputs := hsplit ▸ List.mem_append_right earlier List.mem_cons_self
    cases List.mem_singleton.1 hinput
    cases hlacks with
    | ledger h => cases hfound.symm.trans h
    | transaction h => cases hfound.symm.trans h
    | output h hnone =>
      cases hfound.symm.trans h
      cases hnone

end Service

end LedgerVM
