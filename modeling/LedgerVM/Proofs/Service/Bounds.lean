import LedgerVM.Proofs.Operator.Bounds
import LedgerVM.Proofs.Service.Answers

/-!
# Services keep within bounds

Bounds suit a setting if they allow its limits and if its ledger, its store and the transaction that it serves keep to
them (`Bounds.Suits`).  Then every service keeps within bounds (`Service.run_keeps`): what it announces and what it
wants to write are items from the stack, and what it reads is from the ledger, the store or what is to be written.
-/

namespace LedgerVM

/-- The item was announced, or it is a value that is to be written. -/
def Effects.Has (e : Effects) (item : Item) : Prop :=
  (∃ n ∈ e.notifications, item = n.item) ∨
    ∃ key value, e.changes.get? key = some (some value) ∧ item = .byteArray value

instance : Holder ServiceState where
  heap s := s.bench.heap
  Has s item := item ∈ s.bench.stack ∨ s.effects.Has item

/-- The ledger answers a look-up with the entity. -/
def Ledger.Offers (l : Ledger) : Entity → Prop
  | .block block => ∃ id height, l.block id = .ok (some (height, block))
  | .transaction tx => ∃ hash place, l.transaction hash = .ok (some (place, tx))
  | .account account => ∃ hash, l.account hash = .ok (some account)
  | .asset asset => ∃ id, l.asset id = .ok (some asset)
  | .contract contract => ∃ hash, l.contract hash = .ok (some contract)
  | .validator validator => ∃ validators, l.validators = .ok validators ∧ validator ∈ validators
  | .header _ | .txAttribute _ | .input _ | .output _ | .storageContext _ => False

/-- The bounds allow the limits of the setting, and let pass what scripts can read of its ledger, its store and the
transaction that the run serves. -/
structure Bounds.Suits (b : Bounds) (setting : Setting) : Prop extends b.Allows setting.limits where
  offered : ∀ entity, setting.ledger.Offers entity → b.Covers entity
  validators : ∀ validators, setting.ledger.validators = .ok validators → b.lengths validators.length
  container : ∀ tx ∈ setting.transaction, b.Covers (.transaction tx)
  store : ∀ key value, setting.store.get key = .ok (some value) → b.bytes value

open Bounds

variable {b : Bounds} {setting : Setting} {limits : Limits} {h : Heap}

/-- Which collections may be referred to does not matter to the setting. -/
theorem Bounds.Suits.given {items : List Item} (hb : b.Suits setting) : (b.given h items).Suits setting where
  toAllows := ⟨hb.narrow, hb.encoded, hb.short, hb.literal, hb.part, hb.count, hb.fewer⟩
  offered entity hentity := (hb.offered entity hentity).given
  validators := hb.validators
  container tx htx := (hb.container tx htx).given
  store := hb.store

theorem Bounds.suits_loose {acyclic : Prop} (setting : Setting) : (loose acyclic).Suits setting where
  narrow _ _ := trivial
  encoded _ _ := trivial
  short _ _ := trivial
  literal _ _ := trivial
  part _ _ _ _ := trivial
  count _ _ := trivial
  fewer _ _ _ _ := trivial
  offered entity _ := covers_loose entity
  validators _ _ := trivial
  container _ _ := covers_loose _
  store _ _ _ := trivial

/-! ### Machine words -/

section Words

variable (hb : b.Allows limits)
include hb

theorem Bounds.Allows.ofUInt8 (n : UInt8) : b.integers n.toNat := by
  have hlt := n.toNat_lt
  exact hb.word (by omega) (by omega)

theorem Bounds.Allows.ofUInt16 (n : UInt16) : b.integers n.toNat := by
  have hlt := n.toNat_lt
  exact hb.word (by omega) (by omega)

theorem Bounds.Allows.ofUInt32 (n : UInt32) : b.integers n.toNat := by
  have hlt := n.toNat_lt
  exact hb.word (by omega) (by omega)

theorem Bounds.Allows.ofUInt64 (n : UInt64) : b.integers n.toNat := by
  have hlt := n.toNat_lt
  exact hb.word (by omega) (by omega)

theorem Bounds.Allows.ofInt64 (n : Int64) : b.integers n.toInt := by
  have hlow := n.le_toInt
  have hhigh := n.toInt_lt
  exact hb.word (by omega) (by omega)

theorem Bounds.Allows.digest {n : Nat} (d : Digest n) (hn : n ≤ 32) : b.bytes d.bytes := by
  refine hb.short _ ?_
  rw [d.length_bytes]
  exact hn

end Words

namespace Operation

theorem lookUp_spares {α : Type} (answer : Except LedgerError α) :
    b.Spares h (fun x => answer = .ok x) (lookUp answer) := .ofExcept (.mapError (fun _ => rfl) answer)

/-- What is popped as the entity in a handle is within bounds if such handles are. -/
theorem popEntity_spares {α : Type} {expected : Mismatch} {select : Entity → Option α} {P : α → Prop}
    (hselect : ∀ entity x, select entity = some x → b.Covers entity → P x) :
    b.Spares h P (popAs (Item.toEntity expected select)) :=
  popAs_spares fun _ => Holds.toEntity expected hselect

theorem pushHandle_spares {entity : Entity} (hentity : b.Covers entity) (origin : Origin) :
    b.Spares h (fun _ => True) (pushHandle entity origin) := push_spares hentity

theorem pushFresh_keeps {entity : Entity} (hentity : b.Covers entity) :
    b.Keeps h (fun _ _ => True) (pushFresh entity) := by
  refine .bind (newHandle_keeps entity) fun k handle _ hhandle => ?_
  have hhold : b.Holds k (.interface handle) := by
    rw [Holds, hhandle]
    exact hentity
  exact (push_spares hhold).done

theorem pushFound_spares (hb : b.Allows limits) {α : Type} {f : α → Entity × Origin} {found : Option α}
    (hfound : ∀ x ∈ found, b.Covers (f x).1) : b.Spares h (fun _ => True) (pushFound (found.map f)) := by
  cases found with
  | some x => exact pushHandle_spares (hfound x rfl) _
  | none => exact push_spares (hb.short [] (Nat.zero_le _))

theorem pushBounded_keeps (hb : b.Allows limits) {items : List Item} (hitems : ∀ item ∈ items, b.Holds h item) :
    b.Keeps h (fun _ _ => True) (pushBounded limits items) := by
  unfold pushBounded
  split
  · exact .throw rfl
  · rename_i hroom
    exact pushArray_keeps hitems (hb.count _ (Nat.le_of_not_lt hroom))

theorem pushEntities_keeps (hb : b.Allows limits) {entities : List Entity}
    (hentities : ∀ entity ∈ entities, b.Covers entity) :
    b.Keeps h (fun _ _ => True) (pushEntities limits entities) := by
  have hhandle : ∀ k, h.Grows k → ∀ entity ∈ entities,
      b.Keeps k (fun _ handle => b.Covers handle.entity) (newHandle entity) := fun k _ entity hentity =>
    .mono (newHandle_keeps entity) fun _ handle hsame => by
      rw [hsame]
      exact hentities entity hentity
  refine .bind (.mapM (fun _ hx => hx) hhandle) fun k handles _ ⟨_, hhandles⟩ => pushBounded_keeps hb ?_
  intro item hitem
  obtain ⟨handle, hmem, rfl⟩ := List.mem_map.1 hitem
  exact hhandles handle hmem

theorem readField_keeps {α : Type} {expected : Mismatch} {select : Entity → Option α} {read : α → Item}
    (hread : ∀ entity x, select entity = some x → b.Covers entity → b.Holds h (read x)) :
    b.Keeps h (fun _ _ => True) (readField (Item.toEntity expected select) read) :=
  .after (popEntity_spares hread) fun _ hx => (push_spares hx).done

theorem popContext_spares : b.Spares h (fun _ => True) popContext :=
  popAs_spares fun _ => Holds.toEntity _ fun _ _ _ _ => trivial

theorem popWritableContext_spares (setting : Setting) : b.Spares h (fun _ => True) (popWritableContext setting) := by
  unfold popWritableContext
  refine .check rfl fun _ => .bind popContext_spares fun context _ => .check rfl fun _ => ?_
  exact .bind (.ofExcept (setting.ledger.checkStorage_answers context)) fun _ _ => .pure trivial

end Operation

open Operation

/-! ### Services on the stack -/

theorem ChainService.run_keeps (hb : b.Suits setting) (service : ChainService) :
    b.Preserves (service.run setting.ledger) := by
  intro h
  have hpush {α : Type} {f : α → Entity × Origin} {found : Option α} (hfound : ∀ x ∈ found, b.Covers (f x).1) :
      b.Keeps h (fun _ _ => True) (pushFound (found.map f)) := (pushFound_spares hb.toAllows hfound).done
  cases service with
  | getHeight => exact .after (lookUp_spares _) fun height _ => (pushNumber_spares (hb.ofUInt32 height)).done
  | getHeader =>
    refine .after (popBytes_spares hb.toAllows) fun bytes _ => .after (.ofExcept (BlockId.ofBytes_answers bytes)) ?_
    exact fun id _ => .after (lookUp_spares _) fun found _ => hpush fun _ _ => covers_header _
  | getBlock =>
    refine .after (popBytes_spares hb.toAllows) fun bytes _ => .after (.ofExcept (BlockId.ofBytes_answers bytes)) ?_
    refine fun id _ => .after (lookUp_spares _) fun found hfound => hpush ?_
    rintro ⟨height, block⟩ rfl
    exact hb.offered (.block block) ⟨id, height, hfound⟩
  | getTransaction =>
    refine .after (popHash256_spares hb.toAllows) fun hash _ => .after (lookUp_spares _) fun found hfound => hpush ?_
    rintro ⟨place, tx⟩ rfl
    exact hb.offered (.transaction tx) ⟨hash, place, hfound⟩
  | getTransactionHeight =>
    refine .after (popHash256_spares hb.toAllows) fun hash _ => .after (lookUp_spares _) fun found _ => ?_
    cases found with
    | some found => exact (pushNumber_spares (hb.ofUInt32 _)).done
    | none => exact (pushNumber_spares (hb.word (by decide) (by decide))).done
  | getAccount =>
    refine .after (popHash160_spares hb.toAllows) fun hash _ => .after (lookUp_spares _) fun found hfound => ?_
    cases found with
    | some account => exact (pushHandle_spares (hb.offered (.account account) ⟨hash, hfound⟩) _).done
    | none =>
      refine pushFresh_keeps ⟨nofun, ?_⟩
      rintro account ⟨⟩
      exact hb.none
  | getValidators =>
    refine .after (lookUp_spares _) fun validators hvalidators => ?_
    refine pushArray_keeps (fun item hitem => ?_) ?_
    · obtain ⟨⟨validator, seat⟩, hmem, rfl⟩ := List.mem_map.1 hitem
      exact hb.offered (.validator validator) ⟨validators, hvalidators, List.fst_mem_of_mem_zipIdx hmem⟩
    · rw [List.length_map, List.length_zipIdx]
      exact hb.validators validators hvalidators
  | getAsset =>
    refine .after (popHash256_spares hb.toAllows) fun id _ => .after (lookUp_spares _) fun found hfound => hpush ?_
    rintro asset rfl
    exact hb.offered (.asset asset) ⟨id, hfound⟩
  | getContract =>
    refine .after (popHash160_spares hb.toAllows) fun hash _ => .after (lookUp_spares _) fun found hfound => hpush ?_
    rintro contract rfl
    exact hb.offered (.contract contract) ⟨hash, hfound⟩

theorem BlockService.run_keeps (hb : b.Allows limits) (service : BlockService) :
    b.Preserves (service.run limits) := by
  intro h
  have hcovers {item : Item} (hitem : b.Holds h item) :
      Answers (fun block => b.Covers (.block block)) item.toBlock :=
    Holds.toEntity _ (by rintro ⟨⟩ block ⟨⟩; exact id) hitem
  have hblock : b.Spares h (fun found => b.Covers (.block found.2)) popBlock := by
    refine .bind pop_spares fun item hitem => .bind (.ofExcept (hcovers hitem)) fun block hblock => ?_
    have hhandle : Answers (fun _ => True) item.toHandle := by
      cases item with
      | interface handle => trivial
      | _ => rfl
    exact .bind (.ofExcept hhandle) fun handle _ => .pure hblock
  cases service with
  | getTransactionCount =>
    refine .after (P := fun _ => True) (popEntity_spares fun _ _ _ _ => trivial) fun block _ => ?_
    exact (pushNumber_spares (hb.wrapInt64 _)).done
  | getTransactions =>
    refine .after hblock fun (origin, block) hblock => pushBounded_keeps hb fun item hitem => ?_
    obtain ⟨⟨tx, position⟩, hmem, rfl⟩ := List.mem_map.1 hitem
    exact hblock.transaction (List.fst_mem_of_mem_zipIdx hmem)
  | getTransaction =>
    refine .after hblock fun (origin, block) hblock => .after popIndex_spares fun index _ => ?_
    split
    · rename_i tx htx
      have hcovered : b.Covers (.transaction tx) := hblock.transaction (List.mem_of_getElem? htx)
      exact (pushHandle_spares hcovered _).done
    · exact .throw rfl

theorem TransactionService.run_keeps (hb : b.Suits setting) (service : TransactionService) :
    b.Preserves (service.run setting) := by
  intro h
  have hcovers : b.Spares h (fun tx => b.Covers (.transaction tx)) (popAs Item.toTransaction) :=
    popEntity_spares (by rintro ⟨⟩ x ⟨⟩; exact id)
  refine .after hcovers fun tx htx => ?_
  have hpush {α : Type} {make : α → Entity} {xs : List α} (hmake : ∀ x ∈ xs, b.Covers (make x)) :
      b.Keeps h (fun _ _ => True) (pushEntities setting.limits (xs.map make)) := by
    refine pushEntities_keeps hb.toAllows fun entity hentity => ?_
    obtain ⟨x, hx, rfl⟩ := List.mem_map.1 hentity
    exact hmake x hx
  cases service with
  | getHash => exact (pushBytes_spares (hb.digest _ (by decide))).done
  | getType => exact (pushNumber_spares (hb.ofUInt8 _)).done
  | getAttributes => exact hpush fun a => htx.attribute
  | getInputs => exact hpush fun _ _ => covers_input _
  | getOutputs => exact hpush fun _ _ => covers_output _
  | getReferences =>
    exact .after (.ofExcept (setting.ledger.spentOutputs_answers tx)) fun _ _ => hpush fun _ _ => covers_output _

theorem AccountService.run_keeps (hb : b.Allows limits) (service : AccountService) : b.Preserves service.run := by
  intro h
  have hcovers : b.Spares h (fun account => b.Covers (.account account)) (popAs Item.toAccount) :=
    popEntity_spares (by rintro ⟨⟩ x ⟨⟩; exact id)
  refine .after hcovers fun account haccount => ?_
  cases service with
  | getScriptHash => exact (pushBytes_spares (hb.digest _ (by decide))).done
  | getVotes =>
    refine pushArray_keeps (fun item hitem => ?_) ?_
    · obtain ⟨key, hkey, rfl⟩ := List.mem_map.1 hitem
      exact haccount.bytes key hkey
    · rw [List.length_map]
      exact haccount.votes account rfl
  | getBalance => exact .after (popHash256_spares hb) fun _ _ => (pushNumber_spares (hb.ofInt64 _)).done

theorem ContractService.run_keeps (executing : Hash160) (service : ContractService) :
    b.Preserves (service.run executing) := by
  intro h
  have hcovers : b.Spares h (fun contract => b.Covers (.contract contract)) (popAs Item.toContract) :=
    popEntity_spares (by rintro ⟨⟩ x ⟨⟩; exact id)
  refine .after hcovers fun contract hcontract => ?_
  cases service with
  | getScript => exact (pushBytes_spares (hcontract.bytes _ List.mem_cons_self)).done
  | isPayable => exact (pushBool_spares _).done
  | getStorageContext => exact .check rfl fun _ => pushFresh_keeps (covers_context _)

theorem EngineService.run_keeps {context : ServiceContext} (hb : b.Suits context.setting) (service : EngineService) :
    b.Preserves (service.run context) := by
  intro h
  cases service with
  | getScriptContainer =>
    rw [EngineService.run]
    split
    · rename_i tx htx
      exact (pushHandle_spares (hb.container tx htx) _).done
    · exact .throw rfl
  | getExecutingScriptHash | getEntryScriptHash => exact (pushBytes_spares (hb.digest _ (by decide))).done
  | getCallingScriptHash =>
    refine (pushBytes_spares ?_).done
    cases context.calling with
    | some hash => exact hb.digest hash (by decide)
    | none => exact hb.short [] (Nat.zero_le _)

theorem Operation.checkWitness_keeps (hb : b.Allows limits) (setting : Setting) :
    b.Preserves (checkWitness setting) := by
  intro h
  refine .after (popBytes_spares hb) fun bytes _ => .after (.ofExcept (witnessHash_answers bytes)) fun hash _ => ?_
  cases setting.transaction with
  | some tx => exact .after (.ofExcept (setting.ledger.witnesses_answers tx)) fun _ _ => (pushBool_spares _).done
  | none => exact .throw rfl

theorem Setting.time_lt {time : Nat} (htime : setting.time = .ok time) : time < UInt32.size := by
  unfold Setting.time at htime
  split at htime
  · rename_i block _
    cases htime
    exact block.header.timestamp.toNat_lt
  · cases hcurrent : setting.ledger.currentBlock with
    | error reason =>
      rw [hcurrent] at htime
      cases htime
    | ok current =>
      rw [hcurrent] at htime
      cases htime
      have hsize : UInt32.size = 4294967296 := rfl
      omega

/-! ### Services with effects -/

namespace ServiceAction

theorem onBench_keeps {α : Type} {Q : Heap → α → Prop} {operation : Operation α} (ho : b.Keeps h Q operation) :
    b.Keeps h Q (onBench operation) := by
  refine .within ho (fun s => ⟨rfl, fun item => .inl⟩) fun s t => ⟨rfl, fun item hitem => ?_⟩
  rcases hitem with hitem | hitem
  · exact .inl hitem
  · exact .inr (.inr hitem)

theorem onBench_spares {α : Type} {P : α → Prop} {operation : Operation α} (ho : b.Spares h P operation) :
    b.Spares h P (onBench operation) := onBench_keeps ho

theorem modifyEffects_keeps {f : Effects → Effects} (hf : ∀ e item, (f e).Has item → e.Has item ∨ b.Holds h item) :
    b.Keeps h (fun _ _ => True) (modifyEffects f) := by
  rintro s rfl hs
  refine ⟨.refl _, ⟨hs.heap, fun item hitem => ?_⟩, trivial⟩
  rcases hitem with hitem | hitem
  · exact hs.items item (.inl hitem)
  · rcases hf _ item hitem with hold | hnew
    · exact hs.items item (.inr hold)
    · exact hnew

/-- The values that are to be written are within bounds. -/
theorem changes_spares :
    b.Spares h (fun c => ∀ key value, c.get? key = some (some value) → b.bytes value) changes := by
  rintro s rfl hs
  refine ⟨.refl _, hs, rfl, fun key value hvalue => ?_⟩
  exact hs.items (.byteArray value) (.inr (.inr ⟨key, value, hvalue, rfl⟩))

end ServiceAction

open ServiceAction

theorem RuntimeService.run_keeps {context : ServiceContext} (hb : b.Suits context.setting)
    (service : RuntimeService) : b.Preserves (service.run context) := by
  intro h
  cases service with
  | getTrigger =>
    refine onBench_keeps (pushNumber_spares ?_).done
    cases context.setting.trigger <;> exact hb.word (by decide) (by decide)
  | checkWitness => exact onBench_keeps (checkWitness_keeps hb.toAllows _ h)
  | notify =>
    refine .after (onBench_spares pop_spares) fun item hitem => modifyEffects_keeps fun e other hother => ?_
    rcases hother with ⟨n, hn, rfl⟩ | hother
    · rcases List.mem_append.1 hn with hn | hn
      · exact .inl (.inl ⟨n, hn, rfl⟩)
      · rw [List.mem_singleton.1 hn]
        exact .inr hitem
    · exact .inl (.inr hother)
  | log =>
    refine .after (onBench_spares (popBytes_spares hb.toAllows)) fun message _ => modifyEffects_keeps ?_
    exact fun e other hother => .inl hother
  | getTime =>
    refine onBench_keeps (.after (lookUp_spares _) fun time htime => (pushNumber_spares ?_).done)
    have hlt := Setting.time_lt htime
    have hsize : UInt32.size = 4294967296 := rfl
    exact hb.word (by omega) (by omega)

theorem StorageService.run_keeps {context : ServiceContext} (hb : b.Suits context.setting)
    (service : StorageService) : b.Preserves (service.run context) := by
  intro h
  have hfresh (made : StorageContext) :
      b.Keeps h (fun _ _ => True) (onBench (pushFresh (.storageContext made))) :=
    onBench_keeps (pushFresh_keeps (covers_context made))
  cases service with
  | getContext | getReadOnlyContext => exact hfresh _
  | asReadOnly => exact onBench_keeps (.after popContext_spares fun found _ => pushFresh_keeps (covers_context _))
  | get =>
    refine .after changes_spares fun pending hpending => onBench_keeps (.after popContext_spares fun owner _ => ?_)
    refine .after (.ofExcept (context.setting.ledger.checkStorage_answers owner)) fun _ _ => ?_
    refine .after (popBytes_spares hb.toAllows) fun key _ => ?_
    refine .after (.ofExcept (.mapError (fun _ => rfl) _)) fun value hvalue => (pushBytes_spares ?_).done
    cases value with
    | none => exact hb.short [] (Nat.zero_le _)
    | some value =>
      unfold ChangeSet.getOver at hvalue
      split at hvalue
      · rename_i wish hwish
        cases hvalue
        exact hpending _ value hwish
      · exact hb.store _ value hvalue
  | put =>
    refine .after (P := fun found => b.bytes found.2) (onBench_spares ?_) fun (key, value) hvalue => ?_
    · refine .bind (popWritableContext_spares _) fun owner _ => .bind (popBytes_spares hb.toAllows) fun key _ => ?_
      exact .check rfl fun _ => .bind (popBytes_spares hb.toAllows) fun value hvalue => .pure hvalue
    · refine modifyEffects_keeps fun e other hother => ?_
      rcases hother with hother | ⟨written, found, hfound, rfl⟩
      · exact .inl (.inl hother)
      · rw [ChangeSet.get?_put] at hfound
        split at hfound
        · cases hfound
          exact .inr hvalue
        · exact .inl (.inr ⟨written, found, hfound, rfl⟩)
  | delete =>
    refine .after (P := fun _ => True) (onBench_spares ?_) fun key _ => modifyEffects_keeps fun e other hother => ?_
    · refine .bind (popWritableContext_spares _) fun owner _ => ?_
      exact .bind (popBytes_spares hb.toAllows) fun key _ => .pure trivial
    · rcases hother with hother | ⟨written, found, hfound, rfl⟩
      · exact .inl (.inl hother)
      · rw [ChangeSet.get?_delete] at hfound
        split at hfound
        · cases hfound
        · exact .inl (.inr ⟨written, found, hfound, rfl⟩)

/-- Every service keeps within bounds that suit the setting. -/
theorem Service.run_keeps {context : ServiceContext} (hb : b.Suits context.setting) (service : Service) :
    b.Preserves (service.run context) := by
  intro h
  cases service with
  | runtime service => exact service.run_keeps hb h
  | engine service => exact onBench_keeps (service.run_keeps hb h)
  | chain service => exact onBench_keeps (service.run_keeps hb h)
  | header field =>
    refine onBench_keeps (readField_keeps fun entity x _ _ => ?_)
    cases field with
    | hash | prevHash | merkleRoot | nextConsensus => exact hb.digest _ (by decide)
    | version | timestamp | index => exact hb.ofUInt32 _
    | consensusData => exact hb.ofUInt64 _
  | block service => exact onBench_keeps (service.run_keeps hb.toAllows h)
  | transaction service => exact onBench_keeps (service.run_keeps hb h)
  | txAttribute field =>
    have hself {item : Item} (hitem : b.Holds h item) : Answers (b.Holds h) item.toAttributeItem :=
      Holds.toEntity _ (by rintro ⟨⟩ x ⟨⟩ _; exact hitem) hitem
    have hattribute {item : Item} (hitem : b.Holds h item) :
        Answers (fun a => b.Covers (.txAttribute a)) item.toAttribute :=
      Holds.toEntity _ (by rintro ⟨⟩ x ⟨⟩ hcovered; exact hcovered) hitem
    refine onBench_keeps (.after (popAs_spares fun _ => hself) fun item hitem => ?_)
    refine .after (.ofExcept (hattribute hitem)) fun a ha => (push_spares ?_).done
    cases field with
    | usage => exact hb.ofUInt8 _
    | data => exact ha.bytes _ List.mem_cons_self
  | input field =>
    refine onBench_keeps (readField_keeps fun entity x _ _ => ?_)
    cases field with
    | hash => exact hb.digest _ (by decide)
    | index => exact hb.ofUInt16 _
  | output field =>
    refine onBench_keeps (readField_keeps fun entity x _ _ => ?_)
    cases field with
    | assetId | scriptHash => exact hb.digest _ (by decide)
    | value => exact hb.ofInt64 _
  | account service => exact onBench_keeps (service.run_keeps hb.toAllows h)
  | asset field =>
    refine onBench_keeps (readField_keeps fun entity x hselect hentity => ?_)
    cases field with
    | assetId | admin | issuer => exact hb.digest _ (by decide)
    | type | precision => exact hb.ofUInt8 _
    | amount | available => exact hb.ofInt64 _
    | owner =>
      split at hselect
      · cases hselect
        exact hentity.bytes _ List.mem_cons_self
      · cases hselect
  | contract service => exact onBench_keeps (service.run_keeps _ h)
  | validatorKey =>
    refine onBench_keeps (readField_keeps ?_)
    rintro ⟨⟩ v ⟨⟩ hcovered
    exact hcovered.bytes _ List.mem_cons_self
  | storage service => exact service.run_keeps hb h

/-- The price of a service is found out without changing anything. -/
theorem Service.price_spares (hb : b.Allows limits) (schedule : GasSchedule) (service : Service) :
    b.Spares h (fun _ => True) (service.price schedule) := by
  unfold Service.price
  split
  · exact .pure trivial
  · refine .bind (peek_spares 1) fun key hkey => .bind (.ofExcept (hb.toBytes hkey)) fun _ _ => ?_
    refine .bind (peek_spares 2) fun value hvalue => .bind (.ofExcept (hb.toBytes hvalue)) fun _ _ => ?_
    exact .pure trivial

end LedgerVM
