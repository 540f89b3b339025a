import LedgerVM.Operator.Run
import LedgerVM.Proofs.Operator.Action

/-!
# Which failures report an index

A fault can report an index or a count that is out of range (`Action.Reports`).  Almost nothing that operators are made
of ever fails in this way, and neither does a sequence of such actions (`Action.Quiet`).  So an operator that checks no
count and no index does not either (`Operator.run_quiet`).
-/

namespace LedgerVM

variable {σ τ α β : Type}

/-- The fault reports an index. -/
def Fault.reportsIndex : Fault → Bool
  | indexOutOfRange _ _ => true
  | _ => false

/-! ### Computations without a state -/

/-- The computation may fail, but without the report of an index. -/
def Silent (x : Except Fault α) : Prop := ∀ index length, x ≠ .error (.indexOutOfRange index length)

namespace Silent

theorem ok (a : α) : Silent (.ok a) := nofun

theorem bind {x : Except Fault α} {f : α → Except Fault β} (hx : Silent x) (hf : ∀ a, Silent (f a)) :
    Silent (x >>= f) := by
  cases x with
  | ok a => exact hf a
  | error fault =>
    intro index length h
    cases h
    exact hx index length rfl

theorem ite {p : Prop} [Decidable p] {x y : Except Fault α} (hx : Silent x) (hy : Silent y) :
    Silent (if p then x else y) := by
  split
  · exact hx
  · exact hy

theorem error {fault : Fault} (hfault : fault.reportsIndex = false) : Silent (.error fault : Except Fault α) := by
  rintro index length h
  cases h
  cases hfault

theorem mapError {ε : Type} {report : ε → Fault} (hreport : ∀ e, (report e).reportsIndex = false) (x : Except ε α) :
    Silent (x.mapError report) := by
  cases x with
  | ok a => exact ok a
  | error e => exact error (hreport e)

theorem mapM {f : β → Except Fault α} (hf : ∀ x, Silent (f x)) (items : List β) : Silent (items.mapM f) := by
  induction items with
  | nil => exact nofun
  | cons item items ih =>
    rw [List.mapM_cons]
    exact bind (hf item) fun _ => bind ih fun _ => ok _

end Silent

namespace Item

theorem toBytes_silent (item : Item) : Silent item.toBytes := by
  unfold toBytes
  split <;> exact nofun

theorem toInteger_silent (item : Item) : Silent item.toInteger := by
  cases item with
  | byteArray bytes => exact .ite nofun nofun
  | _ => exact nofun

theorem toListRef_silent (item : Item) : Silent item.toListRef := by
  cases item <;> exact nofun

theorem toMapRef_silent (item : Item) : Silent item.toMapRef := by
  cases item <;> exact nofun

end Item

theorem MapKey.ofItem_silent (item : Item) : Silent (ofItem item) := by
  unfold ofItem
  split <;> exact nofun

theorem BinaryOperator.apply_silent (op : BinaryOperator) (x y : Int) : Silent (op.apply x y) := by
  cases op with
  | div | mod => exact .ite nofun nofun
  | _ => exact nofun

theorem Heap.equal_silent (h : Heap) (x y : Item) : Silent (h.equal x y) := by
  unfold equal
  split <;> exact nofun

/-! ### Actions -/

namespace Action

/-- The action fails on this state with the report of an index for a length. -/
def Reports (a : Action σ α) (s : σ) (index : Int) (length : Nat) : Prop :=
  ∃ t, a s = .error (.indexOutOfRange index length) t

/-- The action may fail, but never with the report of an index. -/
def Quiet (a : Action σ α) : Prop := ∀ s index length, ¬a.Reports s index length

/-- A sequence reports what the first of its members that fails reports. -/
theorem reports_bind {a : Action σ α} {f : α → Action σ β} {s : σ} {index : Int} {length : Nat} :
    (a >>= f).Reports s index length ↔
      a.Reports s index length ∨ ∃ x t, a s = .ok x t ∧ (f x).Reports t index length := by
  constructor
  · rintro ⟨u, h⟩
    rcases bind_eq_error.1 h with h | ⟨x, t, hx, h⟩
    · exact .inl ⟨u, h⟩
    · exact .inr ⟨x, t, hx, u, h⟩
  · rintro (⟨u, h⟩ | ⟨x, t, hx, u, h⟩)
    · exact ⟨u, bind_eq_error.2 (.inl h)⟩
    · exact ⟨u, bind_eq_error.2 (.inr ⟨x, t, hx, h⟩)⟩

theorem reports_within {part : σ → τ} {replace : σ → τ → σ} {a : Action τ α} {s : σ} {index : Int} {length : Nat} :
    (within part replace a).Reports s index length ↔ a.Reports (part s) index length := by
  constructor
  · rintro ⟨u, h⟩
    obtain ⟨t, ht, -⟩ := within_eq_error.1 h
    exact ⟨t, ht⟩
  · rintro ⟨t, ht⟩
    exact ⟨_, within_eq_error.2 ⟨t, ht, rfl⟩⟩

theorem reports_ofExcept {x : Except Fault α} {s : σ} {index : Int} {length : Nat} :
    (ofExcept x : Action σ α).Reports s index length ↔ x = .error (.indexOutOfRange index length) := by
  constructor
  · rintro ⟨t, h⟩
    exact (ofExcept_eq_error.1 h).1
  · intro h
    exact ⟨s, ofExcept_eq_error.2 ⟨h, rfl⟩⟩

/-- A check reports its own fault, if what it lets happen is quiet. -/
theorem reports_throw_if {p : Prop} [Decidable p] {fault : Fault} {f : Unit → Action σ α} (hf : (f ()).Quiet) {s : σ}
    {index : Int} {length : Nat} :
    (if p then (MonadExcept.throw fault : Action σ Unit) >>= f else f ()).Reports s index length ↔
      p ∧ fault = .indexOutOfRange index length := by
  by_cases hp : p
  · rw [if_pos hp, and_iff_right hp]
    constructor
    · rintro ⟨t, h⟩
      cases h
      rfl
    · rintro rfl
      exact ⟨s, rfl⟩
  · rw [if_neg hp]
    exact iff_of_false (hf s index length) fun h => hp h.1

/-- A sequence reports no more than its first member if what comes after that is quiet. -/
theorem reports_bind_quiet {a : Action σ α} {f : α → Action σ β} (hf : ∀ x, Quiet (f x)) {s : σ} {index : Int}
    {length : Nat} : (a >>= f).Reports s index length ↔ a.Reports s index length := by
  rw [reports_bind]
  constructor
  · rintro (h | ⟨x, t, -, h⟩)
    · exact h
    · exact absurd h (hf x t index length)
  · exact .inl

namespace Quiet

theorem pure (x : α) : Quiet (Pure.pure x : Action σ α) := by
  rintro s index length ⟨t, h⟩
  cases h

theorem throw {fault : Fault} (hfault : fault.reportsIndex = false) :
    Quiet (MonadExcept.throw fault : Action σ α) := by
  rintro s index length ⟨t, h⟩
  cases h
  cases hfault

theorem ofExcept {x : Except Fault α} (hx : Silent x) : Quiet (Action.ofExcept x : Action σ α) := by
  intro s index length h
  exact hx index length (reports_ofExcept.1 h)

theorem bind {a : Action σ α} {f : α → Action σ β} (ha : Quiet a) (hf : ∀ x, Quiet (f x)) : Quiet (a >>= f) := by
  intro s index length h
  exact ha s index length ((reports_bind_quiet hf).1 h)

/-- A check lets the rest of the action happen or fails for a reason of its own. -/
theorem check {p : Prop} [Decidable p] {fault : Fault} {f : Unit → Action σ α}
    (hfault : fault.reportsIndex = false) (hf : Quiet (f ())) :
    Quiet (if p then (MonadExcept.throw fault : Action σ Unit) >>= f else f ()) := by
  split
  · exact bind (throw hfault) fun _ => hf
  · exact hf

theorem mapM {f : β → Action σ α} (hf : ∀ x, Quiet (f x)) (items : List β) : Quiet (items.mapM f) := by
  induction items with
  | nil => exact pure _
  | cons item items ih =>
    rw [List.mapM_cons]
    exact bind (hf item) fun _ => bind ih fun _ => pure _

theorem within {part : σ → τ} {replace : σ → τ → σ} {a : Action τ α} (ha : Quiet a) :
    Quiet (Action.within part replace a) := fun s index length h => ha (part s) index length (reports_within.1 h)

/-- An action that always succeeds reports nothing. -/
theorem of_ok {a : Action σ α} (ha : ∀ s, ∃ x t, a s = .ok x t) : Quiet a := by
  rintro s index length ⟨u, h⟩
  obtain ⟨x, t, hx⟩ := ha s
  rw [hx] at h
  cases h

end Quiet
end Action

/-! ### The workbench -/

open Action.Quiet

namespace Operation

variable {limits : Limits}

theorem push_quiet (item : Item) : (push item).Quiet := of_ok fun _ => ⟨_, _, rfl⟩

theorem pushAll_quiet (items : List Item) : (pushAll items).Quiet := of_ok fun _ => ⟨_, _, rfl⟩

theorem depth_quiet : depth.Quiet := of_ok fun _ => ⟨_, _, rfl⟩

theorem heap_quiet : heap.Quiet := of_ok fun _ => ⟨_, _, rfl⟩

theorem modifyHeap_quiet (f : Heap → Heap) : (modifyHeap f).Quiet := of_ok fun _ => ⟨_, _, rfl⟩

theorem newList_quiet (items : List Item) : (newList items).Quiet := of_ok fun _ => ⟨_, _, rfl⟩

theorem pushArray_quiet (items : List Item) : (pushArray items).Quiet := bind (newList_quiet items) fun _ => push_quiet _

theorem pop_quiet : pop.Quiet := by
  rintro w index length ⟨v, h⟩
  unfold pop at h
  split at h <;> cases h

theorem peek_quiet (n : Nat) : (peek n).Quiet := by
  rintro w index length ⟨v, h⟩
  unfold peek at h
  split at h <;> cases h

theorem removeAt_quiet (n : Nat) : (removeAt n).Quiet := by
  rintro w index length ⟨v, h⟩
  unfold removeAt at h
  split at h <;> cases h

theorem insertAt_quiet (n : Nat) (item : Item) : (insertAt n item).Quiet := by
  rintro w index length ⟨v, h⟩
  unfold insertAt at h
  split at h <;> cases h

theorem swapAt_quiet (n : Nat) : (swapAt n).Quiet := by
  rintro w index length ⟨v, h⟩
  unfold swapAt at h
  split at h <;> cases h

theorem popMany_quiet (n : Nat) : (popMany n).Quiet := by
  rintro w index length ⟨v, h⟩
  unfold popMany at h
  split at h <;> cases h

theorem duplicate_quiet (item : Item) : (duplicate item).Quiet := by
  rintro w index length ⟨v, h⟩
  unfold duplicate Heap.duplicate at h
  cases hcopy : (Heap.copyWithin w.heap.lists.size item).run w.heap <;> simp only [hcopy] at h <;> cases h

theorem pushDuplicate_quiet (item : Item) : (duplicate item >>= push).Quiet := bind (duplicate_quiet item) push_quiet

theorem popBytes_quiet : popBytes.Quiet := bind pop_quiet fun item => ofExcept item.toBytes_silent

theorem popBool_quiet : popBool.Quiet := bind pop_quiet fun _ => pure _

theorem popInteger_quiet : popInteger.Quiet := bind pop_quiet fun item => ofExcept item.toInteger_silent

theorem popPair_quiet : popPair.Quiet := bind popInteger_quiet fun _ => bind popInteger_quiet fun _ => pure _

theorem popShift_quiet : popShift.Quiet := by
  refine bind popInteger_quiet fun shift => ?_
  split
  · exact pure _
  · exact throw rfl

theorem pushInteger_quiet (value : Int) : (pushInteger value).Quiet := by
  unfold pushInteger
  split
  · exact throw rfl
  · exact push_quiet _

theorem collectionOf_quiet (item : Item) : (collectionOf item).Quiet := by
  refine bind heap_quiet fun h => ?_
  split <;> exact pure _

theorem popCollection_quiet : popCollection.Quiet := by
  refine bind pop_quiet fun item => bind (collectionOf_quiet item) fun found => ?_
  split
  · exact pure _
  · exact throw rfl

theorem popList_quiet : popList.Quiet :=
  bind pop_quiet fun item => bind (ofExcept item.toListRef_silent) fun _ => bind heap_quiet fun _ => pure _

theorem popElements_quiet : (popElements limits).Quiet := by
  refine bind pop_quiet fun item => bind (collectionOf_quiet item) fun found => ?_
  split
  · exact pure _
  · refine bind (ofExcept item.toInteger_silent) fun value => ?_
    split
    · exact throw rfl
    · exact check rfl (pure _)

theorem popByteList_quiet : popByteList.Quiet := by
  have hread (items : List Item) : Silent (items.mapM Item.toBytes) := .mapM Item.toBytes_silent items
  refine bind pop_quiet fun item => ?_
  split
  · exact bind heap_quiet fun _ => ofExcept (hread _)
  · exact bind heap_quiet fun _ => ofExcept (hread _)
  · refine bind (ofExcept item.toInteger_silent) fun _ => bind depth_quiet fun _ => check rfl ?_
    exact bind (popMany_quiet _) fun _ => ofExcept (hread _)

theorem signatureMessage_quiet (transaction : Option Transaction) : (signatureMessage transaction).Quiet := by
  unfold signatureMessage
  split
  · exact pure _
  · exact throw rfl

theorem checkMultisig_quiet (transaction : Option Transaction) : (checkMultisig transaction).Quiet := by
  refine bind popByteList_quiet fun keys => bind popByteList_quiet fun signatures => check rfl ?_
  exact bind (signatureMessage_quiet _) fun _ => push_quiet _

end Operation

/-! ### Operators -/

/-- The operator takes the item on top of the stack for a count, whatever it does with it. -/
def Operator.takesCount : Operator → Bool
  | stack .xdrop | stack .xswap | stack .xtuck | stack .pick | stack .roll
  | splice .substr | splice .left | splice .right
  | collection .pack => true
  | _ => false

/-- The operator checks an integer as a count or an index. -/
def Operator.indexes : Operator → Bool
  | collection .pickItem | collection .setItem | collection .remove => true
  | op => op.takesCount

open Operation

variable {limits : Limits} {transaction : Option Transaction}

theorem StackOperator.run_quiet {op : StackOperator} (hop : (Operator.stack op).indexes = false) : op.run.Quiet := by
  cases op with
  | xdrop | xswap | xtuck | pick | roll => cases hop
  | depth => exact bind depth_quiet fun _ => push_quiet _
  | drop => exact bind pop_quiet fun _ => pure _
  | dup => exact bind (peek_quiet 0) pushDuplicate_quiet
  | nip => exact bind (removeAt_quiet 1) fun _ => pure _
  | copyOver => exact bind (peek_quiet 1) pushDuplicate_quiet
  | rot => exact bind (removeAt_quiet 2) push_quiet
  | swap => exact swapAt_quiet 1
  | tuck => exact bind (peek_quiet 0) fun _ => bind (duplicate_quiet _) fun _ => insertAt_quiet 2 _

theorem SpliceOperator.run_quiet {op : SpliceOperator} (hop : (Operator.splice op).indexes = false) :
    (op.run limits).Quiet := by
  cases op with
  | substr | left | right => cases hop
  | cat => exact bind popBytes_quiet fun _ => bind popBytes_quiet fun _ => check rfl (push_quiet _)
  | size => exact bind popBytes_quiet fun _ => push_quiet _

theorem CollectionOperator.run_quiet {op : CollectionOperator} (hop : (Operator.collection op).indexes = false) :
    (op.run limits).Quiet := by
  cases op with
  | pack | pickItem | setItem | remove => cases hop
  | arraySize =>
    refine bind pop_quiet fun item => bind (collectionOf_quiet item) fun found => ?_
    split
    · exact push_quiet _
    · exact push_quiet _
    · exact bind (ofExcept item.toBytes_silent) fun _ => push_quiet _
  | unpack => exact bind popList_quiet fun _ => bind (pushAll_quiet _) fun _ => push_quiet _
  | newArray => exact bind popElements_quiet pushArray_quiet
  | newStruct => exact bind popElements_quiet fun items => bind (newList_quiet items) fun _ => push_quiet _
  | newMap => exact bind heap_quiet fun _ => bind (modifyHeap_quiet _) fun _ => push_quiet _
  | append =>
    refine bind pop_quiet fun item => bind (duplicate_quiet item) fun _ => bind popList_quiet fun _ => ?_
    exact check rfl (modifyHeap_quiet _)
  | reverse => exact bind popList_quiet fun _ => modifyHeap_quiet _
  | hasKey =>
    refine bind pop_quiet fun key => bind popCollection_quiet fun found => ?_
    cases found with
    | list ref items => exact bind (ofExcept key.toInteger_silent) fun _ => check rfl (push_quiet _)
    | map ref entries => exact bind (ofExcept (MapKey.ofItem_silent key)) fun _ => push_quiet _
  | keys =>
    exact bind pop_quiet fun item => bind (ofExcept item.toMapRef_silent) fun _ => bind heap_quiet fun _ =>
      pushArray_quiet _
  | values =>
    have hpush (items : List Item) : (items.mapM duplicate >>= pushArray).Quiet :=
      bind (mapM duplicate_quiet items) pushArray_quiet
    refine bind popCollection_quiet fun found => ?_
    cases found with
    | list ref items => exact bind (pure items) hpush
    | map ref entries => exact bind (pure _) hpush

/-- Most operators report no index. -/
theorem Operator.run_quiet {op : Operator} (hop : op.indexes = false) : (op.run limits transaction).Quiet := by
  cases op with
  | stack op => exact StackOperator.run_quiet hop
  | splice op => exact SpliceOperator.run_quiet hop
  | collection op => exact CollectionOperator.run_quiet hop
  | equal =>
    exact bind pop_quiet fun y => bind pop_quiet fun x => bind heap_quiet fun h =>
      bind (ofExcept (h.equal_silent x y)) fun _ => push_quiet _
  | unary op => exact bind popInteger_quiet fun _ => pushInteger_quiet _
  | binary op => exact bind popPair_quiet fun (x, y) => bind (ofExcept (op.apply_silent x y)) pushInteger_quiet
  | shift toLeft =>
    refine bind popShift_quiet fun shift => ?_
    split
    · exact bind popInteger_quiet fun _ => pushInteger_quiet _
    · exact pure _
  | compare op => exact bind popPair_quiet fun _ => push_quiet _
  | not => exact bind popBool_quiet fun _ => push_quiet _
  | nonzero => exact bind popInteger_quiet fun _ => push_quiet _
  | boolAnd | boolOr => exact bind popBool_quiet fun _ => bind popBool_quiet fun _ => push_quiet _
  | within =>
    exact bind popInteger_quiet fun _ => bind popInteger_quiet fun _ => bind popInteger_quiet fun _ => push_quiet _
  | hash function => exact bind popBytes_quiet fun _ => push_quiet _
  | checkSig =>
    exact bind popBytes_quiet fun _ => bind popBytes_quiet fun _ => bind (signatureMessage_quiet _) fun _ =>
      push_quiet _
  | verify => exact bind popBytes_quiet fun _ => bind popBytes_quiet fun _ => bind popBytes_quiet fun _ => push_quiet _
  | checkMultisig => exact checkMultisig_quiet _

end LedgerVM
