import LedgerVM.Operator.Run
import LedgerVM.Proofs.Operator.Copies

/-!
# Operators that add to the heap

Four operators edit a collection in place (`CollectionOperator.edited?`).  All others leave every collection that there
was as it was, though they may make new ones (`Operator.run_adds`).
-/

namespace LedgerVM

theorem Heap.keptIn_newMap (h : Heap) (entries : Dictionary) : h.KeptIn (h.newMap entries).2 where
  toGrows := h.grows_newMap entries
  list _ _ := rfl
  map ref hin := by rw [map_newMap, if_neg (Nat.ne_of_lt hin)]

namespace Operation.Adds

variable {α : Type} {limits : Limits}

/-- An operation on the stack alone adds nothing to the heap. -/
theorem of_stack {operation : Operation α} (h : ∀ w x v, operation w = .ok x v → v.heap = w.heap) :
    operation.Adds := by
  intro w x v hrun
  rw [h w x v hrun]
  exact .refl w.heap

theorem pushAll (items : List Item) : Adds (pushAll items) := of_stack fun _ _ _ h => by cases h; rfl

theorem depth : Adds depth := of_stack fun _ _ _ h => by cases h; rfl

theorem heap : Adds heap := of_stack fun _ _ _ h => by cases h; rfl

theorem peek (n : Nat) : Adds (peek n) := by
  refine of_stack fun w x v h => ?_
  unfold Operation.peek at h
  split at h <;> cases h
  rfl

theorem removeAt (n : Nat) : Adds (removeAt n) := by
  refine of_stack fun w x v h => ?_
  unfold Operation.removeAt at h
  split at h <;> cases h
  rfl

theorem insertAt (n : Nat) (item : Item) : Adds (insertAt n item) := by
  refine of_stack fun w x v h => ?_
  unfold Operation.insertAt at h
  split at h <;> cases h
  rfl

theorem swapAt (n : Nat) : Adds (swapAt n) := by
  refine of_stack fun w x v h => ?_
  unfold Operation.swapAt at h
  split at h <;> cases h
  rfl

theorem popMany (n : Nat) : Adds (popMany n) := by
  refine of_stack fun w x v h => ?_
  unfold Operation.popMany at h
  split at h <;> cases h
  rfl

theorem popShift : Adds popShift := by
  refine bind (popAs _) fun shift => ?_
  split
  · exact pure _
  · exact throw _

theorem popPair : Adds popPair := bind (popAs _) fun _ => bind (popAs _) fun _ => pure _

theorem popBool : Adds popBool := bind pop fun _ => pure _

theorem pushInteger (value : Int) : Adds (pushInteger value) := by
  unfold Operation.pushInteger
  split
  · exact throw _
  · exact push _

theorem newList (items : List Item) : Adds (newList items) := by
  intro w x v h
  cases h
  exact w.heap.keptIn_newList items

theorem duplicate (item : Item) : Adds (duplicate item) := by
  intro w copy v h
  obtain ⟨k, hk, rfl⟩ := duplicate_eq_ok h
  exact (Heap.duplicate_copyOf hk).1.toKeptIn

theorem pushDuplicate (item : Item) : Adds (Operation.duplicate item >>= Operation.push) :=
  bind (duplicate item) push

theorem collectionOf (item : Item) : Adds (collectionOf item) := by
  refine bind heap fun h => ?_
  split <;> exact pure _

theorem popCollection : Adds popCollection := by
  refine bind pop fun item => bind (collectionOf item) fun found => ?_
  split
  · exact pure _
  · exact throw _

theorem popList : Adds popList := bind pop fun _ => bind (ofExcept _) fun _ => bind heap fun _ => pure _

theorem popElements : Adds (popElements limits) := by
  refine bind pop fun item => bind (collectionOf item) fun found => ?_
  split
  · exact pure _
  · refine bind (ofExcept _) fun value => ?_
    split
    · exact throw _
    · exact check (pure _)

theorem popByteList : Adds popByteList := by
  refine bind pop fun item => ?_
  split
  · exact bind heap fun _ => ofExcept _
  · exact bind heap fun _ => ofExcept _
  · exact bind (ofExcept _) fun _ => bind depth fun _ => check (bind (popMany _) fun _ => ofExcept _)

theorem signatureMessage (transaction : Option Transaction) : Adds (signatureMessage transaction) := by
  unfold Operation.signatureMessage
  split
  · exact pure _
  · exact throw _

end Operation.Adds

open Operation.Adds in
theorem StackOperator.run_adds (op : StackOperator) : op.run.Adds := by
  cases op with
  | xdrop => exact bind popIndex fun _ => bind (removeAt _) fun _ => pure _
  | xswap => exact bind popIndex fun _ => swapAt _
  | xtuck => exact bind popIndex fun _ => check (bind (peek 0) fun _ => bind (duplicate _) fun _ => insertAt _ _)
  | depth => exact bind Operation.Adds.depth fun _ => push _
  | drop => exact bind pop fun _ => pure _
  | dup => exact bind (peek 0) pushDuplicate
  | nip => exact bind (removeAt 1) fun _ => pure _
  | copyOver => exact bind (peek 1) pushDuplicate
  | pick => exact bind popIndex fun _ => bind (peek _) pushDuplicate
  | roll =>
    refine bind popIndex fun n => ?_
    split
    · exact bind (removeAt n) fun _ => push _
    · exact pure _
  | rot => exact bind (removeAt 2) fun _ => push _
  | swap => exact swapAt 1
  | tuck => exact bind (peek 0) fun _ => bind (duplicate _) fun _ => insertAt 2 _

open Operation.Adds in
theorem SpliceOperator.run_adds (limits : Limits) (op : SpliceOperator) : (op.run limits).Adds := by
  cases op with
  | cat => exact bind (popAs _) fun _ => bind (popAs _) fun _ => check (push _)
  | substr => exact bind popIndex fun _ => bind popIndex fun _ => bind (popAs _) fun _ => push _
  | left => exact bind popIndex fun _ => bind (popAs _) fun _ => push _
  | right => exact bind popIndex fun _ => bind (popAs _) fun _ => check (push _)
  | size => exact bind (popAs _) fun _ => push _

open Operation.Adds in
theorem CollectionOperator.run_adds (limits : Limits) {op : CollectionOperator} (hop : op.edited? = none) :
    (op.run limits).Adds := by
  cases op with
  | arraySize =>
    refine bind pop fun item => bind (collectionOf item) fun found => ?_
    split
    · exact push _
    · exact push _
    · exact bind (ofExcept _) fun _ => push _
  | pack => exact bind popIndex fun _ => check (bind (popMany _) fun _ => pushArray _)
  | unpack => exact bind popList fun _ => bind (pushAll _) fun _ => push _
  | pickItem =>
    refine bind pop fun key => bind popCollection fun found => ?_
    cases found with
    | list ref items => exact bind (ofExcept _) fun _ => push _
    | map ref entries =>
      refine bind (ofExcept _) fun key => ?_
      split
      · exact push _
      · exact throw _
  | newArray => exact bind popElements fun _ => pushArray _
  | newStruct => exact bind popElements fun _ => bind (newList _) fun _ => push _
  | newMap =>
    intro w x v hrun
    cases hrun
    exact w.heap.keptIn_newMap []
  | hasKey =>
    refine bind pop fun key => bind popCollection fun found => ?_
    cases found with
    | list ref items => exact bind (ofExcept _) fun _ => check (push _)
    | map ref entries => exact bind (ofExcept _) fun _ => push _
  | keys => exact bind pop fun _ => bind (ofExcept _) fun _ => bind heap fun _ => pushArray _
  | values =>
    refine bind popCollection fun found => ?_
    cases found with
    | list ref items => exact bind (pure _) fun _ => bind (mapM duplicate _) fun _ => pushArray _
    | map ref entries => exact bind (pure _) fun _ => bind (mapM duplicate _) fun _ => pushArray _
  | setItem | append | reverse | remove => cases hop

open Operation.Adds in
theorem Operator.run_adds (limits : Limits) (transaction : Option Transaction) {op : Operator}
    (hop : ∀ edit, op = .collection edit → edit.edited? = none) : (op.run limits transaction).Adds := by
  cases op with
  | stack op => exact op.run_adds
  | splice op => exact op.run_adds limits
  | equal => exact bind pop fun _ => bind pop fun _ => bind heap fun _ => bind (ofExcept _) fun _ => push _
  | unary op => exact bind (popAs _) fun _ => pushInteger _
  | binary op => exact bind popPair fun _ => bind (ofExcept _) fun _ => pushInteger _
  | shift toLeft =>
    refine bind popShift fun shift => ?_
    split
    · exact bind (popAs _) fun _ => pushInteger _
    · exact pure _
  | compare op => exact bind popPair fun _ => push _
  | not => exact bind popBool fun _ => push _
  | nonzero => exact bind (popAs _) fun _ => push _
  | boolAnd | boolOr => exact bind popBool fun _ => bind popBool fun _ => push _
  | within => exact bind (popAs _) fun _ => bind (popAs _) fun _ => bind (popAs _) fun _ => push _
  | hash function => exact bind (popAs _) fun _ => push _
  | checkSig =>
    exact bind (popAs _) fun _ => bind (popAs _) fun _ => bind (signatureMessage _) fun _ => push _
  | verify => exact bind (popAs _) fun _ => bind (popAs _) fun _ => bind (popAs _) fun _ => push _
  | checkMultisig =>
    refine bind popByteList fun keys => bind popByteList fun signatures => ?_
    exact check (bind (signatureMessage _) fun _ => push _)
  | collection op => exact op.run_adds limits (hop op rfl)

end LedgerVM
