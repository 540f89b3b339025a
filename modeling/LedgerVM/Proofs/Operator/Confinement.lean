import LedgerVM.Proofs.Item.Scope
import LedgerVM.Proofs.Operator.Answers

/-!
# Operators stay in scope

An operation on the evaluation stack is confined if it leaves nothing out of scope on a workbench that holds nothing
out of scope.  The ways to the stack and to the heap are, and so is every operator (`Operator.run_confined`).
-/

namespace LedgerVM

/-- The stack and the heap hold items in scope. -/
structure Scope.HoldsBench (scope : Scope) (w : Workbench) : Prop where
  stack : ∀ item ∈ w.stack, scope.Holds item
  heap : scope.HoldsHeap w.heap

/-- The operation leaves the workbench in scope and gives values of this kind. -/
def Scope.Confines {α : Type} (scope : Scope) (Q : α → Prop) (operation : Operation α) : Prop :=
  Action.Maintains scope.HoldsBench Q operation

theorem Heap.equal_yields (h : Heap) (a b : Item) : Yields (fun _ => True) (h.equal a b) := by
  unfold Heap.equal
  split
  · trivial
  · nofun

namespace Operation

variable {scope : Scope}

/-! ### The stack -/

theorem push_confined {item : Item} (hitem : scope.Holds item) : scope.Confines (fun _ => True) (push item) := by
  intro w hw
  refine ⟨⟨?_, hw.heap⟩, trivial⟩
  intro other hother
  rcases List.mem_cons.1 hother with rfl | hother
  · exact hitem
  · exact hw.stack other hother

theorem pushAll_confined {items : List Item} (hitems : ∀ item ∈ items, scope.Holds item) :
    scope.Confines (fun _ => True) (pushAll items) := by
  intro w hw
  refine ⟨⟨?_, hw.heap⟩, trivial⟩
  intro item hitem
  rcases List.mem_append.1 hitem with hitem | hitem
  · exact hitems item hitem
  · exact hw.stack item hitem

theorem pop_confined : scope.Confines scope.Holds pop := by
  intro w hw
  unfold pop
  split
  · rename_i item rest hstack
    have hholds := hw.stack
    rw [hstack] at hholds
    exact ⟨⟨fun other hother => hholds other (List.mem_cons_of_mem item hother), hw.heap⟩,
      hholds item List.mem_cons_self⟩
  · nofun

theorem peek_confined (n : Nat) : scope.Confines scope.Holds (peek n) := by
  intro w hw
  unfold peek
  split
  · rename_i item hitem
    exact ⟨hw, hw.stack item (List.mem_of_getElem? hitem)⟩
  · nofun

theorem removeAt_confined (n : Nat) : scope.Confines scope.Holds (removeAt n) := by
  intro w hw
  unfold removeAt
  split
  · rename_i item hitem
    exact ⟨⟨fun other hother => hw.stack other (List.mem_of_mem_eraseIdx hother), hw.heap⟩,
      hw.stack item (List.mem_of_getElem? hitem)⟩
  · nofun

theorem insertAt_confined (n : Nat) {item : Item} (hitem : scope.Holds item) :
    scope.Confines (fun _ => True) (insertAt n item) := by
  intro w hw
  unfold insertAt
  split
  · rename_i hn
    refine ⟨⟨?_, hw.heap⟩, trivial⟩
    intro other hother
    rcases (List.mem_insertIdx hn).1 hother with rfl | hother
    · exact hitem
    · exact hw.stack other hother
  · nofun

theorem swapAt_confined (n : Nat) : scope.Confines (fun _ => True) (swapAt n) := by
  intro w hw
  unfold swapAt
  split
  · rename_i top item htop hitem
    refine ⟨⟨?_, hw.heap⟩, trivial⟩
    intro other hother
    rcases List.mem_or_eq_of_mem_set hother with hother | rfl
    · rcases List.mem_or_eq_of_mem_set hother with hother | rfl
      · exact hw.stack other hother
      · exact hw.stack _ (List.mem_of_getElem? hitem)
    · exact hw.stack _ (List.mem_of_getElem? htop)
  · nofun

theorem popMany_confined (n : Nat) :
    scope.Confines (fun items => ∀ item ∈ items, scope.Holds item) (popMany n) := by
  intro w hw
  unfold popMany
  split
  · exact ⟨⟨fun item hitem => hw.stack item (List.mem_of_mem_drop hitem), hw.heap⟩,
      fun item hitem => hw.stack item (List.mem_of_mem_take hitem)⟩
  · nofun

theorem depth_confined : scope.Confines (fun _ => True) depth := fun _ hw => ⟨hw, trivial⟩

/-! ### Operands -/

theorem popAs_confined {α : Type} {coerce : Item → Except Fault α} {Q : α → Prop}
    (hcoerce : ∀ item, scope.Holds item → Yields Q (coerce item)) :
    scope.Confines Q (do Action.ofExcept (coerce (← pop))) :=
  .bind pop_confined fun item hitem => .ofExcept (hcoerce item hitem)

theorem popBytes_confined : scope.Confines (fun _ => True) popBytes :=
  popAs_confined fun item _ => item.toBytes_answers.yields.mono fun _ _ => trivial

theorem popBool_confined : scope.Confines (fun _ => True) popBool := .bind pop_confined fun _ _ => .pure trivial

theorem popInteger_confined : scope.Confines (fun _ => True) popInteger :=
  popAs_confined fun item _ => item.toInteger_answers.yields

theorem popPair_confined : scope.Confines (fun _ => True) popPair :=
  .bind popInteger_confined fun _ _ => .bind popInteger_confined fun _ _ => .pure trivial

theorem popIndex_confined : scope.Confines (fun _ => True) popIndex := by
  refine .bind popInteger_confined fun value _ => ?_
  split
  · exact .pure trivial
  · exact .throw nofun

theorem popShift_confined : scope.Confines (fun _ => True) popShift := by
  refine .bind popInteger_confined fun shift _ => ?_
  split
  · exact .pure trivial
  · exact .throw nofun

theorem popHash160_confined : scope.Confines (fun _ => True) popHash160 := by
  refine .bind popBytes_confined fun bytes _ => ?_
  split
  · exact .pure trivial
  · exact .throw nofun

theorem popHash256_confined : scope.Confines (fun _ => True) popHash256 := by
  refine .bind popBytes_confined fun bytes _ => ?_
  split
  · exact .pure trivial
  · exact .throw nofun

/-! ### Results -/

theorem pushBool_confined (value : Bool) : scope.Confines (fun _ => True) (pushBool value) := push_confined trivial

theorem pushBytes_confined (bytes : Bytes) : scope.Confines (fun _ => True) (pushBytes bytes) :=
  push_confined trivial

theorem pushNumber_confined (value : Int) : scope.Confines (fun _ => True) (pushNumber value) :=
  push_confined trivial

theorem pushInteger_confined (value : Int) : scope.Confines (fun _ => True) (pushInteger value) := by
  unfold pushInteger
  split
  · exact .throw nofun
  · exact push_confined trivial

/-! ### The heap -/

theorem heap_confined : scope.Confines scope.HoldsHeap heap := fun _ hw => ⟨hw, hw.heap⟩

theorem modifyHeap_confined {f : Heap → Heap} (hf : ∀ h, scope.HoldsHeap h → scope.HoldsHeap (f h)) :
    scope.Confines (fun _ => True) (modifyHeap f) := fun w hw => ⟨⟨hw.stack, hf w.heap hw.heap⟩, trivial⟩

theorem newList_confined {items : List Item} (hitems : ∀ item ∈ items, scope.Holds item) :
    scope.Confines (fun ref => scope.cells (.list ref)) (newList items) := fun _ hw =>
  ⟨⟨hw.stack, hw.heap.addList hitems⟩, hw.heap.newList _ (Nat.le_refl _)⟩

theorem pushArray_confined {items : List Item} (hitems : ∀ item ∈ items, scope.Holds item) :
    scope.Confines (fun _ => True) (pushArray items) :=
  .bind (newList_confined hitems) fun _ href => push_confined href

theorem newHandle_confined (entity : Entity) :
    scope.Confines (fun handle => handle.entity = entity) (newHandle entity) := fun _ hw =>
  ⟨⟨hw.stack, hw.heap.addHandle entity⟩, rfl⟩

theorem duplicate_confined {item : Item} (hitem : scope.Holds item) :
    scope.Confines scope.Holds (duplicate item) := by
  intro w hw
  unfold duplicate
  split
  · rename_i copy heap hcopy
    obtain ⟨hholds, hheap⟩ := hw.heap.duplicate hitem hcopy
    exact ⟨⟨hw.stack, hheap⟩, hholds⟩
  · rename_i fault hcopy
    unfold Heap.duplicate at hcopy
    split at hcopy
    · cases hcopy
    · cases hcopy
      nofun

/-! ### Collections -/

/-- The reference of the collection is in scope, and so is what was found under it. -/
def HoldsCollection (scope : Scope) : Collection → Prop
  | .list ref items => scope.cells (.list ref) ∧ ∀ item ∈ items, scope.Holds item
  | .map ref entries => scope.cells (.map ref) ∧ ∀ entry ∈ entries, scope.Holds entry.2

theorem collectionOf_confined {item : Item} (hitem : scope.Holds item) :
    scope.Confines (fun found => ∀ collection ∈ found, HoldsCollection scope collection) (collectionOf item) := by
  refine .bind heap_confined fun h hh => ?_
  cases item with
  | array ref | struct ref =>
    refine .pure ?_
    rintro collection ⟨⟩
    exact ⟨hitem, hh.list ref hitem⟩
  | map ref =>
    refine .pure ?_
    rintro collection ⟨⟩
    exact ⟨hitem, hh.map ref hitem⟩
  | _ => exact .pure (by simp)

theorem popCollection_confined : scope.Confines (HoldsCollection scope) popCollection := by
  refine .bind pop_confined fun item hitem => .bind (collectionOf_confined hitem) fun found hfound => ?_
  cases found with
  | some collection => exact .pure (hfound collection rfl)
  | none => exact .throw nofun

theorem popList_confined :
    scope.Confines (fun (found : Nat × List Item) => ∀ item ∈ found.2, scope.Holds item) popList := by
  refine .bind pop_confined fun item hitem => .bind (.ofExcept item.toListRef_answers.yields) fun ref hcell => ?_
  exact .bind heap_confined fun h hh => .pure (hh.list ref (hitem.cell hcell))

theorem popElements_confined (limits : Limits) :
    scope.Confines (fun items => ∀ item ∈ items, scope.Holds item) (popElements limits) := by
  refine .bind pop_confined fun item hitem => .bind (collectionOf_confined hitem) fun found hfound => ?_
  rcases found with _ | ⟨ref, items⟩ | ⟨ref, entries⟩
  case some.list => exact .pure (hfound _ rfl).2
  all_goals
    refine .bind (.ofExcept item.toInteger_answers.yields) fun value _ => ?_
    cases index? value with
    | none => exact .throw nofun
    | some count =>
      refine .check nofun fun _ => .pure ?_
      intro element helement
      rw [List.eq_of_mem_replicate helement]
      trivial

end Operation

open Operation

variable {scope : Scope}

/-! ### Operators -/

theorem StackOperator.run_confined (op : StackOperator) : scope.Confines (fun _ => True) op.run := by
  cases op with
  | xdrop => exact .bind popIndex_confined fun n _ => .bind (removeAt_confined n) fun _ _ => .pure trivial
  | xswap => exact .bind popIndex_confined fun n _ => swapAt_confined n
  | xtuck =>
    refine .bind popIndex_confined fun n _ => .check nofun fun _ => ?_
    exact .bind (peek_confined 0) fun item hitem => .bind (duplicate_confined hitem) fun _ hcopy =>
      insertAt_confined n hcopy
  | depth => exact .bind depth_confined fun _ _ => pushNumber_confined _
  | drop => exact .bind pop_confined fun _ _ => .pure trivial
  | dup => exact .bind (peek_confined 0) fun _ hitem => .bind (duplicate_confined hitem) fun _ => push_confined
  | nip => exact .bind (removeAt_confined 1) fun _ _ => .pure trivial
  | copyOver =>
    exact .bind (peek_confined 1) fun _ hitem => .bind (duplicate_confined hitem) fun _ => push_confined
  | pick =>
    refine .bind popIndex_confined fun n _ => ?_
    exact .bind (peek_confined n) fun _ hitem => .bind (duplicate_confined hitem) fun _ => push_confined
  | roll =>
    refine .bind popIndex_confined fun n _ => ?_
    split
    · exact .bind (removeAt_confined n) fun _ => push_confined
    · exact .pure trivial
  | rot => exact .bind (removeAt_confined 2) fun _ => push_confined
  | swap => exact swapAt_confined 1
  | tuck =>
    exact .bind (peek_confined 0) fun _ hitem => .bind (duplicate_confined hitem) fun _ => insertAt_confined 2

theorem SpliceOperator.run_confined (limits : Limits) (op : SpliceOperator) :
    scope.Confines (fun _ => True) (op.run limits) := by
  cases op with
  | cat =>
    refine .bind popBytes_confined fun second _ => .bind popBytes_confined fun first _ => ?_
    exact .check nofun fun _ => pushBytes_confined _
  | substr =>
    refine .bind popIndex_confined fun count _ => .bind popIndex_confined fun index _ => ?_
    exact .bind popBytes_confined fun bytes _ => pushBytes_confined _
  | left => exact .bind popIndex_confined fun count _ => .bind popBytes_confined fun bytes _ => pushBytes_confined _
  | right =>
    refine .bind popIndex_confined fun count _ => .bind popBytes_confined fun bytes _ => ?_
    exact .check nofun fun _ => pushBytes_confined _
  | size => exact .bind popBytes_confined fun bytes _ => pushNumber_confined _

theorem CollectionOperator.run_confined (limits : Limits) (op : CollectionOperator) :
    scope.Confines (fun _ => True) (op.run limits) := by
  cases op with
  | arraySize =>
    refine .bind pop_confined fun item hitem => .bind (collectionOf_confined hitem) fun found _ => ?_
    rcases found with _ | ⟨ref, items⟩ | ⟨ref, entries⟩
    · exact .bind (.ofExcept item.toBytes_answers.yields) fun _ _ => pushNumber_confined _
    · exact pushNumber_confined _
    · exact pushNumber_confined _
  | pack =>
    refine .bind popIndex_confined fun size _ => .check nofun fun _ => ?_
    exact .bind (popMany_confined size) fun _ => pushArray_confined
  | unpack =>
    refine .bind popList_confined fun (ref, items) hitems => ?_
    exact .bind (pushAll_confined hitems) fun _ _ => pushNumber_confined _
  | pickItem =>
    refine .bind pop_confined fun key _ => .bind popCollection_confined fun collection hcollection => ?_
    cases collection with
    | list ref items =>
      refine .bind (.ofExcept (elementIndex_answers key _).yields) fun index _ => push_confined ?_
      rw [List.getD_eq_getElem?_getD]
      cases hfound : items[index]? with
      | none => trivial
      | some item => exact hcollection.2 item (List.mem_of_getElem? hfound)
    | map ref entries =>
      refine .bind (.ofExcept (MapKey.ofItem_answers key).yields) fun key _ => ?_
      split
      · rename_i value hfound
        exact push_confined (Scope.holds_find? hcollection.2 hfound)
      · exact .throw nofun
  | setItem =>
    refine .bind pop_confined fun item hitem => .bind (duplicate_confined hitem) fun value hvalue => ?_
    refine .bind pop_confined fun key _ => .bind popCollection_confined fun collection hcollection => ?_
    cases collection with
    | list ref items =>
      refine .bind (.ofExcept (elementIndex_answers key _).yields) fun index _ => modifyHeap_confined fun h hh => ?_
      refine hh.setList ref fun element helement => ?_
      rcases List.mem_or_eq_of_mem_set helement with helement | rfl
      · exact hcollection.2 element helement
      · exact hvalue
    | map ref entries =>
      refine .bind (.ofExcept (MapKey.ofItem_answers key).yields) fun key _ => .check nofun fun _ => ?_
      exact modifyHeap_confined fun h hh => hh.setMap ref (Scope.holds_insert hcollection.2 hvalue)
  | newArray => exact .bind (popElements_confined limits) fun _ => pushArray_confined
  | newStruct =>
    refine .bind (popElements_confined limits) fun items hitems => ?_
    exact .bind (newList_confined hitems) fun _ href => push_confined href
  | newMap =>
    refine .bind heap_confined fun h hh => ?_
    refine .bind (modifyHeap_confined fun _ _ => hh.addMap (by simp)) fun _ _ => ?_
    exact push_confined (hh.newMap _ (Nat.le_refl _))
  | append =>
    refine .bind pop_confined fun item hitem => .bind (duplicate_confined hitem) fun copy hcopy => ?_
    refine .bind popList_confined fun (ref, items) hitems => .check nofun fun _ => ?_
    refine modifyHeap_confined fun h hh => hh.setList ref fun element helement => ?_
    rcases List.mem_append.1 helement with helement | helement
    · exact hitems element helement
    · rw [List.mem_singleton.1 helement]
      exact hcopy
  | reverse =>
    refine .bind popList_confined fun (ref, items) hitems => modifyHeap_confined fun h hh => ?_
    exact hh.setList ref fun element helement => hitems element (List.mem_reverse.1 helement)
  | remove =>
    refine .bind pop_confined fun key _ => .bind popCollection_confined fun collection hcollection => ?_
    cases collection with
    | list ref items =>
      refine .bind (.ofExcept (elementIndex_answers key _).yields) fun index _ => modifyHeap_confined fun h hh => ?_
      exact hh.setList ref fun element helement => hcollection.2 element (List.mem_of_mem_eraseIdx helement)
    | map ref entries =>
      refine .bind (.ofExcept (MapKey.ofItem_answers key).yields) fun key _ => modifyHeap_confined fun h hh => ?_
      exact hh.setMap ref (Scope.holds_erase hcollection.2)
  | hasKey =>
    refine .bind pop_confined fun key _ => .bind popCollection_confined fun collection _ => ?_
    cases collection with
    | list ref items =>
      refine .bind (.ofExcept key.toInteger_answers.yields) fun index _ => .check nofun fun _ => ?_
      exact pushBool_confined _
    | map ref entries => exact .bind (.ofExcept (MapKey.ofItem_answers key).yields) fun _ _ => pushBool_confined _
  | keys =>
    refine .bind pop_confined fun item _ => .bind (.ofExcept item.toMapRef_answers.yields) fun ref _ => ?_
    refine .bind heap_confined fun h _ => pushArray_confined fun key hkey => ?_
    obtain ⟨entry, -, rfl⟩ := List.mem_map.1 hkey
    exact Scope.holds_key entry.1
  | values =>
    have hcopies {items : List Item} (hitems : ∀ item ∈ items, scope.Holds item) :
        scope.Confines (fun _ => True) (do .pushArray (← items.mapM .duplicate)) :=
      .bind (.mapM fun item hitem => duplicate_confined (hitems item hitem)) fun _ => pushArray_confined
    refine .bind popCollection_confined fun collection hcollection => ?_
    cases collection with
    | list ref items => exact hcopies hcollection.2
    | map ref entries =>
      refine hcopies fun value hvalue => ?_
      obtain ⟨entry, hentry, rfl⟩ := List.mem_map.1 hvalue
      exact hcollection.2 entry hentry

namespace Operation

theorem signatureMessage_confined (transaction : Option Transaction) :
    scope.Confines (fun _ => True) (signatureMessage transaction) := by
  cases transaction with
  | some tx => exact .pure trivial
  | none => exact .throw nofun

theorem popByteList_confined : scope.Confines (fun _ => True) popByteList := by
  have hbytes (items : List Item) :
      scope.Confines (fun _ => True) (Action.ofExcept (items.mapM Item.toBytes)) := by
    have hitem (item : Item) : Yields (fun _ => True) item.toBytes :=
      item.toBytes_answers.yields.mono fun _ _ => trivial
    exact .mono (.ofExcept (.mapM fun item _ => hitem item)) fun _ _ => trivial
  refine .bind pop_confined fun item hitem => ?_
  cases item with
  | array ref | struct ref => exact .bind heap_confined fun h _ => hbytes _
  | _ =>
    refine .bind (.ofExcept (Item.toInteger_answers _).yields) fun value _ => .bind depth_confined fun size _ => ?_
    exact .check nofun fun _ => .bind (popMany_confined _) fun items _ => hbytes items

theorem checkMultisig_confined (transaction : Option Transaction) :
    scope.Confines (fun _ => True) (checkMultisig transaction) := by
  refine .bind popByteList_confined fun keys _ => .bind popByteList_confined fun signatures _ => ?_
  refine .check nofun fun _ => ?_
  exact .bind (signatureMessage_confined transaction) fun message _ => pushBool_confined _

end Operation

/-- Every operator stays in scope. -/
theorem Operator.run_confined (limits : Limits) (transaction : Option Transaction) (op : Operator) :
    scope.Confines (fun _ => True) (op.run limits transaction) := by
  cases op with
  | stack op => exact op.run_confined
  | splice op => exact op.run_confined limits
  | equal =>
    refine .bind pop_confined fun b _ => .bind pop_confined fun a _ => .bind heap_confined fun h _ => ?_
    exact .bind (.ofExcept (h.equal_yields a b)) fun _ _ => pushBool_confined _
  | unary op => exact .bind popInteger_confined fun x _ => pushInteger_confined _
  | binary op =>
    refine .bind popPair_confined fun (a, b) _ => .bind (.ofExcept (op.apply_answers a b).yields) fun value _ => ?_
    exact pushInteger_confined value
  | shift toLeft =>
    refine .bind popShift_confined fun shift _ => ?_
    split
    · exact .bind popInteger_confined fun x _ => pushInteger_confined _
    · exact .pure trivial
  | compare op => exact .bind popPair_confined fun (a, b) _ => pushBool_confined _
  | not => exact .bind popBool_confined fun _ _ => pushBool_confined _
  | nonzero => exact .bind popInteger_confined fun _ _ => pushBool_confined _
  | boolAnd | boolOr => exact .bind popBool_confined fun _ _ => .bind popBool_confined fun _ _ => pushBool_confined _
  | within =>
    refine .bind popInteger_confined fun upper _ => .bind popInteger_confined fun lower _ => ?_
    exact .bind popInteger_confined fun x _ => pushBool_confined _
  | hash function => exact .bind popBytes_confined fun _ _ => pushBytes_confined _
  | checkSig =>
    refine .bind popBytes_confined fun key _ => .bind popBytes_confined fun signature _ => ?_
    exact .bind (signatureMessage_confined transaction) fun message _ => pushBool_confined _
  | verify =>
    refine .bind popBytes_confined fun key _ => .bind popBytes_confined fun signature _ => ?_
    exact .bind popBytes_confined fun message _ => pushBool_confined _
  | checkMultisig => exact checkMultisig_confined transaction
  | collection op => exact op.run_confined limits

end LedgerVM
