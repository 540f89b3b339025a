import LedgerVM.Operator.Run
import LedgerVM.Proofs.Bytes.Signed
import LedgerVM.Proofs.Operator.Keeping

/-!
# Operators keep within bounds

Bounds allow the limits of a run if whatever these let pass is within bounds, and so is everything small
(`Bounds.Allows`).  Then every operator keeps within bounds (`Operator.run_keeps`).  What is stored into a list is a
copy that was made after the list was taken up, so that a struct which is stored leads back to none that there were
(`Bounds.Continues`).
-/

namespace LedgerVM

instance : Holder Workbench where
  heap := Workbench.heap
  Has w item := item ∈ w.stack

namespace Bounds

/-- The bounds let pass what the limits let pass, whatever is small, and whatever is made from less of what they let
pass. -/
structure Allows (b : Bounds) (limits : Limits) : Prop where
  narrow : ∀ value, (Bytes.ofInt value).length ≤ Item.integerBytes → b.integers value
  encoded : ∀ value, b.integers value → b.bytes (Bytes.ofInt value)
  short : ∀ bytes : Bytes, bytes.length ≤ Item.integerBytes → b.bytes bytes
  literal : ∀ bytes : Bytes, bytes.length ≤ limits.itemSize → b.bytes bytes
  part : ∀ part whole : Bytes, part <:+: whole → b.bytes whole → b.bytes part
  count : ∀ n, n ≤ limits.arraySize → b.lengths n
  fewer : ∀ m n, m ≤ n → b.lengths n → b.lengths m

variable {b : Bounds} {limits : Limits} {h k : Heap} {α β : Type} {P : α → Prop}

/-- Machine words are narrow. -/
theorem Allows.word (hb : b.Allows limits) {value : Int} (hlow : -(2 ^ 64) ≤ value) (hhigh : value ≤ 2 ^ 64) :
    b.integers value := by
  refine hb.narrow value ((Bytes.length_ofInt_le 31 value).2 ?_)
  norm_num
  omega

theorem Allows.wrapInt64 (hb : b.Allows limits) (n : Nat) : b.integers (wrapInt64 n) := by
  have hsize : UInt64.size = 2 ^ 64 := rfl
  have hlow := Int.le_bmod (x := (n : Int)) (m := UInt64.size) (by decide)
  have hhigh := Int.bmod_lt (x := (n : Int)) (m := UInt64.size) (by decide)
  refine hb.word ?_ ?_
  · show _ ≤ (n : Int).bmod UInt64.size
    omega
  · show (n : Int).bmod UInt64.size ≤ _
    omega

theorem Allows.none (hb : b.Allows limits) : b.lengths 0 := hb.count 0 (Nat.zero_le _)

/-! ### Coercions -/

theorem Allows.encoding (hb : b.Allows limits) {item : Item} (hitem : b.Holds h item) {bytes : Bytes}
    (hbytes : item.encoding? = some bytes) : b.bytes bytes := by
  cases item with
  | boolean value =>
    refine hb.short bytes ?_
    cases value <;> cases hbytes <;> decide
  | integer value =>
    cases hbytes
    exact hb.encoded value hitem
  | byteArray bytes =>
    cases hbytes
    exact hitem
  | array _ | struct _ | map _ | interface _ => cases hbytes

theorem Allows.toBytes (hb : b.Allows limits) {item : Item} (hitem : b.Holds h item) :
    Answers b.bytes item.toBytes := item.toBytes_answers.mono fun _ hbytes => hb.encoding hitem hbytes

theorem Holds.toEntity (expected : Mismatch) {select : Entity → Option α}
    (hselect : ∀ entity x, select entity = some x → b.Covers entity → P x) {item : Item} (hitem : b.Holds h item) :
    Answers P (item.toEntity expected select) := by
  refine (item.toEntity_answers expected select).mono ?_
  rintro x ⟨handle, rfl, hx⟩
  exact hselect handle.entity x hx hitem

variable {Q : Heap → β → Prop}

/-- The reference of the collection is within bounds on one heap, and its contents are those on another. -/
def HoldsCollection (b : Bounds) (h k : Heap) : Collection → Prop
  | .list ref items => b.Holds h (.array ref) ∧ items = k.list ref
  | .map ref entries => b.Holds h (.map ref) ∧ entries = k.map ref

/-! ### Taking items off the stack -/

/-- The action only takes items off the stack.  These may be known from an older heap. -/
def Draws (b : Bounds) (h k : Heap) (P : α → Prop) (a : Operation α) : Prop :=
  ∀ w, w.heap = k → b.HoldsHeap k → (∀ item ∈ w.stack, b.Holds h item) →
    match a w with
    | .ok x u => u.heap = k ∧ (∀ item ∈ u.stack, b.Holds h item) ∧ P x
    | .error fault _ => fault.isRegular = true

/-- The action keeps within bounds where the items on the stack are known from an older heap. -/
def Continues (b : Bounds) (h k : Heap) (Q : Heap → β → Prop) (a : Operation β) : Prop :=
  ∀ w, w.heap = k → b.HoldsHeap k → (∀ item ∈ w.stack, b.Holds h item) → b.Outcome h Q (a w)

namespace Draws

theorem spares {a : Operation α} (ha : b.Draws h h P a) : b.Spares h P a := by
  intro w hheap hw
  have hdrawn := ha w hheap (hheap ▸ hw.heap) fun item hitem => hheap ▸ hw.items item hitem
  cases hrun : a w with
  | ok x u =>
    rw [hrun] at hdrawn
    obtain ⟨rfl, hstack, hx⟩ := hdrawn
    refine ⟨.refl _, ⟨?_, hstack⟩, rfl, hx⟩
    have hsame : Holder.heap w = Holder.heap u := hheap
    rw [← hsame]
    exact hw.heap
  | error fault u =>
    rw [hrun] at hdrawn
    exact .of_regular hdrawn

theorem pure {x : α} (hx : P x) : b.Draws h k P (Pure.pure x) := fun _ hheap _ hstack => ⟨hheap, hstack, hx⟩

theorem throw {fault : Fault} (hfault : fault.isRegular = true) : b.Draws h k P (MonadExcept.throw fault) :=
  fun _ _ _ _ => hfault

theorem ofExcept {x : Except Fault α} (hx : Answers P x) : b.Draws h k P (Action.ofExcept x) := by
  cases x with
  | ok a => exact pure hx
  | error fault => exact throw hx

theorem bind {a : Operation α} {f : α → Operation β} {R : β → Prop} (ha : b.Draws h k P a)
    (hf : ∀ x, P x → b.Draws h k R (f x)) : b.Draws h k R (a >>= f) := by
  intro w hheap hh hstack
  have hdrawn := ha w hheap hh hstack
  rw [Action.bind_apply]
  cases hrun : a w with
  | ok x u =>
    rw [hrun] at hdrawn
    obtain ⟨hheap, hstack, hx⟩ := hdrawn
    exact hf x hx u hheap hh hstack
  | error fault u =>
    rw [hrun] at hdrawn
    exact hdrawn

end Draws

namespace Continues

theorem after {a : Operation α} {f : α → Operation β} (ha : b.Draws h k P a)
    (hf : ∀ x, P x → b.Continues h k Q (f x)) : b.Continues h k Q (a >>= f) := by
  intro w hheap hh hstack
  have hdrawn := ha w hheap hh hstack
  rw [Action.bind_apply]
  cases hrun : a w with
  | ok x u =>
    rw [hrun] at hdrawn
    obtain ⟨hheap, hstack, hx⟩ := hdrawn
    exact hf x hx u hheap hh hstack
  | error fault u =>
    rw [hrun] at hdrawn
    exact .of_regular hdrawn

theorem of_keeps {a : Operation β} (hgrows : h.Grows k) (ha : b.Keeps k Q a) : b.Continues h k Q a := by
  intro w hheap hh hstack
  have hw : b.Fits w := by
    have hheap' : Holder.heap w = k := hheap
    refine ⟨hheap' ▸ hh, fun item hitem => ?_⟩
    rw [hheap']
    exact (hstack item hitem).mono hgrows
  exact (ha w hheap hw).trans hgrows

end Continues
end Bounds

namespace Operation

open Bounds

variable {b : Bounds} {limits : Limits} {h k : Heap} {Q : Heap → Unit → Prop}

/-! ### The stack -/

theorem push_spares {item : Item} (hitem : b.Holds h item) : b.Spares h (fun _ => True) (push item) := by
  rintro w rfl hw
  refine ⟨.refl _, ⟨hw.heap, ?_⟩, rfl, trivial⟩
  intro other hother
  rcases List.mem_cons.1 hother with rfl | hother
  · exact hitem
  · exact hw.items other hother

theorem pushAll_spares {items : List Item} (hitems : ∀ item ∈ items, b.Holds h item) :
    b.Spares h (fun _ => True) (pushAll items) := by
  rintro w rfl hw
  refine ⟨.refl _, ⟨hw.heap, ?_⟩, rfl, trivial⟩
  intro item hitem
  rcases List.mem_append.1 hitem with hitem | hitem
  · exact hitems item hitem
  · exact hw.items item hitem

theorem pop_draws : b.Draws h k (b.Holds h) pop := by
  intro w hheap _ hstack
  unfold pop
  cases hitems : w.stack with
  | nil => rfl
  | cons item rest =>
    rw [hitems] at hstack
    exact ⟨hheap, fun other hother => hstack other (List.mem_cons_of_mem item hother),
      hstack item List.mem_cons_self⟩

theorem pop_spares : b.Spares h (b.Holds h) pop := pop_draws.spares

theorem peek_spares (n : Nat) : b.Spares h (b.Holds h) (peek n) := by
  rintro w rfl hw
  unfold peek
  split
  · rename_i item hitem
    exact ⟨.refl _, hw, rfl, hw.items item (List.mem_of_getElem? hitem)⟩
  · exact .of_regular rfl

theorem removeAt_spares (n : Nat) : b.Spares h (b.Holds h) (removeAt n) := by
  rintro w rfl hw
  unfold removeAt
  split
  · rename_i item hitem
    exact ⟨.refl _, ⟨hw.heap, fun other hother => hw.items other (List.mem_of_mem_eraseIdx hother)⟩, rfl,
      hw.items item (List.mem_of_getElem? hitem)⟩
  · exact .of_regular rfl

theorem insertAt_spares (n : Nat) {item : Item} (hitem : b.Holds h item) :
    b.Spares h (fun _ => True) (insertAt n item) := by
  rintro w rfl hw
  unfold insertAt
  split
  · rename_i hn
    refine ⟨.refl _, ⟨hw.heap, ?_⟩, rfl, trivial⟩
    intro other hother
    rcases (List.mem_insertIdx hn).1 hother with rfl | hother
    · exact hitem
    · exact hw.items other hother
  · exact .of_regular rfl

theorem swapAt_spares (n : Nat) : b.Spares h (fun _ => True) (swapAt n) := by
  rintro w rfl hw
  unfold swapAt
  split
  · rename_i top item htop hitem
    refine ⟨.refl _, ⟨hw.heap, ?_⟩, rfl, trivial⟩
    intro other hother
    rcases List.mem_or_eq_of_mem_set hother with hother | rfl
    · rcases List.mem_or_eq_of_mem_set hother with hother | rfl
      · exact hw.items other hother
      · exact hw.items _ (List.mem_of_getElem? hitem)
    · exact hw.items _ (List.mem_of_getElem? htop)
  · exact .of_regular rfl

theorem popMany_spares (n : Nat) :
    b.Spares h (fun items => items.length = n ∧ ∀ item ∈ items, b.Holds h item) (popMany n) := by
  rintro w rfl hw
  unfold popMany
  split
  · rename_i hn
    refine ⟨.refl _, ⟨hw.heap, fun item hitem => hw.items item (List.mem_of_mem_drop hitem)⟩, rfl, ?_, ?_⟩
    · rw [List.length_take]
      omega
    · exact fun item hitem => hw.items item (List.mem_of_mem_take hitem)
  · exact .of_regular rfl

theorem depth_spares : b.Spares h (fun _ => True) depth := by
  rintro w rfl hw
  exact ⟨.refl _, hw, rfl, trivial⟩

/-! ### Operands -/

theorem popAs_spares {α : Type} {coerce : Item → Except Fault α} {P : α → Prop}
    (hcoerce : ∀ item, b.Holds h item → Answers P (coerce item)) :
    b.Spares h P (do Action.ofExcept (coerce (← pop))) :=
  .bind pop_spares fun item hitem => .ofExcept (hcoerce item hitem)

theorem popBytes_spares (hb : b.Allows limits) : b.Spares h b.bytes popBytes := popAs_spares fun _ => hb.toBytes

theorem popBool_spares : b.Spares h (fun _ => True) popBool := .bind pop_spares fun _ _ => .pure trivial

theorem popInteger_spares : b.Spares h (fun _ => True) popInteger := popAs_spares fun item _ => item.toInteger_answers

theorem popPair_spares : b.Spares h (fun _ => True) popPair :=
  .bind popInteger_spares fun _ _ => .bind popInteger_spares fun _ _ => .pure trivial

theorem popIndex_spares : b.Spares h (fun _ => True) popIndex := by
  refine .bind popInteger_spares fun value _ => ?_
  split
  · exact .pure trivial
  · exact .throw rfl

theorem popShift_spares : b.Spares h (fun _ => True) popShift := by
  refine .bind popInteger_spares fun shift _ => ?_
  split
  · exact .pure trivial
  · exact .throw rfl

theorem popHash160_spares (hb : b.Allows limits) : b.Spares h (fun _ => True) popHash160 := by
  refine .bind (popBytes_spares hb) fun bytes _ => ?_
  split
  · exact .pure trivial
  · exact .throw rfl

theorem popHash256_spares (hb : b.Allows limits) : b.Spares h (fun _ => True) popHash256 := by
  refine .bind (popBytes_spares hb) fun bytes _ => ?_
  split
  · exact .pure trivial
  · exact .throw rfl

/-! ### Results -/

theorem pushBool_spares (value : Bool) : b.Spares h (fun _ => True) (pushBool value) := push_spares trivial

theorem pushBytes_spares {bytes : Bytes} (hbytes : b.bytes bytes) : b.Spares h (fun _ => True) (pushBytes bytes) :=
  push_spares hbytes

theorem pushNumber_spares {value : Int} (hvalue : b.integers value) :
    b.Spares h (fun _ => True) (pushNumber value) := push_spares hvalue

theorem pushInteger_spares (hb : b.Allows limits) (value : Int) :
    b.Spares h (fun _ => True) (pushInteger value) := by
  unfold pushInteger
  split
  · exact .throw rfl
  · rename_i hnarrow
    exact push_spares (hb.narrow value (Nat.le_of_not_lt hnarrow))

/-! ### The heap -/

theorem heap_draws : b.Draws h k (fun found => found = k ∧ b.HoldsHeap k) heap := fun _ hheap hh hstack =>
  ⟨hheap, hstack, hheap, hh⟩

theorem heap_spares : b.Spares h (fun found => found = h ∧ b.HoldsHeap h) heap := heap_draws.spares

theorem modifyHeap_keeps {f : Heap → Heap} (hgrows : h.Grows (f h)) (hf : b.HoldsHeap h → b.HoldsHeap (f h)) :
    b.Keeps h (fun k _ => k = f h) (modifyHeap f) := by
  rintro w rfl hw
  exact ⟨hgrows, ⟨hf hw.heap, fun item hitem => (hw.items item hitem).mono hgrows⟩, rfl⟩

theorem setList_keeps {ref : Nat} {items : List Item}
    (hf : b.HoldsHeap h → b.HoldsHeap (h.setList ref items)) :
    b.Keeps h (fun _ _ => True) (modifyHeap (·.setList ref items)) :=
  .mono (modifyHeap_keeps (h.grows_setList ref items) hf) fun _ _ _ => trivial

theorem setMap_keeps {ref : Nat} {entries : Dictionary} (hitems : ∀ item ∈ entries.items, b.Holds h item)
    (hlength : b.lengths entries.length) : b.Keeps h (fun _ _ => True) (modifyHeap (·.setMap ref entries)) :=
  .mono (modifyHeap_keeps (h.grows_setMap ref entries) fun hh => hh.setMap hitems hlength) fun _ _ _ => trivial

theorem newList_keeps {items : List Item} (hitems : ∀ item ∈ items, b.Holds h item) (hlength : b.lengths items.length) :
    b.Keeps h (fun k ref => b.Holds k (.array ref)) (newList items) := by
  rintro w rfl hw
  have hgrows := w.heap.grows_newList items
  refine ⟨hgrows, ⟨hw.heap.newList hitems hlength, fun item hitem => (hw.items item hitem).mono hgrows⟩, ?_, ?_⟩
  · exact hw.heap.made _ (Nat.lt_irrefl _)
  · show w.heap.lists.size < (w.heap.newList items).2.lists.size
    simp [Heap.newList]

theorem pushArray_keeps {items : List Item} (hitems : ∀ item ∈ items, b.Holds h item)
    (hlength : b.lengths items.length) : b.Keeps h (fun _ _ => True) (pushArray items) :=
  .bind (newList_keeps hitems hlength) fun _ _ _ href => (push_spares href).done

theorem newHandle_keeps (entity : Entity) :
    b.Keeps h (fun _ handle => handle.entity = entity) (newHandle entity) := by
  rintro w rfl hw
  have hgrows := w.heap.grows_newHandle entity
  exact ⟨hgrows, ⟨hw.heap.newHandle entity, fun item hitem => (hw.items item hitem).mono hgrows⟩, rfl⟩

/-- A copy is made; what comes after it knows the items on the stack from before. -/
theorem duplicate_bind {item : Item} {f : Item → Operation Unit} (hitem : b.Holds h item)
    (hf : ∀ copy k, b.Copied h k → b.Holds k copy → copy.Above h.lists.size → b.Continues h k Q (f copy)) :
    b.Keeps h Q (duplicate item >>= f) := by
  rintro w rfl hw
  rw [Action.bind_apply]
  unfold duplicate
  cases hrun : w.heap.duplicate item with
  | ok result =>
    obtain ⟨copy, k⟩ := result
    obtain ⟨hk, hcopy, habove⟩ := hw.heap.duplicate hitem hrun
    exact hf copy k hk hcopy habove { w with heap := k } rfl hk.holds hw.items
  | error fault =>
    intro hacyclic
    obtain ⟨copy, k, hends⟩ := hw.heap.duplicate_ends hacyclic hitem
    have hrun : w.heap.duplicate item = .error fault := hrun
    rw [show w.heap.duplicate item = .ok (copy, k) from hends] at hrun
    cases hrun

theorem duplicate_keeps {item : Item} (hitem : b.Holds h item) : b.Keeps h b.Holds (duplicate item) := by
  rintro w rfl hw
  unfold duplicate
  cases hrun : w.heap.duplicate item with
  | ok result =>
    obtain ⟨copy, k⟩ := result
    obtain ⟨hk, hcopy, -⟩ := hw.heap.duplicate hitem hrun
    exact ⟨hk.grows, ⟨hk.holds, fun other hother => (hw.items other hother).mono hk.grows⟩, hcopy⟩
  | error fault =>
    intro hacyclic
    obtain ⟨copy, k, hends⟩ := hw.heap.duplicate_ends hacyclic hitem
    have hrun : w.heap.duplicate item = .error fault := hrun
    rw [show w.heap.duplicate item = .ok (copy, k) from hends] at hrun
    cases hrun

theorem equal_spares {x y : Item} (hh : b.HoldsHeap h) (hx : b.Holds h x) :
    b.Spares h (fun _ => True) (Action.ofExcept (h.equal x y) : Operation Bool) := by
  rintro w rfl hw
  unfold Action.ofExcept
  cases hrun : Heap.equal (Holder.heap w) x y with
  | ok answer => exact ⟨.refl _, hw, rfl, trivial⟩
  | error fault =>
    intro hacyclic
    obtain ⟨answer, hends⟩ := hh.equal_ends hacyclic hx y
    rw [hends] at hrun
    cases hrun

/-! ### Collections -/

theorem collectionOf_draws {item : Item} (hitem : b.Holds h item) :
    b.Draws h k (fun found => ∀ collection ∈ found, b.HoldsCollection h k collection) (collectionOf item) := by
  refine .bind heap_draws fun found hfound => ?_
  obtain ⟨rfl, -⟩ := hfound
  cases item with
  | array ref | struct ref | map ref =>
    refine .pure ?_
    rintro collection ⟨⟩
    exact ⟨hitem, rfl⟩
  | _ => exact .pure (by simp)

theorem popCollection_draws : b.Draws h k (b.HoldsCollection h k) popCollection := by
  refine .bind pop_draws fun item hitem => .bind (collectionOf_draws hitem) fun found hfound => ?_
  cases found with
  | some collection => exact .pure (hfound collection rfl)
  | none => exact .throw rfl

theorem popList_draws :
    b.Draws h k (fun found => b.Holds h (.array found.1) ∧ found.2 = k.list found.1) popList := by
  refine .bind pop_draws fun item hitem => .bind (.ofExcept item.toListRef_answers) fun ref hcell => ?_
  refine .bind heap_draws fun found hfound => ?_
  obtain ⟨rfl, -⟩ := hfound
  exact .pure ⟨hitem.cell hcell, rfl⟩

theorem popElements_spares (hb : b.Allows limits) :
    b.Spares h (fun items => (∀ item ∈ items, b.Holds h item) ∧ b.lengths items.length) (popElements limits) := by
  refine .of_holds fun hh => .bind pop_spares fun item hitem => ?_
  refine .bind (collectionOf_draws hitem).spares fun found hfound => ?_
  rcases found with _ | ⟨ref, items⟩ | ⟨ref, entries⟩
  case some.list =>
    obtain ⟨href, rfl⟩ := hfound _ rfl
    exact .pure ⟨hh.inside (.list ref) href.1, hh.extent (.list ref) href.1⟩
  all_goals
    refine .bind (.ofExcept item.toInteger_answers) fun value _ => ?_
    cases index? value with
    | none => exact .throw rfl
    | some count =>
      refine .check rfl fun hcount => .pure ⟨?_, ?_⟩
      · intro element helement
        rw [List.eq_of_mem_replicate helement]
        trivial
      · rw [List.length_replicate]
        exact hb.count count (Nat.le_of_not_lt hcount)

end Operation

open Operation Bounds

variable {b : Bounds} {limits : Limits}

/-! ### Operators -/

theorem StackOperator.run_keeps (hb : b.Allows limits) (op : StackOperator) : b.Preserves op.run := by
  intro h
  -- the operators that copy an item put the copy somewhere on the stack
  have hpush {item : Item} (hitem : b.Holds h item) :
      b.Keeps h (fun _ _ => True) (do push (← duplicate item)) :=
    .bind (duplicate_keeps hitem) fun _ _ _ hcopy => (push_spares hcopy).done
  have hinsert (n : Nat) {item : Item} (hitem : b.Holds h item) :
      b.Keeps h (fun _ _ => True) (do insertAt n (← duplicate item)) :=
    .bind (duplicate_keeps hitem) fun _ _ _ hcopy => (insertAt_spares n hcopy).done
  cases op with
  | xdrop => exact .after popIndex_spares fun n _ => .after (removeAt_spares n) fun _ _ => .pure trivial
  | xswap => exact .after popIndex_spares fun n _ => (swapAt_spares n).done
  | xtuck =>
    refine .after popIndex_spares fun n _ => .check rfl fun _ => ?_
    exact .after (peek_spares 0) fun item hitem => hinsert n hitem
  | depth => exact .after depth_spares fun n _ => (pushNumber_spares (hb.wrapInt64 n)).done
  | drop => exact .after pop_spares fun _ _ => .pure trivial
  | dup => exact .after (peek_spares 0) fun _ hitem => hpush hitem
  | nip => exact .after (removeAt_spares 1) fun _ _ => .pure trivial
  | copyOver => exact .after (peek_spares 1) fun _ hitem => hpush hitem
  | pick => exact .after popIndex_spares fun n _ => .after (peek_spares n) fun _ hitem => hpush hitem
  | roll =>
    refine .after popIndex_spares fun n _ => ?_
    split
    · exact .after (removeAt_spares n) fun _ hitem => (push_spares hitem).done
    · exact .pure trivial
  | rot => exact .after (removeAt_spares 2) fun _ hitem => (push_spares hitem).done
  | swap => exact (swapAt_spares 1).done
  | tuck => exact .after (peek_spares 0) fun _ hitem => hinsert 2 hitem

theorem SpliceOperator.run_keeps (hb : b.Allows limits) (op : SpliceOperator) : b.Preserves (op.run limits) := by
  intro h
  have hpush {bytes : Bytes} (hbytes : b.bytes bytes) : b.Keeps h (fun _ _ => True) (pushBytes bytes) :=
    (pushBytes_spares hbytes).done
  cases op with
  | cat =>
    refine .after (popBytes_spares hb) fun second _ => .after (popBytes_spares hb) fun first _ => ?_
    refine .check rfl fun hsize => hpush (hb.literal _ ?_)
    rw [List.length_append]
    omega
  | substr =>
    refine .after popIndex_spares fun count _ => .after popIndex_spares fun index _ => ?_
    refine .after (popBytes_spares hb) fun bytes hbytes => hpush (hb.part _ bytes ?_ hbytes)
    exact (List.take_prefix _ _).isInfix.trans (List.drop_suffix _ _).isInfix
  | left =>
    refine .after popIndex_spares fun count _ => .after (popBytes_spares hb) fun bytes hbytes => ?_
    exact hpush (hb.part _ bytes (List.take_prefix _ _).isInfix hbytes)
  | right =>
    refine .after popIndex_spares fun count _ => .after (popBytes_spares hb) fun bytes hbytes => ?_
    exact .check rfl fun _ => hpush (hb.part _ bytes (List.drop_suffix _ _).isInfix hbytes)
  | size =>
    refine .after (popBytes_spares hb) fun bytes _ => ?_
    exact (pushNumber_spares (hb.wrapInt64 _)).done

theorem CollectionOperator.run_keeps (hb : b.Allows limits) (op : CollectionOperator) :
    b.Preserves (op.run limits) := by
  intro h
  refine .of_holds fun hh => ?_
  have hnumber (n : Nat) : b.Keeps h (fun _ _ => True) (pushNumber (wrapInt64 n)) :=
    (pushNumber_spares (hb.wrapInt64 n)).done
  have hbool (value : Bool) : b.Keeps h (fun _ _ => True) (pushBool value) :=
    (pushBool_spares value).done
  cases op with
  | arraySize =>
    refine .after pop_spares fun item hitem => .after (collectionOf_draws hitem).spares fun found _ => ?_
    rcases found with _ | ⟨ref, items⟩ | ⟨ref, entries⟩
    · exact .after (.ofExcept (hb.toBytes hitem)) fun bytes _ => hnumber _
    · exact hnumber _
    · exact hnumber _
  | pack =>
    refine .after popIndex_spares fun size _ => .check rfl fun hsize => ?_
    refine .after (popMany_spares size) fun items ⟨hlength, hitems⟩ => pushArray_keeps hitems (hb.count _ ?_)
    omega
  | unpack =>
    refine .after popList_draws.spares fun (ref, items) ⟨href, hitems⟩ => ?_
    have hinside : ∀ item ∈ items, b.Holds h item := by
      rw [show items = h.list ref from hitems]
      exact hh.inside (.list ref) href.1
    exact .after (pushAll_spares hinside) fun _ _ => hnumber _
  | pickItem =>
    refine .after pop_spares fun key _ => .after popCollection_draws.spares fun collection hcollection => ?_
    cases collection with
    | list ref items =>
      obtain ⟨href, rfl⟩ := hcollection
      refine .after (.ofExcept (elementIndex_answers key _)) fun index _ => ?_
      refine (push_spares ?_).done
      rw [List.getD_eq_getElem?_getD]
      cases hfound : (h.list ref)[index]? with
      | none => trivial
      | some item => exact hh.inside (.list ref) href.1 item (List.mem_of_getElem? hfound)
    | map ref entries =>
      obtain ⟨href, rfl⟩ := hcollection
      refine .after (.ofExcept (MapKey.ofItem_answers key)) fun key _ => ?_
      split
      · rename_i value hfound
        refine (push_spares ?_).done
        obtain ⟨entry, hentry, rfl⟩ := Option.map_eq_some_iff.1 hfound
        exact hh.inside (.map ref) href.1 _
          (Dictionary.mem_items.2 ⟨entry, List.mem_of_find?_eq_some hentry, .inr rfl⟩)
      · exact .throw rfl
  | setItem =>
    refine .after pop_spares fun item hitem => duplicate_bind hitem fun value k hk hvalue habove => ?_
    refine .after pop_draws fun key hkey => .after popCollection_draws fun collection hcollection => ?_
    refine .of_keeps hk.grows ?_
    cases collection with
    | list ref items =>
      obtain ⟨href, rfl⟩ := hcollection
      refine .after (.ofExcept (elementIndex_answers key _)) fun index _ => setList_keeps fun hk' => ?_
      -- the list was there before the copy was made
      refine hk'.setList (hk.closed _ (Nat.le_refl _) h.sealed_size) href.2 href.1 (fun element helement => ?_) ?_
      · rcases List.mem_or_eq_of_mem_set helement with helement | rfl
        · exact .inl helement
        · exact .inr ⟨hvalue, habove⟩
      · rw [List.length_set]
        exact hk'.extent (.list ref) href.1
    | map ref entries =>
      obtain ⟨href, rfl⟩ := hcollection
      refine .after (.ofExcept (MapKey.ofItem_answers key)) fun mapKey hmapKey => .check rfl fun hroom => ?_
      refine setMap_keeps (fun element helement => ?_) ?_
      · rcases Dictionary.mem_items_insert helement with helement | rfl | rfl
        · exact hk.holds.inside (.map ref) href.1 element helement
        · rw [hmapKey]
          exact hkey.mono hk.grows
        · exact hvalue
      · rw [Dictionary.length_insert]
        split
        · exact hk.holds.extent (.map ref) href.1
        · rename_i hnew
          refine hb.count _ ?_
          simp only [hnew, Bool.not_false, Bool.true_and, decide_eq_true_eq] at hroom
          omega
  | newArray =>
    exact .after (popElements_spares hb) fun items ⟨hitems, hlength⟩ => pushArray_keeps hitems hlength
  | newStruct =>
    refine .after (popElements_spares hb) fun items ⟨hitems, hlength⟩ => ?_
    refine .bind (newList_keeps hitems hlength) fun k ref _ href => ?_
    have hstruct : b.Holds k (.struct ref) := href
    exact (push_spares hstruct).done
  | newMap =>
    refine .after heap_spares fun found ⟨hfound, _⟩ => ?_
    subst hfound
    refine .bind (modifyHeap_keeps (found.grows_newMap []) fun hh => hh.newMap hb.none) fun k _ _ hk => ?_
    subst hk
    have hmade : b.Holds (found.newMap []).2 (.map (found.newMap []).1) := by
      refine ⟨hh.made _ (Nat.lt_irrefl _), ?_⟩
      simp [Heap.newMap]
    exact (push_spares hmade).done
  | append =>
    refine .after pop_spares fun item hitem => duplicate_bind hitem fun copy k hk hcopy habove => ?_
    refine .after popList_draws fun found hfound => .of_keeps hk.grows ?_
    obtain ⟨ref, items⟩ := found
    obtain ⟨href, hitems⟩ := hfound
    refine .check rfl fun hroom => setList_keeps fun hk' => ?_
    refine hk'.setList (hk.closed _ (Nat.le_refl _) h.sealed_size) href.2 href.1 (fun element helement => ?_) ?_
    · rcases List.mem_append.1 helement with helement | helement
      · exact .inl (hitems ▸ helement)
      · rw [List.mem_singleton.1 helement]
        exact .inr ⟨hcopy, habove⟩
    · rw [List.length_append, List.length_singleton]
      exact hb.count _ (Nat.lt_of_not_le hroom)
  | reverse =>
    refine .after popList_draws.spares fun (ref, items) ⟨href, hitems⟩ => setList_keeps fun _ => ?_
    refine hh.setList_of_subset href.1 href.2 (fun element helement => ?_) ?_
    · exact hitems ▸ List.mem_reverse.1 helement
    · rw [List.length_reverse, show items = h.list ref from hitems]
      exact hh.extent (.list ref) href.1
  | remove =>
    refine .after pop_spares fun key _ => .after popCollection_draws.spares fun collection hcollection => ?_
    cases collection with
    | list ref items =>
      obtain ⟨href, rfl⟩ := hcollection
      refine .after (.ofExcept (elementIndex_answers key _)) fun index _ => setList_keeps fun _ => ?_
      refine hh.setList_of_subset href.1 href.2 (fun element => List.mem_of_mem_eraseIdx) ?_
      exact hb.fewer _ _ (List.length_eraseIdx_le _ _) (hh.extent (.list ref) href.1)
    | map ref entries =>
      obtain ⟨href, rfl⟩ := hcollection
      refine .after (.ofExcept (MapKey.ofItem_answers key)) fun mapKey _ => setMap_keeps (fun element helement => ?_) ?_
      · exact hh.inside (.map ref) href.1 element (Dictionary.mem_items_erase helement)
      · exact hb.fewer _ _ (List.length_eraseP_le) (hh.extent (.map ref) href.1)
  | hasKey =>
    refine .after pop_spares fun key _ => .after popCollection_draws.spares fun collection _ => ?_
    cases collection with
    | list ref items =>
      refine .after (.ofExcept key.toInteger_answers) fun index _ => .check rfl fun _ => ?_
      exact hbool _
    | map ref entries => exact .after (.ofExcept (MapKey.ofItem_answers key)) fun _ _ => hbool _
  | keys =>
    refine .after pop_spares fun item hitem => .after (.ofExcept item.toMapRef_answers) fun ref hcell => ?_
    refine .after heap_spares fun found ⟨hfound, _⟩ => ?_
    subst hfound
    have hinside := (hitem.cell hcell).1
    refine pushArray_keeps (fun key hkey => ?_) ?_
    · obtain ⟨entry, hentry, rfl⟩ := List.mem_map.1 hkey
      exact hh.inside (.map ref) hinside _ (Dictionary.mem_items.2 ⟨entry, hentry, .inl rfl⟩)
    · rw [Dictionary.keys, List.length_map]
      exact hh.extent (.map ref) hinside
  | values =>
    have hcopies {items : List Item} (hitems : ∀ item ∈ items, b.Holds h item) (hlength : b.lengths items.length) :
        b.Keeps h (fun _ _ => True) (do pushArray (← items.mapM duplicate)) := by
      have hall : ∀ k, h.Grows k → ∀ item ∈ items, b.Keeps k b.Holds (duplicate item) := fun k hk item hitem =>
        duplicate_keeps ((hitems item hitem).mono hk)
      refine .bind (.mapM (fun hgrows hx => hx.mono hgrows) hall) fun k copies _ hcopied => ?_
      exact pushArray_keeps hcopied.2 (hcopied.1 ▸ hlength)
    refine .after popCollection_draws.spares fun collection hcollection => ?_
    cases collection with
    | list ref items =>
      obtain ⟨href, rfl⟩ := hcollection
      exact hcopies (hh.inside (.list ref) href.1) (hh.extent (.list ref) href.1)
    | map ref entries =>
      obtain ⟨href, rfl⟩ := hcollection
      refine hcopies (fun value hvalue => ?_) ?_
      · obtain ⟨entry, hentry, rfl⟩ := List.mem_map.1 hvalue
        exact hh.inside (.map ref) href.1 _ (Dictionary.mem_items.2 ⟨entry, hentry, .inr rfl⟩)
      · rw [Dictionary.values, List.length_map]
        exact hh.extent (.map ref) href.1

namespace Operation

variable {h : Heap}

theorem signatureMessage_spares (transaction : Option Transaction) :
    b.Spares h (fun _ => True) (signatureMessage transaction) := by
  cases transaction with
  | some tx => exact .pure trivial
  | none => exact .throw rfl

theorem popByteList_spares (hb : b.Allows limits) : b.Spares h (fun _ => True) popByteList := by
  have hbytes {items : List Item} (hitems : ∀ item ∈ items, b.Holds h item) :
      b.Spares h (fun _ => True) (Action.ofExcept (items.mapM Item.toBytes) : Operation (List Bytes)) :=
    .mono (.ofExcept (.mapM fun item hitem => hb.toBytes (hitems item hitem))) fun _ _ => trivial
  refine .of_holds fun hh => .bind pop_spares fun item hitem => ?_
  cases item with
  | array ref | struct ref =>
    refine .bind heap_spares fun found ⟨hfound, _⟩ => ?_
    subst hfound
    exact hbytes (hh.inside (.list ref) hitem.1)
  | _ =>
    refine .bind (.ofExcept (Item.toInteger_answers _)) fun value _ => .bind depth_spares fun size _ => ?_
    exact .check rfl fun _ => .bind (popMany_spares _) fun items ⟨_, hitems⟩ => hbytes hitems

theorem checkMultisig_spares (hb : b.Allows limits) (transaction : Option Transaction) :
    b.Spares h (fun _ => True) (checkMultisig transaction) := by
  refine .bind (popByteList_spares hb) fun keys _ => .bind (popByteList_spares hb) fun signatures _ => ?_
  refine .check rfl fun _ => ?_
  exact .bind (signatureMessage_spares transaction) fun message _ => pushBool_spares _

end Operation

theorem HashFunction.length_apply_le (function : HashFunction) (data : Bytes) :
    (function.apply data).length ≤ Item.integerBytes := by
  cases function <;> simp [HashFunction.apply, Digest.length_bytes, Item.integerBytes]

/-- Every operator keeps within bounds that allow the limits. -/
theorem Operator.run_keeps (hb : b.Allows limits) (transaction : Option Transaction) (op : Operator) :
    b.Preserves (op.run limits transaction) := by
  intro h
  have hbool (value : Bool) : b.Keeps h (fun _ _ => True) (pushBool value) :=
    (pushBool_spares value).done
  have hinteger (value : Int) : b.Keeps h (fun _ _ => True) (pushInteger value) :=
    (pushInteger_spares hb value).done
  cases op with
  | stack op => exact op.run_keeps hb h
  | splice op => exact op.run_keeps hb h
  | equal =>
    refine .after pop_spares fun y hy => .after pop_spares fun x hx => .after heap_spares fun found ⟨hfound, hh⟩ => ?_
    subst hfound
    exact .after (equal_spares hh hx) fun _ _ => hbool _
  | unary op => exact .after popInteger_spares fun x _ => hinteger _
  | binary op =>
    refine .after popPair_spares fun (x, y) _ => .after (.ofExcept (op.apply_answers x y)) fun value _ => ?_
    exact hinteger value
  | shift toLeft =>
    refine .after popShift_spares fun shift _ => ?_
    split
    · exact .after popInteger_spares fun x _ => hinteger _
    · exact .pure trivial
  | compare op => exact .after popPair_spares fun (x, y) _ => hbool _
  | not => exact .after popBool_spares fun _ _ => hbool _
  | nonzero => exact .after popInteger_spares fun _ _ => hbool _
  | boolAnd | boolOr => exact .after popBool_spares fun _ _ => .after popBool_spares fun _ _ => hbool _
  | within =>
    refine .after popInteger_spares fun upper _ => .after popInteger_spares fun lower _ => ?_
    exact .after popInteger_spares fun x _ => hbool _
  | hash function =>
    refine .after (popBytes_spares hb) fun data _ => (pushBytes_spares ?_).done
    exact hb.short _ (function.length_apply_le data)
  | checkSig =>
    refine .after (popBytes_spares hb) fun key _ => .after (popBytes_spares hb) fun signature _ => ?_
    exact .after (signatureMessage_spares transaction) fun message _ => hbool _
  | verify =>
    refine .after (popBytes_spares hb) fun key _ => .after (popBytes_spares hb) fun signature _ => ?_
    exact .after (popBytes_spares hb) fun message _ => hbool _
  | checkMultisig => exact (checkMultisig_spares hb transaction).done
  | collection op => exact op.run_keeps hb h

end LedgerVM
