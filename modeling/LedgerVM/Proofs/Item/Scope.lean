import LedgerVM.Item.Coercion
import LedgerVM.Proofs.Item.CopyInduction

/-!
# What is in scope

A script gets at collections and at storage contexts only by following references from the items it was given, by
making new collections, and by asking for contexts.  A scope says which collections and which contexts these are;
an item is in scope if what it refers to is (`Scope.Holds`), and a heap keeps to the scope if the collections in
scope hold items in scope only (`Scope.HoldsHeap`).  Reading, writing, making and copying collections stays within
the scope.
-/

namespace LedgerVM

/-- The collections that may be referred to, and the contracts of which there may be storage contexts. -/
structure Scope where
  cells : CellId → Prop
  owners : Hash160 → Prop

namespace Scope

variable {scope : Scope}

/-- What the item refers to is in scope. -/
def Holds (scope : Scope) : Item → Prop
  | .array ref | .struct ref => scope.cells (.list ref)
  | .map ref => scope.cells (.map ref)
  | .interface handle => ∀ context, handle.entity = .storageContext context → scope.owners context.scriptHash
  | .boolean _ | .integer _ | .byteArray _ => True

/-- The collections in scope hold items in scope, and collections that will be made are in scope. -/
structure HoldsHeap (scope : Scope) (h : Heap) : Prop where
  list : ∀ ref, scope.cells (.list ref) → ∀ item ∈ h.list ref, scope.Holds item
  map : ∀ ref, scope.cells (.map ref) → ∀ entry ∈ h.map ref, scope.Holds entry.2
  newList : ∀ ref, h.lists.size ≤ ref → scope.cells (.list ref)
  newMap : ∀ ref, h.maps.size ≤ ref → scope.cells (.map ref)

theorem Holds.cell {item : Item} (h : scope.Holds item) {cell : CellId} (hcell : item.cell? = some cell) :
    scope.cells cell := by
  cases item with
  | array ref | struct ref | map ref =>
    cases hcell
    exact h
  | boolean _ | integer _ | byteArray _ | interface _ => cases hcell

/-- The same collections with the contexts of other contracts. -/
def withOwners (owners : Hash160 → Prop) (scope : Scope) : Scope := { scope with owners }

theorem Holds.mono {owners : Hash160 → Prop} (hmore : ∀ owner, scope.owners owner → owners owner) {item : Item}
    (h : scope.Holds item) : (scope.withOwners owners).Holds item := by
  cases item with
  | array ref | struct ref | map ref => exact h
  | interface handle => exact fun context hcontext => hmore _ (h context hcontext)
  | boolean _ | integer _ | byteArray _ => trivial

theorem HoldsHeap.mono {owners : Hash160 → Prop} (hmore : ∀ owner, scope.owners owner → owners owner) {h : Heap}
    (hh : scope.HoldsHeap h) : (scope.withOwners owners).HoldsHeap h where
  list ref href item hitem := (hh.list ref href item hitem).mono hmore
  map ref href entry hentry := (hh.map ref href entry hentry).mono hmore
  newList := hh.newList
  newMap := hh.newMap

/-! ### Items that refer to nothing -/

theorem holds_of_encoding? {item : Item} {bytes : Bytes} (h : item.encoding? = some bytes) : scope.Holds item := by
  cases item with
  | boolean _ | integer _ | byteArray _ => trivial
  | array ref | struct ref | map ref | interface handle => cases h

theorem holds_key (key : MapKey) : scope.Holds key.item := holds_of_encoding? key.encoding?_item

/-- The handle of anything but a storage context is in scope. -/
theorem holds_handle {handle : Handle} (h : handle.kind ≠ .storageContext) : scope.Holds (.interface handle) := by
  intro context hcontext
  refine absurd ?_ h
  rw [Handle.kind, hcontext]
  rfl

/-! ### Dictionaries -/

section Dictionary

variable {d : Dictionary} {key : MapKey}

theorem holds_find? (hd : ∀ entry ∈ d, scope.Holds entry.2) {item : Item} (h : d.find? key = some item) :
    scope.Holds item := by
  obtain ⟨entry, hfound, rfl⟩ := Option.map_eq_some_iff.1 h
  exact hd entry (List.mem_of_find?_eq_some hfound)

theorem holds_insert (hd : ∀ entry ∈ d, scope.Holds entry.2) {item : Item} (hitem : scope.Holds item) :
    ∀ entry ∈ d.insert key item, scope.Holds entry.2 := by
  induction d with
  | nil =>
    intro entry hentry
    rw [Dictionary.insert, List.mem_singleton] at hentry
    rw [hentry]
    exact hitem
  | cons first rest ih =>
    have hrest : ∀ entry ∈ rest, scope.Holds entry.2 := fun entry hentry =>
      hd entry (List.mem_cons_of_mem first hentry)
    intro entry hentry
    rw [Dictionary.insert] at hentry
    split at hentry
    · rcases List.mem_cons.1 hentry with rfl | hentry
      · exact hitem
      · exact hrest entry hentry
    · rcases List.mem_cons.1 hentry with rfl | hentry
      · exact hd _ List.mem_cons_self
      · exact ih hrest entry hentry

theorem holds_erase (hd : ∀ entry ∈ d, scope.Holds entry.2) : ∀ entry ∈ d.erase key, scope.Holds entry.2 :=
  fun entry hentry => hd entry (List.mem_of_mem_eraseP hentry)

end Dictionary

/-! ### The heap -/

namespace HoldsHeap

variable {h : Heap} (hh : scope.HoldsHeap h)
include hh

theorem addList {items : List Item} (hitems : ∀ item ∈ items, scope.Holds item) :
    scope.HoldsHeap (h.newList items).2 where
  list ref href item hitem := by
    rw [Heap.list_newList] at hitem
    split at hitem
    · exact hitems item hitem
    · exact hh.list ref href item hitem
  map := hh.map
  newList ref href := by
    refine hh.newList ref ?_
    simp only [Heap.newList, Array.size_push] at href
    omega
  newMap := hh.newMap

theorem addMap {entries : Dictionary} (hentries : ∀ entry ∈ entries, scope.Holds entry.2) :
    scope.HoldsHeap (h.newMap entries).2 where
  list := hh.list
  map ref href entry hentry := by
    rw [Heap.map_newMap] at hentry
    split at hentry
    · exact hentries entry hentry
    · exact hh.map ref href entry hentry
  newList := hh.newList
  newMap ref href := by
    refine hh.newMap ref ?_
    simp only [Heap.newMap, Array.size_push] at href
    omega

theorem setList (ref : Nat) {items : List Item} (hitems : ∀ item ∈ items, scope.Holds item) :
    scope.HoldsHeap (h.setList ref items) where
  list other hother item hitem := by
    rw [Heap.list_setList] at hitem
    split at hitem
    · exact hitems item hitem
    · exact hh.list other hother item hitem
  map := hh.map
  newList other hother := by
    refine hh.newList other ?_
    simpa only [Heap.setList, Array.size_setIfInBounds] using hother
  newMap := hh.newMap

theorem setMap (ref : Nat) {entries : Dictionary} (hentries : ∀ entry ∈ entries, scope.Holds entry.2) :
    scope.HoldsHeap (h.setMap ref entries) where
  list := hh.list
  map other hother entry hentry := by
    rw [Heap.map_setMap] at hentry
    split at hentry
    · exact hentries entry hentry
    · exact hh.map other hother entry hentry
  newList := hh.newList
  newMap other hother := by
    refine hh.newMap other ?_
    simpa only [Heap.setMap, Array.size_setIfInBounds] using hother

theorem addHandle (entity : Entity) : scope.HoldsHeap (h.newHandle entity).2 :=
  ⟨hh.list, hh.map, hh.newList, hh.newMap⟩

end HoldsHeap

/-! ### Copies -/

/-- Copying keeps to the scope. -/
theorem copyLaw_holds (scope : Scope) :
    Heap.CopyLaw scope.HoldsHeap (fun _ _ => True) (fun _ item => scope.Holds item)
      fun _ _ copy => scope.Holds copy where
  refl _ := trivial
  trans _ _ := trivial
  pre_mono _ hitem := hitem
  post_mono _ _ hcopy := hcopy
  shared _ hitem := hitem
  inside hh hitem := hh.list _ hitem
  made _ _ hk _ hcopies :=
    ⟨hk.addList (Heap.forall_of_forall₂ hcopies), trivial, hk.newList _ (Nat.le_refl _)⟩

/-- A copy refers to new structs and to what the item refers to. -/
theorem HoldsHeap.duplicate {h k : Heap} (hh : scope.HoldsHeap h) {item copy : Item} (hitem : scope.Holds item)
    (hrun : h.duplicate item = .ok (copy, k)) : scope.Holds copy ∧ scope.HoldsHeap k := by
  obtain ⟨hk, -, hcopy⟩ := scope.copyLaw_holds.of_duplicate hh hitem hrun
  exact ⟨hcopy, hk⟩

end Scope
end LedgerVM
