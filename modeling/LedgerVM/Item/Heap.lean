import LedgerVM.Item.Dictionary

/-!
# The heap of collections

Arrays and structs are references to lists of items and maps are references to dictionaries, so a
change made through one reference shows through every other.  Collections are only ever added, and
references are never used again for another collection.

* `Heap.list`, `Heap.map`: the contents behind a reference.
* `Item.cell?`, `Heap.contents`: the edges of the graph that items form.
-/

namespace LedgerVM

/-- The lists and dictionaries that items refer to, and how many fresh handles were made. -/
structure Heap where
  lists : Array (List Item) := #[]
  maps : Array Dictionary := #[]
  handles : Nat := 0

/-- The identity of a collection. -/
inductive CellId where
  | list (ref : Nat)
  | map (ref : Nat)
  deriving DecidableEq, Repr

/-- A number for each collection: lists have the even ones and maps the odd ones. -/
def CellId.number : CellId → Nat
  | list ref => 2 * ref
  | map ref => 2 * ref + 1

/-- The collection an item refers to. -/
def Item.cell? : Item → Option CellId
  | array ref | struct ref => some (.list ref)
  | map ref => some (.map ref)
  | boolean _ | integer _ | byteArray _ | interface _ => none

namespace Heap

/-- The heap without collections. -/
def empty : Heap := {}

instance : Inhabited Heap := ⟨empty⟩

/-- The elements of a list. -/
def list (h : Heap) (ref : Nat) : List Item := h.lists.getD ref []

/-- The entries of a map. -/
def map (h : Heap) (ref : Nat) : Dictionary := h.maps.getD ref []

/-- Adds a list and gives its reference. -/
def newList (h : Heap) (items : List Item) : Nat × Heap :=
  (h.lists.size, { h with lists := h.lists.push items })

/-- Adds a map and gives its reference. -/
def newMap (h : Heap) (entries : Dictionary) : Nat × Heap :=
  (h.maps.size, { h with maps := h.maps.push entries })

/-- Replaces the elements of a list. -/
def setList (h : Heap) (ref : Nat) (items : List Item) : Heap :=
  { h with lists := h.lists.setIfInBounds ref items }

/-- Replaces the entries of a map. -/
def setMap (h : Heap) (ref : Nat) (entries : Dictionary) : Heap :=
  { h with maps := h.maps.setIfInBounds ref entries }

/-- Makes a fresh handle of an entity. -/
def newHandle (h : Heap) (entity : Entity) : Handle × Heap :=
  ({ entity, origin := .fresh h.handles }, { h with handles := h.handles + 1 })

/-- The number of collections. -/
def cells (h : Heap) : Nat := h.lists.size + h.maps.size

/-- The items a collection holds; a map holds its keys and its values. -/
def contents (h : Heap) : CellId → List Item
  | .list ref => h.list ref
  | .map ref => (h.map ref).items

theorem list_newList (h : Heap) (items : List Item) (ref : Nat) :
    (h.newList items).2.list ref = if ref = h.lists.size then items else h.list ref := by
  simp only [newList, list, Array.getD_eq_getD_getElem?, Array.getElem?_push]
  split <;> simp

theorem map_newMap (h : Heap) (entries : Dictionary) (ref : Nat) :
    (h.newMap entries).2.map ref = if ref = h.maps.size then entries else h.map ref := by
  simp only [newMap, map, Array.getD_eq_getD_getElem?, Array.getElem?_push]
  split <;> simp

theorem list_setList_self (h : Heap) {ref : Nat} (items : List Item) (hr : ref < h.lists.size) :
    (h.setList ref items).list ref = items := by
  simp [setList, list, hr]

theorem list_setList_ne (h : Heap) {ref other : Nat} (items : List Item) (hne : ref ≠ other) :
    (h.setList ref items).list other = h.list other := by
  simp [setList, list, Array.getD_eq_getD_getElem?, hne]

theorem list_setList (h : Heap) (ref other : Nat) (items : List Item) :
    (h.setList ref items).list other =
      if ref = other ∧ ref < h.lists.size then items else h.list other := by
  by_cases hsame : ref = other
  · subst hsame
    by_cases hin : ref < h.lists.size <;> simp [setList, list, hin]
  · simp [list_setList_ne, hsame]

theorem map_setMap_self (h : Heap) {ref : Nat} (entries : Dictionary) (hr : ref < h.maps.size) :
    (h.setMap ref entries).map ref = entries := by
  simp [setMap, map, hr]

theorem map_setMap_ne (h : Heap) {ref other : Nat} (entries : Dictionary) (hne : ref ≠ other) :
    (h.setMap ref entries).map other = h.map other := by
  simp [setMap, map, Array.getD_eq_getD_getElem?, hne]

theorem map_setMap (h : Heap) (ref other : Nat) (entries : Dictionary) :
    (h.setMap ref entries).map other =
      if ref = other ∧ ref < h.maps.size then entries else h.map other := by
  by_cases hsame : ref = other
  · subst hsame
    by_cases hin : ref < h.maps.size <;> simp [setMap, map, hin]
  · simp [map_setMap_ne, hsame]

end Heap
end LedgerVM
