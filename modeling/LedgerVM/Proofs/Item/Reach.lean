import LedgerVM.Item.Heap
import Mathlib.Data.Finset.Card
import Mathlib.Data.Finset.Range

/-!
# What can be reached

The collections form a graph: an item refers to a collection and a collection holds items.  A script reaches the items
it was given and whatever is in collections that these lead to (`Heap.Reaches`).  Every collection of a heap is one of
finitely many (`Heap.allCells`), and where no reference leads nowhere (`Heap.Resolves`), so is everything reached.
-/

namespace LedgerVM.Heap

/-- The item is one of these, or in a collection that can be reached from them. -/
inductive Reaches (h : Heap) (items : List Item) : Item → Prop
  | root {item : Item} (hitem : item ∈ items) : Reaches h items item
  | inside {item other : Item} {cell : CellId} (hitem : Reaches h items item) (hcell : item.cell? = some cell)
      (hother : other ∈ h.contents cell) : Reaches h items other

/-- The items lead to the collection. -/
def ReachesCell (h : Heap) (items : List Item) (cell : CellId) : Prop :=
  ∃ item, h.Reaches items item ∧ item.cell? = some cell

/-- The collection was made. -/
def Has (h : Heap) : CellId → Prop
  | .list ref => ref < h.lists.size
  | .map ref => ref < h.maps.size

instance (h : Heap) (cell : CellId) : Decidable (h.Has cell) :=
  match cell with
  | .list ref => inferInstanceAs (Decidable (ref < h.lists.size))
  | .map ref => inferInstanceAs (Decidable (ref < h.maps.size))

/-- Every reference that can be reached leads to a collection. -/
def Resolves (h : Heap) (items : List Item) : Prop := ∀ cell, h.ReachesCell items cell → h.Has cell

/-- The number of elements of a list, or of entries of a map. -/
def extent (h : Heap) : CellId → Nat
  | .list ref => (h.list ref).length
  | .map ref => (h.map ref).length

/-- Every collection that was made. -/
def allCells (h : Heap) : Finset CellId :=
  (Finset.range h.lists.size).image .list ∪ (Finset.range h.maps.size).image .map

variable {h : Heap} {items others : List Item} {cell : CellId}

theorem Reaches.trans (hothers : ∀ item ∈ others, h.Reaches items item) {item : Item} (hitem : h.Reaches others item) :
    h.Reaches items item := by
  induction hitem with
  | root hitem => exact hothers _ hitem
  | inside _ hcell hother ih => exact .inside ih hcell hother

theorem Reaches.mono (hsub : ∀ item ∈ others, item ∈ items) {item : Item} (hitem : h.Reaches others item) :
    h.Reaches items item := hitem.trans fun item hitem => .root (hsub item hitem)

theorem Reaches.onward {item other : Item} (hitem : h.Reaches items item) (hother : h.Reaches [item] other) :
    h.Reaches items other := by
  refine hother.trans fun found hfound => ?_
  rw [List.mem_singleton.1 hfound]
  exact hitem

theorem not_reaches_nil {item : Item} : ¬h.Reaches [] item := by
  intro hitem
  induction hitem with
  | root hitem => cases hitem
  | inside _ _ _ ih => exact ih

theorem resolves_nil (h : Heap) : h.Resolves [] := fun _ ⟨_, hitem, _⟩ => absurd hitem not_reaches_nil

theorem Resolves.mono (hresolves : h.Resolves items) (hsub : ∀ item ∈ others, item ∈ items) : h.Resolves others := by
  rintro cell ⟨item, hitem, hcell⟩
  exact hresolves cell ⟨item, hitem.mono hsub, hcell⟩

theorem Resolves.onward {item : Item} (hresolves : h.Resolves items) (hitem : h.Reaches items item) :
    h.Resolves [item] := by
  rintro cell ⟨other, hother, hcell⟩
  exact hresolves cell ⟨other, hitem.onward hother, hcell⟩

/-! ### Collections that were not made -/

theorem list_of_le {ref : Nat} (href : h.lists.size ≤ ref) : h.list ref = [] := by
  simp [list, Array.getD_eq_getD_getElem?, Array.getElem?_eq_none href]

theorem map_of_le {ref : Nat} (href : h.maps.size ≤ ref) : h.map ref = [] := by
  simp [map, Array.getD_eq_getD_getElem?, Array.getElem?_eq_none href]

theorem contents_of_not_has (hcell : ¬h.Has cell) : h.contents cell = [] := by
  cases cell with
  | list ref => exact list_of_le (Nat.le_of_not_lt hcell)
  | map ref =>
    rw [contents, map_of_le (Nat.le_of_not_lt hcell)]
    rfl

theorem extent_of_not_has (hcell : ¬h.Has cell) : h.extent cell = 0 := by
  cases cell with
  | list ref => exact List.length_eq_zero_iff.2 (list_of_le (Nat.le_of_not_lt hcell))
  | map ref => exact List.length_eq_zero_iff.2 (map_of_le (Nat.le_of_not_lt hcell))

/-! ### All collections -/

theorem mem_allCells : cell ∈ h.allCells ↔ h.Has cell := by
  cases cell <;> simp [allCells, Has]

/-- What holds of the items and of all that is in collections holds of everything reached. -/
theorem Reaches.forall {P : Item → Prop} (hitems : ∀ item ∈ items, P item)
    (hheap : ∀ outer ∈ h.allCells, ∀ item ∈ h.contents outer, P item) {item : Item} (hitem : h.Reaches items item) :
    P item := by
  cases hitem with
  | root hitem => exact hitems item hitem
  | @inside _ _ outer _ _ hitem =>
    refine hheap outer (mem_allCells.2 (Decidable.not_not.1 fun hnew => ?_)) item hitem
    rw [contents_of_not_has hnew] at hitem
    cases hitem

theorem resolves_of_forall (hitems : ∀ item ∈ items, ∀ cell ∈ item.cell?, h.Has cell)
    (hheap : ∀ outer ∈ h.allCells, ∀ item ∈ h.contents outer, ∀ cell ∈ item.cell?, h.Has cell) :
    h.Resolves items := fun cell ⟨_, hitem, hcell⟩ =>
  hitem.forall (P := fun item => ∀ cell ∈ item.cell?, h.Has cell) hitems hheap cell hcell

theorem card_allCells_le (h : Heap) : h.allCells.card ≤ h.cells := by
  have hlists : ((Finset.range h.lists.size).image CellId.list).card ≤ h.lists.size :=
    Finset.card_image_le.trans_eq (Finset.card_range _)
  have hmaps : ((Finset.range h.maps.size).image CellId.map).card ≤ h.maps.size :=
    Finset.card_image_le.trans_eq (Finset.card_range _)
  calc h.allCells.card
      ≤ ((Finset.range h.lists.size).image CellId.list).card + ((Finset.range h.maps.size).image CellId.map).card :=
        Finset.card_union_le _ _
    _ ≤ h.lists.size + h.maps.size := Nat.add_le_add hlists hmaps

end LedgerVM.Heap
