import LedgerVM.Item.Heap

/-!
# Copies of items

Duplicating an item, or storing it into a collection, copies structs with the structs in them and
shares all else.  Copying carries a bound on the nesting of structs, which the number of lists is on
every heap on which no struct contains itself through structs alone.
-/

namespace LedgerVM.Heap

/-- Adds a list to the heap at hand. -/
def allocate (items : List Item) : StateT Heap Option Nat := fun h => some (h.newList items)

/-- Copies an item whose structs nest no deeper than `depth`. -/
def copyWithin : (depth : Nat) → Item → StateT Heap Option Item
  | 0, .struct _ => failure
  | depth + 1, .struct ref => do
    let copies ← ((← get).list ref).mapM (copyWithin depth)
    return .struct (← allocate copies)
  | _, item => return item

/-- A copy of an item, and the heap with the structs copied for it. -/
def duplicate (h : Heap) (item : Item) : Except Fault (Item × Heap) :=
  match (copyWithin h.lists.size item).run h with
  | some result => .ok result
  | none => .error .endlessStruct

end LedgerVM.Heap
