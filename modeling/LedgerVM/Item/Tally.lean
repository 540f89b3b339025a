import LedgerVM.Item.Heap
import Std.Data.TreeSet

/-!
# Counting items

The size of a machine is the number of items on its stacks and in its slots, plus the number of
items in every collection that can be reached from them, each collection counted once.

* `Tally.add`: counts an item and notes the collection it refers to if it is new.
* `Tally.drain`: counts the contents of all collections noted.
* `Heap.countItems`: the count for a list of items.
-/

namespace LedgerVM

/-- A count in progress: the collections noted so far, those whose contents are yet to be counted,
and the items counted. -/
structure Tally where
  seen : Std.TreeSet Nat := ∅
  pending : List CellId := []
  count : Nat := 0

namespace Tally

/-- Nothing counted. -/
def empty : Tally := {}

/-- Counts an item and notes its collection if that is new. -/
def add (t : Tally) (item : Item) : Tally :=
  match item.cell? with
  | none => { t with count := t.count + 1 }
  | some cell =>
    if t.seen.contains cell.number then { t with count := t.count + 1 }
    else
      { seen := t.seen.insert cell.number
        pending := cell :: t.pending
        count := t.count + 1 }

/-- Counts the contents of pending collections until none is left, at most `fuel` of them. -/
def drain (h : Heap) : (fuel : Nat) → Tally → Tally
  | 0, t => t
  | fuel + 1, t =>
    match t.pending with
    | [] => t
    | cell :: rest => drain h fuel ((h.contents cell).foldl add { t with pending := rest })

/-- Counts items and everything reached from them.  No collection is pending twice, so there are
never more to count than the heap has. -/
def addAll (h : Heap) (t : Tally) (items : List Item) : Tally := drain h h.cells (items.foldl add t)

end Tally

/-- The number of items in a list and in the collections reached from it, each collection counted
once. -/
def Heap.countItems (h : Heap) (items : List Item) : Nat := (Tally.empty.addAll h items).count

end LedgerVM
