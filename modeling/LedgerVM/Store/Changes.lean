import LedgerVM.Digest
import Std.Data.ExtTreeMap

/-!
# Change sets

What an invocation wants to do to the store: for each key it touched, the value to write or the wish
to delete.  A change set remembers only the last wish for a key.

* `ChangeSet.put`, `ChangeSet.delete`: record a wish.
* `ChangeSet.merge`: lays a later set over an earlier one.
-/

namespace LedgerVM

/-- The name of one storage entry: the contract that owns it and the key the contract chose.
Entries are ordered by contract first. -/
@[ext] structure StoreKey where
  contract : Hash160
  key : Bytes
  deriving DecidableEq

namespace StoreKey

instance : Ord StoreKey := ⟨compareLex (compareOn contract) (compareOn key)⟩

theorem compare_def (a b : StoreKey) :
    compare a b = compareLex (compareOn contract) (compareOn key) a b := rfl

instance : Std.TransOrd StoreKey :=
  inferInstanceAs (Std.TransCmp (compareLex (compareOn contract) (compareOn key)))

instance : Std.LawfulEqOrd StoreKey where
  eq_of_compare {a b} h := by
    rw [compare_def, compareLex_eq_eq] at h
    exact StoreKey.ext (Std.LawfulEqCmp.eq_of_compare h.1) (Std.LawfulEqCmp.eq_of_compare h.2)

end StoreKey

/-- For each key touched, the value to write, or `none` for a deletion. -/
structure ChangeSet where
  entries : Std.ExtTreeMap StoreKey (Option Bytes) := ∅

namespace ChangeSet

/-- No changes. -/
def empty : ChangeSet := {}

instance : Inhabited ChangeSet := ⟨empty⟩

/-- Records that a value is to be written. -/
def put (c : ChangeSet) (key : StoreKey) (value : Bytes) : ChangeSet :=
  ⟨c.entries.insert key (some value)⟩

/-- Records that an entry is to be deleted. -/
def delete (c : ChangeSet) (key : StoreKey) : ChangeSet := ⟨c.entries.insert key none⟩

/-- Forgets every wish. -/
def discard (_ : ChangeSet) : ChangeSet := empty

/-- The wish recorded for a key, if any. -/
def get? (c : ChangeSet) (key : StoreKey) : Option (Option Bytes) := c.entries[key]?

/-- The number of keys touched. -/
def size (c : ChangeSet) : Nat := c.entries.size

/-- No key is touched. -/
def isEmpty (c : ChangeSet) : Bool := c.entries.isEmpty

/-- The wishes in order of their keys. -/
def toList (c : ChangeSet) : List (StoreKey × Option Bytes) := c.entries.toList

/-- Lays `later` over a set; its wishes win on shared keys. -/
def merge (c later : ChangeSet) : ChangeSet := ⟨c.entries.insertMany later.toList⟩

theorem get?_empty (key : StoreKey) : empty.get? key = none := by
  simp [empty, get?]

theorem get?_put (c : ChangeSet) (key other : StoreKey) (value : Bytes) :
    (c.put key value).get? other = if key = other then some (some value) else c.get? other := by
  simp [put, get?, Std.ExtTreeMap.getElem?_insert]

theorem get?_delete (c : ChangeSet) (key other : StoreKey) :
    (c.delete key).get? other = if key = other then some none else c.get? other := by
  simp [delete, get?, Std.ExtTreeMap.getElem?_insert]

end ChangeSet
end LedgerVM
