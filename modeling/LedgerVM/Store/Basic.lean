import LedgerVM.Store.Changes

/-!
# The store

Contract storage is a map from keys to values.  An invocation never writes to it: it reads through
its pending change set, and the set is committed as a whole once the invocation is over.  A closed
store refuses everything.

* `ChangeSet.getOver`: reads see pending changes first and the store behind them.
* `Store.commit`: applies every change of a set.
-/

namespace LedgerVM

/-- Why the store refuses an access. -/
inductive StoreError where
  /-- The store is closed. -/
  | closed
  /-- The backend is out of order. -/
  | backend (reason : String)
  deriving DecidableEq, Repr

namespace StoreError

/-- The stable name of a refusal. -/
def code : StoreError → String
  | closed => "STORAGE_CLOSED"
  | backend _ => "STORAGE_BACKEND"

/-- The refusal in words. -/
def message : StoreError → String
  | closed => "storage is closed"
  | backend reason => "storage backend failure: " ++ reason

end StoreError

/-- The storage entries of all contracts. -/
structure Store where
  entries : Std.ExtTreeMap StoreKey Bytes := ∅
  closed : Bool := false

namespace Store

/-- The open store without entries. -/
def empty : Store := {}

instance : Inhabited Store := ⟨empty⟩

/-- Writes an entry straight into the store, also into a closed one. -/
def insert (s : Store) (key : StoreKey) (value : Bytes) : Store :=
  { s with entries := s.entries.insert key value }

/-- The number of entries. -/
def size (s : Store) : Nat := s.entries.size

/-- There are no entries. -/
def isEmpty (s : Store) : Bool := s.entries.isEmpty

/-- The entries in order of their keys. -/
def toList (s : Store) : List (StoreKey × Bytes) := s.entries.toList

/-- Closes the store; closing a closed one changes nothing. -/
def close (s : Store) : Store := { s with closed := true }

/-- The value of an entry, if there is one. -/
def get (s : Store) (key : StoreKey) : Except StoreError (Option Bytes) :=
  if s.closed then .error .closed else .ok s.entries[key]?

/-- The entries after one change. -/
def applyChange (entries : Std.ExtTreeMap StoreKey Bytes) (change : StoreKey × Option Bytes) :
    Std.ExtTreeMap StoreKey Bytes :=
  match change.2 with
  | some value => entries.insert change.1 value
  | none => entries.erase change.1

/-- Applies every change of a set, or none if the store is closed. -/
def commit (s : Store) (changes : ChangeSet) : Except StoreError Store :=
  if s.closed then .error .closed
  else .ok { s with entries := changes.toList.foldl applyChange s.entries }

end Store

namespace ChangeSet

/-- The value of an entry as seen through pending changes. -/
def getOver (c : ChangeSet) (store : Store) (key : StoreKey) : Except StoreError (Option Bytes) :=
  match c.get? key with
  | some pending => .ok pending
  | none => store.get key

/-- Commits pending changes and says how many entries were written or deleted. -/
def commitTo (c : ChangeSet) (store : Store) : Except StoreError (Nat × Store) := do
  return (c.size, ← store.commit c)

end ChangeSet
end LedgerVM
