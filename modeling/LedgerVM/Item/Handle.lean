import LedgerVM.Ledger.Chain

/-!
# Handles of ledger entities

Services hand ledger entities to scripts as opaque handles.  Two handles are the same only if they
were obtained from the same place: the same block of the chain, the same entry of a ledger table, or
the same call that made a fresh one.  Equal contents do not make handles equal.

The transaction that a run serves may be the caller's own or one that the ledger holds, and then it
is obtained from there (`TransactionPlace.origin`).
-/

namespace LedgerVM

/-- An entity that a handle stands for. -/
inductive Entity where
  | header (header : Header)
  | block (block : Block)
  | transaction (transaction : Transaction)
  | txAttribute (value : Attribute)
  | input (input : Input)
  | output (output : Output)
  | account (account : Account)
  | asset (asset : Asset)
  | contract (contract : Contract)
  | validator (validator : Validator)
  | storageContext (context : StorageContext)

/-- The kinds of entities. -/
inductive EntityKind where
  | header | block | transaction | txAttribute | input | output | account | asset | contract
  | validator | storageContext
  deriving DecidableEq, Repr

/-- The name of a kind. -/
def EntityKind.name : EntityKind → String
  | header => "Header"
  | block => "Block"
  | transaction => "Transaction"
  | txAttribute => "Attribute"
  | input => "Input"
  | output => "Output"
  | account => "Account"
  | asset => "Asset"
  | contract => "Contract"
  | validator => "Validator"
  | storageContext => "StorageContext"

/-- The kind of an entity. -/
def Entity.kind : Entity → EntityKind
  | header _ => .header
  | block _ => .block
  | transaction _ => .transaction
  | txAttribute _ => .txAttribute
  | input _ => .input
  | output _ => .output
  | account _ => .account
  | asset _ => .asset
  | contract _ => .contract
  | validator _ => .validator
  | storageContext _ => .storageContext

/-- Where an entity was obtained. -/
inductive Origin where
  /-- The block or header at a height of the chain. -/
  | chain (height : Nat)
  /-- The member of a block's transactions at a position. -/
  | member (block : Origin) (position : Nat)
  /-- The entry of the ledger's table of this kind under a key. -/
  | table (key : Bytes)
  /-- The validator at a position of the ledger's list. -/
  | seat (position : Nat)
  /-- The transaction that the run serves, if it is the caller's own. -/
  | container
  /-- Made afresh; no two are made with one number. -/
  | fresh (number : Nat)
  deriving DecidableEq, Repr

/-- Where a transaction of the chain is obtained. -/
def TransactionPlace.origin (place : TransactionPlace) : Origin :=
  .member (.chain place.height) place.position

/-- A handle: an entity and where it was obtained. -/
structure Handle where
  entity : Entity
  origin : Origin

namespace Handle

/-- The kind of the entity. -/
def kind (h : Handle) : EntityKind := h.entity.kind

/-- Two handles are the same if they are of one kind and origin. -/
def same (a b : Handle) : Bool := a.kind == b.kind && a.origin == b.origin

end Handle
end LedgerVM
