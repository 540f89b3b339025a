import LedgerVM.Bytes.Signed
import LedgerVM.Item.Handle
import LedgerVM.Fault

/-!
# Stack items

The values that scripts compute with.  Booleans, integers and byte strings are primitive: they have
a byte encoding, by which they are compared and serve as map keys.  Arrays, structs and maps are
references into a heap of collections; interfaces are handles of ledger entities.

* `Item.encoding?`: the byte encoding of a primitive item.
* `MapKey`: a primitive item with its encoding.
-/

namespace LedgerVM

/-- A stack item.  The numbers in arrays, structs and maps are references into a heap. -/
inductive Item where
  | boolean (value : Bool)
  | integer (value : Int)
  | byteArray (bytes : Bytes)
  | array (ref : Nat)
  | struct (ref : Nat)
  | map (ref : Nat)
  | interface (handle : Handle)

namespace Item

instance : Inhabited Item := ⟨.boolean false⟩

/-- The byte string without bytes. -/
def empty : Item := byteArray []

/-- The name of an item's type. -/
def typeName : Item → String
  | boolean _ => "Boolean"
  | integer _ => "Integer"
  | byteArray _ => "ByteArray"
  | array _ => "Array"
  | struct _ => "Struct"
  | map _ => "Map"
  | interface _ => "InteropInterface"

/-- The byte encoding of a primitive item: one or no byte for a truth value, the shortest
two's-complement bytes for an integer. -/
def encoding? : Item → Option Bytes
  | boolean true => some [1]
  | boolean false => some []
  | integer value => some (Bytes.ofInt value)
  | byteArray bytes => some bytes
  | array _ | struct _ | map _ | interface _ => none

/-- The item is a boolean, an integer or a byte string. -/
def isPrimitive (item : Item) : Bool := item.encoding?.isSome

end Item

/-- A primitive item that serves as the key of a map, compared by its encoding. -/
structure MapKey where
  item : Item
  encoding : Bytes
  encoding?_item : item.encoding? = some encoding

namespace MapKey

/-- The key an item serves as. -/
def ofItem (item : Item) : Except Fault MapKey :=
  match h : item.encoding? with
  | some encoding => .ok ⟨item, encoding, h⟩
  | none => .error .invalidMapKey

end MapKey
end LedgerVM
