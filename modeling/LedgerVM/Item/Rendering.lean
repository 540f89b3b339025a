import LedgerVM.Item.Heap
import LedgerVM.Json

/-!
# Items as JSON and as text

The JSON of an item unfolds its collections.  A collection met inside itself has the value null
there, so that unfolding ends on every heap.
-/

namespace LedgerVM

namespace Heap

/-- The JSON of an item inside the collections `inside`; `fuel` bounds how deep it may unfold. -/
def renderWithin (h : Heap) : (fuel : Nat) → (inside : List CellId) → Item → Json
  | _, _, .boolean value => .object [("type", .string "Boolean"), ("value", .bool value)]
  | _, _, .integer value =>
    .object [("type", .string "Integer"), ("value", .string (toString value))]
  | _, _, .byteArray bytes =>
    .object [("type", .string "ByteArray"), ("value", .string bytes.toHex)]
  | _, _, .interface handle =>
    .object [("type", .string "InteropInterface"), ("value", .string handle.kind.name)]
  | 0, _, item => .object [("type", .string item.typeName), ("value", .null)]
  | fuel + 1, inside, .array ref =>
    if CellId.list ref ∈ inside then .object [("type", .string "Array"), ("value", .null)]
    else
      .object [("type", .string "Array"),
        ("value", .array ((h.list ref).map (renderWithin h fuel (.list ref :: inside))))]
  | fuel + 1, inside, .struct ref =>
    if CellId.list ref ∈ inside then .object [("type", .string "Struct"), ("value", .null)]
    else
      .object [("type", .string "Struct"),
        ("value", .array ((h.list ref).map (renderWithin h fuel (.list ref :: inside))))]
  | fuel + 1, inside, .map ref =>
    if CellId.map ref ∈ inside then .object [("type", .string "Map"), ("value", .null)]
    else
      .object [("type", .string "Map"),
        ("value", .array ((h.map ref).map fun (key, value) =>
          .object [("key", renderWithin h fuel (.map ref :: inside) key.item),
            ("value", renderWithin h fuel (.map ref :: inside) value)]))]

/-- The JSON of an item.  Every collection on a path is another one, so the number of collections
bounds the nesting. -/
def render (h : Heap) (item : Item) : Json := h.renderWithin (h.cells + 1) [] item

/-- The short text of an item, which shows of a collection its size alone. -/
def describe (h : Heap) : Item → String
  | .boolean value => s!"Boolean({value})"
  | .integer value => s!"Integer({value})"
  | .byteArray bytes => s!"ByteArray({bytes.toHex})"
  | .array ref => s!"Array(len={(h.list ref).length})"
  | .struct ref => s!"Struct(len={(h.list ref).length})"
  | .map ref => s!"Map(len={(h.map ref).length})"
  | .interface handle => s!"Interface({handle.kind.name})"

end Heap
end LedgerVM
