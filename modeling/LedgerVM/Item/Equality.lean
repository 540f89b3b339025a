import LedgerVM.Item.Heap

/-!
# Equality of items

Primitives are equal if their encodings are, structs if their elements are, and everything else if
it is the same array, map or handle.  Structs that are the same collection are equal without a look
at their elements.

Comparing structs ends on every heap on which no struct contains itself through structs alone.
Comparison carries a bound on the nesting of structs; `none` says that the bound was too small.
-/

namespace LedgerVM

/-- Equality of items that are not both structs. -/
def Item.sameAs : Item → Item → Bool
  | .array a, .array b => a == b
  | .map a, .map b => a == b
  | .interface a, .interface b => a.same b
  | a, b =>
    match a.encoding?, b.encoding? with
    | some a, some b => a == b
    | _, _ => false

namespace Heap

/-- Equality of items whose structs nest no deeper than `depth`. -/
def equalWithin (h : Heap) : (depth : Nat) → Item → Item → Option Bool
  | 0, .struct a, .struct b => if a = b then some true else none
  | depth + 1, .struct a, .struct b =>
    if a = b then some true
    else
      let as := h.list a
      let bs := h.list b
      if as.length = bs.length then (as.zip bs).allM fun (x, y) => equalWithin h depth x y
      else some false
  | _, a, b => some (a.sameAs b)

/-- Equality of items.  Where comparison ends at all, it meets no pair of structs twice on one path,
which bounds its depth. -/
def equal (h : Heap) (a b : Item) : Except Fault Bool :=
  match h.equalWithin (h.lists.size * h.lists.size) a b with
  | some answer => .ok answer
  | none => .error .endlessStruct

end Heap
end LedgerVM
