import LedgerVM.Bytes.Hex

/-!
# Hashes of fixed width

A script hash has 20 bytes and names an account or a contract; a hash of 32 bytes names a block, a
transaction or an asset.  Both are `Digest n`, a byte string whose length is part of its type,
ordered byte by byte.
-/

namespace LedgerVM

/-- A byte string of exactly `n` bytes. -/
@[ext] structure Digest (n : Nat) where
  /-- The bytes, first byte first. -/
  bytes : Bytes
  /-- There are exactly `n` of them. -/
  length_bytes : bytes.length = n
  deriving DecidableEq

namespace Digest

variable {n : Nat}

/-- The digest with the given bytes, if their number is right. -/
def ofBytes? (n : Nat) (bs : Bytes) : Option (Digest n) :=
  if h : bs.length = n then some ⟨bs, h⟩ else none

/-- The digest whose bytes are all zero. -/
def zero (n : Nat) : Digest n := ⟨List.replicate n 0, List.length_replicate⟩

instance : Inhabited (Digest n) := ⟨zero n⟩

/-- Every byte is zero. -/
def isZero (d : Digest n) : Bool := d.bytes.all (· == 0)

/-- The digest in lower-case hexadecimal, in memory order. -/
def toHex (d : Digest n) : String := Bytes.toHex d.bytes

instance : Ord (Digest n) := ⟨fun a b => compare a.bytes b.bytes⟩

theorem compare_def (a b : Digest n) : compare a b = compare a.bytes b.bytes := rfl

instance : Std.TransOrd (Digest n) where
  eq_swap := by intro a b; simp only [compare_def]; exact Std.OrientedCmp.eq_swap
  isLE_trans := by intro a b c; simp only [compare_def]; exact Std.TransCmp.isLE_trans

instance : Std.LawfulEqOrd (Digest n) where
  compare_self := by intro a; simp only [compare_def]; exact Std.ReflCmp.compare_self
  eq_of_compare := by
    intro a b h
    have h' : compare a.bytes b.bytes = .eq := h
    exact Digest.ext (Std.LawfulEqCmp.eq_of_compare h')

theorem ofBytes?_bytes (d : Digest n) : ofBytes? n d.bytes = some d := by
  simp [ofBytes?, d.length_bytes]

end Digest

/-- The hash of a script, which names an account or a contract. -/
abbrev Hash160 := Digest 20

/-- The hash that names a block, a transaction or an asset. -/
abbrev Hash256 := Digest 32

instance : Std.TransOrd Hash160 := inferInstanceAs (Std.TransOrd (Digest 20))

instance : Std.TransOrd Hash256 := inferInstanceAs (Std.TransOrd (Digest 32))

end LedgerVM
