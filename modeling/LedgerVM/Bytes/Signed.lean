import LedgerVM.Bytes.Basic

/-!
# Signed integers as byte strings

An integer of any size is written as the shortest little-endian two's-complement byte string that
denotes it; zero is the empty string.  Every equality of stack items, every map key and every size
limit on integers goes through this encoding.

* `toInt`: the integer a byte string denotes; the top bit of the last byte is the sign.
* `ofInt`: the shortest byte string of an integer.
-/

namespace LedgerVM.Bytes

/-- The integer with these little-endian two's-complement bytes; the empty string is zero. -/
def toInt : Bytes → Int
  | [] => 0
  | [b] => if b < 128 then b.toNat else (b.toNat : Int) - 256
  | b :: c :: bs => b.toNat + 256 * toInt (c :: bs)

/-- The shortest nonempty two's-complement bytes of an integer: one byte if it lies in
`[-128, 128)`, and otherwise its lowest byte before the bytes of the floor quotient by 256. -/
def ofIntNonempty (i : Int) : Bytes :=
  if -128 ≤ i ∧ i < 128 then [UInt8.ofNat (i % 256).toNat]
  else UInt8.ofNat (i % 256).toNat :: ofIntNonempty (i / 256)
termination_by i.natAbs

/-- The shortest two's-complement bytes of an integer, none for zero. -/
def ofInt (i : Int) : Bytes := if i = 0 then [] else ofIntNonempty i

end LedgerVM.Bytes
