/-!
# Byte strings

Scripts, keys, values and hashes are byte strings, written first byte first.  This module holds the
type and the two views every encoding rests on: the natural number a byte string denotes read
little-endian (`Bytes.toNat`), and the little-endian bytes of a number in a fixed width
(`Bytes.ofNat`).

* `length_ofNat`: a number written in `w` bytes takes `w` bytes.
* `toNat_ofNat`: reading back what was written gives the number modulo `capacity w`.
* `toNat_lt`: a byte string of length `n` denotes a number below `capacity n`.
-/

namespace LedgerVM

/-- A byte string, first byte first. -/
abbrev Bytes := List UInt8

namespace Bytes

/-- The natural number with these little-endian bytes. -/
def toNat (bs : Bytes) : Nat :=
  bs.foldr (fun b n => b.toNat + 256 * n) 0

/-- The `w` little-endian bytes of `n`; what does not fit into them is dropped. -/
def ofNat : (w n : Nat) → Bytes
  | 0, _ => []
  | w + 1, n => UInt8.ofNat (n % 256) :: ofNat w (n / 256)

/-- The number of byte strings of length `w`. -/
def capacity : (w : Nat) → Nat
  | 0 => 1
  | w + 1 => 256 * capacity w

@[simp] theorem toNat_nil : toNat [] = 0 := rfl

@[simp] theorem toNat_cons (b : UInt8) (bs : Bytes) :
    toNat (b :: bs) = b.toNat + 256 * toNat bs := rfl

@[simp] theorem length_ofNat (w n : Nat) : (ofNat w n).length = w := by
  induction w generalizing n with
  | zero => rfl
  | succ w ih => simp [ofNat, ih]

theorem toNat_ofNat (w n : Nat) : toNat (ofNat w n) = n % capacity w := by
  induction w generalizing n with
  | zero => simp [ofNat, capacity, Nat.mod_one]
  | succ w ih => simp [ofNat, ih, capacity, Nat.mod_mul]

theorem toNat_lt (bs : Bytes) : toNat bs < capacity bs.length := by
  induction bs with
  | nil => simp [capacity]
  | cons b bs ih =>
    have hb : b.toNat < 256 := b.toNat_lt
    simp only [toNat_cons, List.length_cons, capacity]
    omega

theorem ofNat_toNat (bs : Bytes) : ofNat bs.length (toNat bs) = bs := by
  induction bs with
  | nil => rfl
  | cons b bs ih =>
    have hb : b.toNat < 256 := b.toNat_lt
    have hr : (b.toNat + 256 * toNat bs) % 256 = b.toNat := by omega
    have hq : (b.toNat + 256 * toNat bs) / 256 = toNat bs := by omega
    simp [ofNat, hr, hq, ih]

/-- The bytes of a text in UTF-8. -/
def ofText (text : String) : Bytes := text.toUTF8.toList

/-- Every byte is an ASCII character. -/
def isAscii (bs : Bytes) : Bool := bs.all (· < 128)

end Bytes
end LedgerVM
