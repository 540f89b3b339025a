import LedgerVM.Digest

/-!
# Readers of byte strings

A reader takes what it needs off the front of a byte string, or fails if too little is left.
Numbers are little-endian and of fixed width.
-/

namespace LedgerVM

/-- Takes a value off the front of a byte string and leaves the rest. -/
abbrev Reader (α : Type) := StateT Bytes Option α

namespace Reader

/-- The next `n` bytes. -/
def bytes (n : Nat) : Reader Bytes := fun bs =>
  if n ≤ bs.length then some (bs.splitAt n) else none

/-- The next byte. -/
def byte : Reader UInt8
  | [] => none
  | b :: rest => some (b, rest)

/-- The number in the next `w` bytes. -/
def nat (w : Nat) : Reader Nat := do return Bytes.toNat (← bytes w)

/-- The signed number in the next eight bytes. -/
def int64 : Reader Int64 := do return (UInt64.ofNat (← nat 8)).toInt64

/-- The digest in the next `n` bytes. -/
def digest (n : Nat) : Reader (Digest n) := do
  match Digest.ofBytes? n (← bytes n) with
  | some d => return d
  | none => failure

/-- As many bytes as the number in the next four bytes says. -/
def sized : Reader Bytes := do bytes (← nat 4)

/-- Runs a reader `n` times. -/
def times {α : Type} (r : Reader α) : Nat → Reader (List α)
  | 0 => return []
  | n + 1 => do
    let a ← r
    return a :: (← times r n)

/-- Runs a reader as often as the number in the next four bytes says. -/
def list {α : Type} (r : Reader α) : Reader (List α) := do times r (← nat 4)

end Reader

namespace Bytes

/-- Writes a signed 64-bit number in eight bytes. -/
def ofInt64 (i : Int64) : Bytes := ofNat 8 i.toUInt64.toNat

/-- Writes a byte string behind its length in four bytes. -/
def ofSized (bs : Bytes) : Bytes := ofNat 4 bs.length ++ bs

/-- Writes a list behind its length in four bytes. -/
def ofList {α : Type} (write : α → Bytes) (xs : List α) : Bytes :=
  ofNat 4 xs.length ++ xs.flatMap write

end Bytes
end LedgerVM
