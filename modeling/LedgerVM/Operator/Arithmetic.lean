import LedgerVM.Fault
import LedgerVM.Integer.Bits
import LedgerVM.Script.Instruction

/-!
# Arithmetic of operators

What the operators on integers compute, without any bound on the result.  Division truncates toward
zero and the remainder takes the sign of the dividend; shifting to the right rounds down.
-/

namespace LedgerVM

/-- The value of an operator on one integer. -/
def UnaryOperator.apply : UnaryOperator → Int → Int
  | invert, x => Integer.bitNot x
  | inc, x => x + 1
  | dec, x => x - 1
  | sign, x => x.sign
  | negate, x => -x
  | abs, x => x.natAbs

/-- The value of an operator on two integers; dividing by zero has none. -/
def BinaryOperator.apply : BinaryOperator → Int → Int → Except Fault Int
  | and, a, b => .ok (Integer.bitAnd a b)
  | or, a, b => .ok (Integer.bitOr a b)
  | xor, a, b => .ok (Integer.bitXor a b)
  | add, a, b => .ok (a + b)
  | sub, a, b => .ok (a - b)
  | mul, a, b => .ok (a * b)
  | div, a, b => if b = 0 then .error .divisionByZero else .ok (a.tdiv b)
  | mod, a, b => if b = 0 then .error .divisionByZero else .ok (a.tmod b)
  | min, a, b => .ok (if b < a then b else a)
  | max, a, b => .ok (if a < b then b else a)

/-- Whether a comparison holds. -/
def Comparison.holds : Comparison → Int → Int → Bool
  | equal, a, b => a == b
  | notEqual, a, b => a != b
  | less, a, b => a < b
  | greater, a, b => b < a
  | atMost, a, b => a ≤ b
  | atLeast, a, b => b ≤ a

/-- An integer shifted to the left, or to the right if the shift is negative. -/
def shiftLeft (x shift : Int) : Int :=
  if 0 ≤ shift then x * Nat.pow 2 shift.toNat else x / Nat.pow 2 (-shift).toNat

/-- The farthest an integer may be shifted in either direction. -/
def shiftLimit : Int := 256

/-- The smallest signed 64-bit number. -/
def minInt64 : Int := -0x8000000000000000

/-- The largest signed 64-bit number. -/
def maxInt64 : Int := 0x7fffffffffffffff

/-- The signed 64-bit number nearest to an integer. -/
def clampInt64 (i : Int) : Int :=
  if i < minInt64 then minInt64 else if maxInt64 < i then maxInt64 else i

/-- An integer that fits into a signed 64-bit number, or else `substitute`. -/
def int64Or (substitute i : Int) : Int := if minInt64 ≤ i ∧ i ≤ maxInt64 then i else substitute

/-- The size of an address space: counts and indexes are below it. -/
def addressSpace : Int := 0x10000000000000000

/-- The integer as an index or count, if it is one. -/
def index? (i : Int) : Option Nat := if 0 ≤ i ∧ i < addressSpace then some i.toNat else none

/-- The signed 64-bit number with the lowest 64 bits of a count. -/
def wrapInt64 (n : Nat) : Int := (n : Int).bmod UInt64.size

end LedgerVM
