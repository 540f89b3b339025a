/-!
# Bits of integers

Bitwise operations on integers of any size, read as infinite two's complement: a negative integer
has ones in all but finitely many places.

* `bit_bitNot`, `bit_bitAnd`, `bit_bitOr`, `bit_bitXor`: every operation works place by place.
-/

namespace LedgerVM.Integer

/-- The bit of an integer at a place, counted from the lowest. -/
def bit : Int → Nat → Bool
  | .ofNat m, place => m.testBit place
  | .negSucc m, place => !m.testBit place

/-- The complement of an integer. -/
def bitNot (i : Int) : Int := -i - 1

/-- The conjunction of integers. -/
def bitAnd : Int → Int → Int
  | .ofNat m, .ofNat n => .ofNat (m &&& n)
  | .ofNat m, .negSucc n => .ofNat (m ^^^ (m &&& n))
  | .negSucc m, .ofNat n => .ofNat (n ^^^ (n &&& m))
  | .negSucc m, .negSucc n => .negSucc (m ||| n)

/-- The disjunction of integers. -/
def bitOr : Int → Int → Int
  | .ofNat m, .ofNat n => .ofNat (m ||| n)
  | .ofNat m, .negSucc n => .negSucc (n ^^^ (n &&& m))
  | .negSucc m, .ofNat n => .negSucc (m ^^^ (m &&& n))
  | .negSucc m, .negSucc n => .negSucc (m &&& n)

/-- The exclusive disjunction of integers. -/
def bitXor : Int → Int → Int
  | .ofNat m, .ofNat n => .ofNat (m ^^^ n)
  | .ofNat m, .negSucc n => .negSucc (m ^^^ n)
  | .negSucc m, .ofNat n => .negSucc (m ^^^ n)
  | .negSucc m, .negSucc n => .ofNat (m ^^^ n)

theorem bitNot_ofNat (m : Nat) : bitNot (.ofNat m) = .negSucc m := by
  simp only [bitNot, Int.ofNat_eq_natCast]; omega

theorem bitNot_negSucc (m : Nat) : bitNot (.negSucc m) = .ofNat m := by
  simp only [bitNot, Int.ofNat_eq_natCast]; omega

theorem bit_bitNot (i : Int) (place : Nat) : bit (bitNot i) place = !bit i place := by
  cases i with
  | ofNat m => rw [bitNot_ofNat]; rfl
  | negSucc m => rw [bitNot_negSucc]; simp [bit]

theorem bit_bitAnd (i j : Int) (place : Nat) :
    bit (bitAnd i j) place = (bit i place && bit j place) := by
  cases i <;> cases j <;> simp [bitAnd, bit] <;> grind

theorem bit_bitOr (i j : Int) (place : Nat) :
    bit (bitOr i j) place = (bit i place || bit j place) := by
  cases i <;> cases j <;> simp [bitOr, bit] <;> grind

theorem bit_bitXor (i j : Int) (place : Nat) :
    bit (bitXor i j) place = (bit i place ^^ bit j place) := by
  cases i <;> cases j <;> simp [bitXor, bit]

end LedgerVM.Integer
