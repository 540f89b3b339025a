import LedgerVM.Bytes.Basic

/-!
# Hexadecimal text of byte strings

Bytes are written as two lower-case hexadecimal digits each, high half first.  Reading takes digits
of either case and says what is wrong with a text that is not hexadecimal.
-/

namespace LedgerVM

/-- Why a text is not the hexadecimal form of a byte string. -/
inductive HexError where
  /-- The text has an odd number of digits. -/
  | oddLength
  /-- The byte `found` at offset `index` of the text is no hexadecimal digit. -/
  | invalidDigit (found : UInt8) (index : Nat)
  deriving Repr, DecidableEq

namespace Bytes

/-- The lower-case digit of a number below sixteen. -/
def hexDigit (n : Nat) : Char :=
  if n < 10 then Char.ofNat (48 + n) else Char.ofNat (87 + n)

/-- The two digits of one byte, high half first. -/
def hexPair (b : UInt8) : List Char := [hexDigit (b.toNat / 16), hexDigit (b.toNat % 16)]

/-- The lower-case hexadecimal text of a byte string. -/
def toHex (bs : Bytes) : String := String.ofList (bs.flatMap hexPair)

/-- The value of a hexadecimal digit of either case, given as an ASCII code. -/
def hexValue? (b : UInt8) : Option UInt8 :=
  if 48 ≤ b && b ≤ 57 then some (b - 48)
  else if 97 ≤ b && b ≤ 102 then some (b - 87)
  else if 65 ≤ b && b ≤ 70 then some (b - 55)
  else none

/-- Reads pairs of digits; `index` is the offset of the first of them and `read` the bytes so far,
last first. -/
def ofHexPairs (index : Nat) (read : Bytes) : Bytes → Except HexError Bytes
  | [] => .ok read.reverse
  | [_] => .error .oddLength
  | h :: l :: rest =>
    match hexValue? h, hexValue? l with
    | some h, some l => ofHexPairs (index + 2) ((h * 16 + l) :: read) rest
    | none, _ => .error (.invalidDigit h index)
    | some _, none => .error (.invalidDigit l (index + 1))

/-- Reads a hexadecimal text given by its bytes.  An odd length is reported before any wrong
digit. -/
def ofHexBytes (text : Bytes) : Except HexError Bytes :=
  if text.length % 2 = 1 then .error .oddLength else ofHexPairs 0 [] text

/-- Reads a hexadecimal text; `none` if it is not one. -/
def ofHex? (text : String) : Option Bytes := (ofHexBytes (ofText text)).toOption

end Bytes

/-- Writes a number below `2 ^ 32` as eight lower-case hexadecimal digits. -/
def hexWord (n : UInt32) : String := Bytes.toHex (Bytes.ofNat 4 n.toNat).reverse

end LedgerVM
