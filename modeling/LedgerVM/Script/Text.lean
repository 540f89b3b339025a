import LedgerVM.Bytes.Hex

/-!
# Scripts as text

A script is given as hexadecimal text.  Blanks around it and any number of `0x` before it do not
count.
-/

namespace LedgerVM

namespace HexError

/-- A character of one byte in single quotes.  Apostrophes, backslashes and what has no shape of its
own are escaped. -/
def quoteByte (b : UInt8) : String :=
  let n := b.toNat
  let shown : List Char :=
    if n = 0 then ['\\', '0']
    else if n = 9 then ['\\', 't']
    else if n = 10 then ['\\', 'n']
    else if n = 13 then ['\\', 'r']
    else if n = 39 || n = 92 then ['\\', Char.ofNat n]
    else if n < 32 || (127 ≤ n && n ≤ 160) || n = 173 then
      ['\\', 'u', '\x7b'] ++ Nat.toDigits 16 n ++ ['\x7d']
    else [Char.ofNat n]
  String.ofList (['\''] ++ shown ++ ['\''])

/-- What is wrong with a hexadecimal text, in words. -/
def message : HexError → String
  | oddLength => "Odd number of digits"
  | invalidDigit found index =>
    "Invalid character " ++ quoteByte found ++ " at position " ++ toString index

end HexError

namespace Script

/-- A blank of any kind. -/
def isSpace (c : Char) : Bool :=
  (9 ≤ c.toNat && c.toNat ≤ 13) || (0x2000 ≤ c.toNat && c.toNat ≤ 0x200A) ||
    c.toNat ∈ [0x20, 0x85, 0xA0, 0x1680, 0x2028, 0x2029, 0x202F, 0x205F, 0x3000]

/-- A text without the blanks around it. -/
def trim (text : List Char) : List Char :=
  ((text.dropWhile isSpace).reverse.dropWhile isSpace).reverse

/-- A text without the `0x` before it, as often as it stands there. -/
def dropMarks : List Char → List Char
  | '0' :: 'x' :: rest => dropMarks rest
  | text => text

/-- The script that a text denotes. -/
def ofText (text : String) : Except HexError Bytes :=
  Bytes.ofHexBytes (Bytes.ofText (String.ofList (dropMarks (trim text.toList))))

end Script
end LedgerVM
