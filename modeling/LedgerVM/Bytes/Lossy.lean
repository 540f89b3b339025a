import LedgerVM.Bytes.Basic

/-!
# Text out of arbitrary bytes

Log messages are byte strings that need not be valid UTF-8.  `Bytes.toTextLossy` reads them all the
same: every maximal part of a character that does not become a whole one is replaced by U+FFFD.
-/

namespace LedgerVM.Bytes

/-- The replacement character U+FFFD. -/
def replacement : Char := Char.ofNat 0xFFFD

/-- Whether a byte continues a multi-byte character. -/
def isContinuation (b : UInt8) : Bool := 0x80 ≤ b && b < 0xC0

/-- The second bytes that may follow the first byte of a character of three or four bytes:
surrogates, overlong forms and values past U+10FFFF are excluded here. -/
def isSecond (first second : UInt8) : Bool :=
  if first = 0xE0 then 0xA0 ≤ second && second < 0xC0
  else if first = 0xED then 0x80 ≤ second && second < 0xA0
  else if first = 0xF0 then 0x90 ≤ second && second < 0xC0
  else if first = 0xF4 then 0x80 ≤ second && second < 0x90
  else isContinuation second

/-- The code point of a lead byte's payload followed by continuation bytes. -/
def codePoint (lead : Nat) (rest : List UInt8) : Char :=
  Char.ofNat (rest.foldl (fun n b => n * 64 + b.toNat % 64) lead)

/-- One character whose first byte is `first`, and how many bytes after it belong to it.  A broken
character is the replacement character and takes as many bytes as could still have begun a valid
one. -/
def nextChar (first : UInt8) (rest : Bytes) : Char × Nat :=
  if first < 0x80 then (Char.ofNat first.toNat, 0)
  else if 0xC2 ≤ first && first < 0xE0 then
    match rest with
    | b :: _ => if isContinuation b then (codePoint (first.toNat % 32) [b], 1) else (replacement, 0)
    | [] => (replacement, 0)
  else if 0xE0 ≤ first && first < 0xF0 then
    match rest with
    | b :: c :: _ =>
      if !isSecond first b then (replacement, 0)
      else if !isContinuation c then (replacement, 1)
      else (codePoint (first.toNat % 16) [b, c], 2)
    | [b] => (replacement, if isSecond first b then 1 else 0)
    | [] => (replacement, 0)
  else if 0xF0 ≤ first && first < 0xF5 then
    match rest with
    | b :: c :: d :: _ =>
      if !isSecond first b then (replacement, 0)
      else if !isContinuation c then (replacement, 1)
      else if !isContinuation d then (replacement, 2)
      else (codePoint (first.toNat % 8) [b, c, d], 3)
    | [b, c] => (replacement, if !isSecond first b then 0 else if !isContinuation c then 1 else 2)
    | [b] => (replacement, if isSecond first b then 1 else 0)
    | [] => (replacement, 0)
  else (replacement, 0)

/-- The characters of a byte string behind those already read, which are held last first. -/
def lossyChars (read : List Char) : Bytes → List Char
  | [] => read.reverse
  | b :: rest =>
    let next := nextChar b rest
    lossyChars (next.1 :: read) (rest.drop next.2)
termination_by bs => bs.length
decreasing_by simp only [List.length_drop, List.length_cons]; omega

/-- The text of a byte string read as UTF-8, with U+FFFD for each maximal part that is not. -/
def toTextLossy (bs : Bytes) : String := String.ofList (lossyChars [] bs)

end LedgerVM.Bytes
