import LedgerVM.Toml.Scanner

/-!
# Quoted texts

Texts between quotation marks know escapes, texts between apostrophes are literal.  Either kind may
stand on one line between single marks, or on many lines between marks of three; the line break
right after the opening mark of a text of many lines is left out, and every line break inside counts
as a single line feed.

* `Scanner.basicLine`, `Scanner.literalLine`: texts of one line, which may also be keys.
* `Scanner.quoted`: a text of any kind.
-/

namespace LedgerVM.Toml.Scanner

/-- A blank within a line. -/
def isBlank (c : Char) : Bool := c = ' ' || c = '\t'

/-- A character that may stand in a comment or in a literal text: no control character but the
tab. -/
def isPlain (c : Char) : Bool := c = '\t' || (32 ≤ c.toNat && c.toNat ≠ 127)

/-- A character that stands for itself between quotation marks. -/
def isBasic (c : Char) : Bool := isPlain c && c ≠ '"' && c ≠ '\\'

/-- A character that stands for itself between apostrophes. -/
def isLiteral (c : Char) : Bool := isPlain c && c ≠ '\''

/-- A line break. -/
def newline : Scanner Unit := char '\n' <|> exactly ['\r', '\n']

/-- Blanks within a line. -/
def blanks : Scanner Unit := do discard (takeWhile isBlank)

/-- The value of a hexadecimal digit of either case. -/
def hexDigit? (c : Char) : Option Nat :=
  if c.isDigit then some (c.toNat - 48)
  else if 'a' ≤ c && c ≤ 'f' then some (c.toNat - 87)
  else if 'A' ≤ c && c ≤ 'F' then some (c.toNat - 55)
  else none

/-- The number that the next `n` hexadecimal digits denote behind the digits of `read`. -/
def hexDigits (read : Nat) : (n : Nat) → Scanner Nat
  | 0 => return read
  | n + 1 => do
    let c ← satisfy fun c => (hexDigit? c).isSome
    hexDigits (read * 16 + (hexDigit? c).getD 0) n

/-- The character with a code point of `n` hexadecimal digits. -/
def codePoint (n : Nat) : Scanner Char := do
  let code ← hexDigits 0 n
  if code.isValidChar then return Char.ofNat code else failure

/-- An escaped character. -/
def escaped : Scanner Char := do
  char '\\'
  match ← satisfy fun _ => true with
  | 'b' => return Char.ofNat 8
  | 'f' => return Char.ofNat 12
  | 'n' => return '\n'
  | 'r' => return '\r'
  | 't' => return '\t'
  | 'u' => codePoint 4
  | 'U' => codePoint 8
  | '\\' => return '\\'
  | '"' => return '"'
  | _ => failure

/-- A text between quotation marks on one line. -/
def basicLine : Scanner String := do
  char '"'
  let text ← many (satisfy isBasic <|> escaped)
  char '"'
  return String.ofList text

/-- A text between apostrophes on one line. -/
def literalLine : Scanner String := do
  char '\''
  let text ← takeWhile isLiteral
  char '\''
  return String.ofList text

/-- A line break inside a text. -/
def brokenLine : Scanner (List Char) := do
  newline
  return ['\n']

/-- A backslash that ends a line: it takes the break and all blanks and breaks after it away. -/
def joinedLines : Scanner (List Char) := do
  char '\\'
  blanks
  newline
  discard (many (discard (satisfy isBlank) <|> newline))
  return []

/-- One or two marks that do not end a text of many lines: what satisfies `follows` comes after
them. -/
def innerMarks (mark : Char) (follows : List Char → Bool) : Scanner (List Char) :=
  (do exactly [mark, mark]; ahead follows; return [mark, mark]) <|>
  (do char mark; ahead follows; return [mark])

/-- A text of many lines between marks of three.  Up to two marks may stand by themselves anywhere
in it, also right before the closing ones. -/
def lines (mark : Char) (content : Scanner (List Char)) : Scanner String := do
  let marks := [mark, mark, mark]
  exactly marks
  discard (optional newline)
  let text ← many (content <|> innerMarks mark fun cs => cs.head?.any (· ≠ mark))
  let last ← optional (innerMarks mark marks.isPrefixOf)
  exactly marks
  return String.ofList (text.flatten ++ last.getD [])

/-- A text in quotes of any kind. -/
def quoted : Scanner String :=
  lines '"' ((fun c => [c]) <$> satisfy isBasic <|> joinedLines <|> (fun c => [c]) <$> escaped <|>
    brokenLine) <|>
  basicLine <|>
  lines '\'' ((fun c => [c]) <$> satisfy isLiteral <|> brokenLine) <|>
  literalLine

end LedgerVM.Toml.Scanner
