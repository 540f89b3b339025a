import LedgerVM.Toml.Scanner

/-!
# Numbers

Integers are decimal with an optional sign, or hexadecimal, octal or binary behind `0x`, `0o` or
`0b`; they fit into 64 bits with a sign.  A decimal number other than zero does not begin with a
zero, and single underscores may stand between digits.  Numbers with a fraction or an exponent are
recognized and not kept.
-/

namespace LedgerVM.Toml.Scanner

/-- Digits, between any two of which one underscore may stand. -/
def digitRun (isDigit : Char → Bool) : Scanner (List Char) := do
  let first ← satisfy isDigit
  let rest ← many <| satisfy isDigit <|> do
    char '_'
    satisfy isDigit
  return first :: rest

/-- The value of a digit of any base up to sixteen. -/
def digitValue (c : Char) : Nat :=
  if c.isDigit then c.toNat - 48 else if 'a' ≤ c then c.toNat - 87 else c.toNat - 55

/-- The number that digits denote in a base. -/
def ofDigits (base : Nat) (digits : List Char) : Nat :=
  digits.foldl (fun n c => n * base + digitValue c) 0

/-- An optional sign: whether it is a minus. -/
def sign : Scanner Bool := do
  match ← optional (satisfy fun c => c = '+' || c = '-') with
  | some c => return c = '-'
  | none => return false

/-- The digits of a decimal number: a single zero, or digits that begin with another one. -/
def decimalDigits : Scanner (List Char) :=
  (do char '0'; return ['0']) <|> digitRun Char.isDigit

/-- A number of a base behind its mark. -/
def based (mark : Char) (base : Nat) (isDigit : Char → Bool) : Scanner Int := do
  exactly ['0', mark]
  return ofDigits base (← digitRun isDigit)

/-- A decimal integer. -/
def decimal : Scanner Int := do
  let isNegative ← sign
  let n := ofDigits 10 (← decimalDigits)
  return if isNegative then -(n : Int) else n

/-- A hexadecimal digit. -/
def isHexDigit (c : Char) : Bool := c.isDigit || ('a' ≤ c && c ≤ 'f') || ('A' ≤ c && c ≤ 'F')

/-- An integer of 64 bits with a sign. -/
def integer : Scanner Int := do
  let n ← based 'x' 16 isHexDigit <|> based 'o' 8 (fun c => '0' ≤ c && c ≤ '7') <|>
    based 'b' 2 (fun c => c = '0' || c = '1') <|> decimal
  if -0x8000000000000000 ≤ n && n < 0x8000000000000000 then return n else failure

/-- The number half-way between the largest double and `2 ^ 1024`. -/
def doubleLimit : Nat := Nat.pow 2 1024 - Nat.pow 2 970

/-- Whether `mantissa * 10 ^ exponent` is nearer to `2 ^ 1024` than to any double, or beyond it. -/
def exceedsDoubles (mantissa : Nat) (exponent : Int) : Bool :=
  let magnitude := (mantissa.log2 : Int) + exponent * 3
  if mantissa = 0 then false
  else if 0 ≤ exponent then 310 < exponent || doubleLimit ≤ mantissa * Nat.pow 10 exponent.toNat
  else 0 ≤ magnitude && doubleLimit * Nat.pow 10 (-exponent).toNat ≤ mantissa

/-- An exponent behind its mark. -/
def exponent : Scanner Int := do
  discard (satisfy fun c => c = 'e' || c = 'E')
  let isNegative ← sign
  let n := ofDigits 10 (← digitRun Char.isDigit)
  return if isNegative then -(n : Int) else n

/-- A fraction behind its point. -/
def fraction : Scanner (List Char) := do
  char '.'
  digitRun Char.isDigit

/-- A number with a fraction, an exponent or both.  A positive one too large for a double is
refused. -/
def fractional : Scanner Unit := do
  let isNegative ← sign
  let whole ← decimalDigits
  let (part, power) ← (do return ([], ← exponent)) <|> do
    let part ← fraction
    return (part, (← optional exponent).getD 0)
  if !isNegative && exceedsDoubles (ofDigits 10 (whole ++ part)) (power - part.length) then failure

/-- A number with a fraction or an exponent, an infinity or what is not a number. -/
def float : Scanner Unit := fractional <|> do
  discard sign
  exactly ['i', 'n', 'f'] <|> exactly ['n', 'a', 'n']

end LedgerVM.Toml.Scanner
