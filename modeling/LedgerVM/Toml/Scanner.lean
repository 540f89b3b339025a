/-!
# Scanners

A scanner takes what it recognizes off the front of a text, or fails.  A choice between two scanners
starts the second where the first one started.  Repetition ends at the first failure, so it needs no
more rounds than there are characters left.
-/

namespace LedgerVM.Toml

/-- Takes a value off the front of a text and leaves the rest. -/
abbrev Scanner (α : Type) := StateT (List Char) Option α

namespace Scanner

/-- The next character, if it satisfies a test. -/
def satisfy (p : Char → Bool) : Scanner Char
  | [] => none
  | c :: cs => if p c then some (c, cs) else none

/-- The given character. -/
def char (c : Char) : Scanner Unit := do discard (satisfy (· = c))

/-- The given characters in a row. -/
def exactly : List Char → Scanner Unit
  | [] => return
  | c :: cs => do
    char c
    exactly cs

/-- The longest run of characters that satisfy a test. -/
def takeWhile (p : Char → Bool) : Scanner (List Char) :=
  fun cs => some (cs.takeWhile p, cs.dropWhile p)

/-- Does nothing where the rest satisfies a test, and fails elsewhere. -/
def ahead (p : List Char → Bool) : Scanner Unit := fun cs => if p cs then some ((), cs) else none

/-- Does nothing at the end of the text. -/
def atEnd : Scanner Unit := ahead List.isEmpty

/-- At most `rounds` values in a row. -/
def upTo {α : Type} (s : Scanner α) : (rounds : Nat) → Scanner (List α)
  | 0 => return []
  | rounds + 1 => do
    match ← optional s with
    | some a => return a :: (← upTo s rounds)
    | none => return []

/-- As many values in a row as there are.  The scanner has to take at least one character each
time. -/
def many {α : Type} (s : Scanner α) : Scanner (List α) := fun cs => upTo s cs.length cs

/-- One value or more with separators between them. -/
def separated {α : Type} (s : Scanner α) (separator : Scanner Unit) : Scanner (List α) := do
  let first ← s
  let rest ← many do
    separator
    s
  return first :: rest

/-- Exactly `n` decimal digits, as a number. -/
def digits (n : Nat) : Scanner Nat := fun cs =>
  let ds := cs.take n
  if ds.length = n && ds.all Char.isDigit then some (Nat.ofDigitChars 10 ds 0, cs.drop n) else none

/-- A number of two digits from a range. -/
def twoDigits (least greatest : Nat) : Scanner Nat := do
  let n ← digits 2
  if least ≤ n && n ≤ greatest then return n else failure

end Scanner
end LedgerVM.Toml
