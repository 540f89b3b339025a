import LedgerVM.Toml.Moment
import LedgerVM.Toml.Number
import LedgerVM.Toml.Quoted
import LedgerVM.Toml.Value

/-!
# Documents

A document is a sequence of lines: headings of tables, headings of elements of arrays of tables, and
keys with their values.  Reading recognizes the lines first and then builds the table they describe.

* `Scanner.value`: a value, in which arrays and braces nest to a bounded depth.
* `Line.apply`: what a line adds to the table.
* `Document.parse?`: the table that a text describes.
-/

namespace LedgerVM.Toml

namespace Scanner

/-- Dotted keys have fewer parts than this, and values fewer levels. -/
def maxDepth : Nat := 80

/-- A part of a key: letters, digits, underscores and hyphens, or a text in quotes on one line. -/
def keyPart : Scanner String :=
  basicLine <|> literalLine <|> do
    let cs ← takeWhile fun c => c.isAlphanum || c = '_' || c = '-'
    if cs.isEmpty then failure
    return String.ofList cs

/-- What a scanner takes, with blanks around it. -/
def spaced {α : Type} (s : Scanner α) : Scanner α := do
  blanks
  let a ← s
  blanks
  return a

/-- A key: parts with dots between them. -/
def key : Scanner Key := do
  let parts ← separated (spaced keyPart) (char '.')
  match parts.getLast? with
  | some last =>
    if parts.length < maxDepth then return { path := parts.dropLast, last }
    else failure
  | none => failure

/-- A key and its value. -/
def entry (value : Scanner Value) : Scanner (Key × Value) := do
  let key ← key
  char '='
  blanks
  return (key, ← value)

/-- A comment up to the end of its line. -/
def comment : Scanner Unit := do
  char '#'
  discard (takeWhile isPlain)

/-- Blanks, line breaks and comments between the elements of an array. -/
def gap : Scanner Unit := do
  blanks
  discard <| many do
    discard (optional comment)
    newline
    blanks

/-- An array whose elements are recognized by `value`; a comma may follow the last one. -/
def array (value : Scanner Value) : Scanner Value := do
  char '['
  gap
  let elements ← optional <| separated (do
    gap
    let v ← value
    gap
    return v) (char ',')
  if elements.isSome then
    discard (optional (char ','))
    gap
  char ']'
  return .array (elements.getD [])

/-- A table in braces whose values are recognized by `value`. -/
def braced (value : Scanner Value) : Scanner Value := do
  char '\x7b'
  let entries ← optional <| separated (do
    let e ← entry value
    blanks
    return e) (char ',')
  blanks
  char '\x7d'
  let table ← (entries.getD []).foldlM
    (fun (table : Entries) (key, value) => table.assign key value) []
  return .table .braced table

/-- A value in which arrays and braces nest to a depth of at most `depth`. -/
def value : (depth : Nat) → Scanner Value
  | 0 => simple
  | depth + 1 => simple <|> array (value depth) <|> braced (value depth)
where
  /-- A value without parts. -/
  simple : Scanner Value :=
    (do return .text (← quoted)) <|>
    (do exactly "true".toList; return .boolean true) <|>
    (do exactly "false".toList; return .boolean false) <|>
    (do moment; return .moment) <|>
    (do float; return .float) <|>
    (do return .integer (← integer))

end Scanner

/-- A line of a document.  An array or a text of many lines makes its line longer. -/
inductive Line where
  | blank
  | table (key : Key)
  | element (key : Key)
  | entry (key : Key) (value : Value)

open Scanner in
/-- A line up to its end, which the end of the document is as well. -/
def Line.scan : Scanner Line := do
  ahead fun cs => !cs.isEmpty
  blanks
  let line ← element <|> table <|> entry <|> pure .blank
  blanks
  discard (optional comment)
  newline <|> atEnd
  return line
where
  /-- The heading of an element of an array of tables. -/
  element : Scanner Line := do
    exactly ['[', '[']
    let key ← key
    exactly [']', ']']
    return .element key
  /-- The heading of a table. -/
  table : Scanner Line := do
    char '['
    let key ← key
    char ']'
    return .table key
  /-- A key and its value. -/
  entry : Scanner Line := do
    let (key, value) ← Scanner.entry (value (maxDepth - 1))
    return .entry key value

/-- A document up to a line: its table, and the path of the last heading. -/
structure Document where
  entries : Entries := []
  heading : List String := []

/-- Adds a line to a document. -/
def Line.apply (d : Document) : Line → Option Document
  | .blank => some d
  | .table key => do
    return { entries := ← d.entries.openTable key, heading := key.path ++ [key.last] }
  | .element key => do
    return { entries := ← d.entries.openElement key, heading := key.path ++ [key.last] }
  | .entry key value => do
    let add : Origin → Entries → Option Entries := fun _ inner => inner.assign key value
    return { d with entries := ← d.entries.modifyAt .passed add d.heading .headed }

/-- The lines of a text, which may begin with a byte order mark. -/
def Line.all : Scanner (List Line) := do
  discard (optional (Scanner.char (Char.ofNat 0xFEFF)))
  let lines ← Scanner.many Line.scan
  Scanner.atEnd
  return lines

/-- The table that a text describes; `none` if it is malformed or gives a key twice. -/
def Document.parse? (text : String) : Option Entries := do
  let (lines, _) ← Line.all text.toList
  return (← lines.foldlM Line.apply {}).entries

end LedgerVM.Toml
