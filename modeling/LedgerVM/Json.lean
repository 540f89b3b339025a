import LedgerVM.Bytes.Hex

/-!
# JSON

Values with the fields of objects in a fixed order, and their two printed forms: compact on one
line, and pretty with two spaces of indentation for each level.
-/

namespace LedgerVM

/-- A JSON value whose numbers are integers. -/
inductive Json where
  | null
  | bool (value : Bool)
  | number (value : Int)
  | string (text : String)
  | array (elements : List Json)
  | object (fields : List (String × Json))
  deriving Inhabited, Repr

namespace Json

/-- The JSON value of a text, or null. -/
def ofText? : Option String → Json
  | some text => string text
  | none => null

/-- A character inside a quoted text.  Quotes, backslashes and control characters are escaped. -/
def escape (c : Char) : List Char :=
  if c = '"' then ['\\', '"']
  else if c = '\\' then ['\\', '\\']
  else if c = '\n' then ['\\', 'n']
  else if c = '\r' then ['\\', 'r']
  else if c = '\t' then ['\\', 't']
  else if c.toNat = 8 then ['\\', 'b']
  else if c.toNat = 12 then ['\\', 'f']
  else if c.toNat < 32 then
    ['\\', 'u', '0', '0', Bytes.hexDigit (c.toNat / 16), Bytes.hexDigit (c.toNat % 16)]
  else [c]

/-- A text in quotes. -/
def quote (text : String) : String := "\"" ++ String.ofList (text.toList.flatMap escape) ++ "\""

/-- Encloses parts in brackets, or gives the empty pair of brackets if there are none. -/
private def enclose (opening closing separator margin : String) (parts : List String) : String :=
  if parts.isEmpty then opening ++ closing
  else opening ++ separator ++ (("," ++ separator).intercalate parts) ++ margin ++ closing

mutual

/-- The value on one line without blanks. -/
def compact : Json → String
  | null => "null"
  | bool b => if b then "true" else "false"
  | number n => toString n
  | string s => quote s
  | array xs => enclose "[" "]" "" "" (compactElements xs)
  | object fs => enclose "\x7b" "\x7d" "" "" (compactFields fs)

/-- The elements of an array, each on one line. -/
def compactElements : List Json → List String
  | [] => []
  | x :: xs => x.compact :: compactElements xs

/-- The fields of an object, each on one line. -/
def compactFields : List (String × Json) → List String
  | [] => []
  | (key, x) :: fs => (quote key ++ ":" ++ x.compact) :: compactFields fs

end

/-- The line break before something at a level of nesting. -/
private def newline (level : Nat) : String := "\n" ++ String.ofList (List.replicate (2 * level) ' ')

mutual

/-- The value with a line for each element and field; `level` is the level of nesting it stands
at. -/
def prettyAt (level : Nat) : Json → String
  | null => "null"
  | bool b => if b then "true" else "false"
  | number n => toString n
  | string s => quote s
  | array xs =>
    enclose "[" "]" (newline (level + 1)) (newline level) (prettyElements (level + 1) xs)
  | object fs =>
    enclose "\x7b" "\x7d" (newline (level + 1)) (newline level) (prettyFields (level + 1) fs)

/-- The elements of an array at a level of nesting. -/
def prettyElements (level : Nat) : List Json → List String
  | [] => []
  | x :: xs => x.prettyAt level :: prettyElements level xs

/-- The fields of an object at a level of nesting. -/
def prettyFields (level : Nat) : List (String × Json) → List String
  | [] => []
  | (key, x) :: fs => (quote key ++ ": " ++ x.prettyAt level) :: prettyFields level fs

end

/-- The value with a line for each element and field. -/
def pretty (x : Json) : String := x.prettyAt 0

end Json
end LedgerVM
