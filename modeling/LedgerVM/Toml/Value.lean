/-!
# Values and tables

A document is a table of values.  Each table remembers how it came about, for that decides what may
still be added to it: a table with a heading is complete once the next heading comes, a table
written in braces is complete at once.

* `Entries.assign`: gives a key in a table, or in a table below it, its value.
* `Entries.openTable`, `Entries.openElement`: what a heading of a table and of an element of an
  array of tables do.
-/

namespace LedgerVM.Toml

/-- How a table came about. -/
inductive Origin where
  /-- A heading of a table below it names it. -/
  | passed
  /-- A dotted key names it. -/
  | dotted
  /-- It has a heading of its own. -/
  | headed
  /-- It is written in braces. -/
  | braced
  deriving DecidableEq, Repr

/-- A value.  Of fractional numbers and moments the kind alone is kept. -/
inductive Value where
  | text (text : String)
  | integer (value : Int)
  | boolean (value : Bool)
  | float
  | moment
  | array (elements : List Value)
  | table (origin : Origin) (entries : List (String × Value))
  /-- An array of tables, each with a heading. -/
  | tables (elements : List (List (String × Value)))
  deriving Inhabited, Repr

/-- The entries of a table. -/
abbrev Entries := List (String × Value)

/-- A key: the tables it leads through and its last part. -/
structure Key where
  path : List String
  last : String

namespace Entries

/-- The value of a key. -/
def get? (entries : Entries) (key : String) : Option Value := entries.lookup key

/-- Gives a key the value that a function makes of the present one, or fails with it. -/
def modify (entries : Entries) (key : String) (f : Option Value → Option Value) : Option Entries :=
  match entries with
  | [] => (f none).map fun value => [(key, value)]
  | (k, value) :: rest =>
    if k = key then (f (some value)).map fun value => (k, value) :: rest
    else (modify rest key f).map fun rest => (k, value) :: rest

/-- Whether a way of going down may lead through a table: a heading through all tables but those in
braces, a dotted key through none that has a heading either. -/
def leadsThrough (way origin : Origin) : Bool :=
  match origin with
  | .passed | .dotted => true
  | .headed => way = .passed
  | .braced => false

/-- Changes the table at a path and makes the tables that are missing on it; `way` is the origin
they get.  In an array of tables the path goes on in the last one. -/
def modifyAt (way : Origin) (f : Origin → Entries → Option Entries) :
    (path : List String) → (origin : Origin) → Entries → Option Entries
  | [], origin, entries => f origin entries
  | key :: path, _, entries =>
    entries.modify key fun
      | none => (modifyAt way f path way []).map (.table way)
      | some (.table origin inner) =>
        if leadsThrough way origin then (modifyAt way f path origin inner).map (.table origin)
        else none
      | some (.tables elements) => do
        let last ← modifyAt way f path .headed (← elements.getLast?)
        return .tables (elements.dropLast ++ [last])
      | some _ => none

/-- Gives a key its value.  It must not have one, and a dotted key must end in a table that dotted
keys made. -/
def assign (entries : Entries) (key : Key) (value : Value) : Option Entries :=
  modifyAt .dotted (fun origin inner =>
    if origin = .dotted ∨ key.path = [] then
      inner.modify key.last fun
        | none => some value
        | some _ => none
    else none) key.path .headed entries

/-- Opens a table: a new one, or one that headings have only passed through so far. -/
def openTable (entries : Entries) (key : Key) : Option Entries :=
  modifyAt .passed (fun _ inner =>
    inner.modify key.last fun
      | none => some (.table .headed [])
      | some (.table .passed inner) => some (.table .headed inner)
      | some _ => none) key.path .headed entries

/-- Opens one more element of an array of tables. -/
def openElement (entries : Entries) (key : Key) : Option Entries :=
  modifyAt .passed (fun _ inner =>
    inner.modify key.last fun
      | none => some (.tables [[]])
      | some (.tables elements) => some (.tables (elements ++ [[]]))
      | some _ => none) key.path .headed entries

end Entries
end LedgerVM.Toml
