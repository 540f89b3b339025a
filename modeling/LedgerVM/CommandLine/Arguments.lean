import LedgerVM.Machine.Setting

/-!
# Arguments

A command names a script, directly or by a file, and sets options.  An option is long, behind two
hyphens, or a letter behind one; its value is the next argument or stands in the same argument,
behind an equals sign that a letter does without.  After two lone hyphens nothing is an option.

* `Request.parse`: what a list of arguments asks for.
-/

namespace LedgerVM.CommandLine

/-- The form in which a result is printed. -/
inductive Format where
  | text
  | json
  deriving DecidableEq, Repr

/-- An option with a value. -/
inductive Setter where
  | file
  | config
  | gasLimit
  | maxSteps
  | trigger
  | format
  deriving DecidableEq, Repr

/-- What an option calls for. -/
inductive Switch where
  | set (setter : Setter)
  | help
  | version
  deriving DecidableEq, Repr

/-- A run and how it is set up. -/
structure Arguments where
  /-- The script as text. -/
  script : Option String := none
  /-- The file that holds the script. -/
  file : Option String := none
  /-- The file that holds the configuration. -/
  config : Option String := none
  gasLimit : Option UInt64 := none
  maxSteps : Option UInt64 := none
  trigger : Option Trigger := none
  format : Option Format := none

/-- What a list of arguments asks for. -/
inductive Request where
  | run (arguments : Arguments)
  | help
  | version

/-- Why a list of arguments asks for nothing. -/
inductive UsageError where
  | unknownOption (option : String)
  | unexpectedArgument (argument : String)
  | missingValue (option : String)
  | invalidValue (option value : String)
  | repeatedOption (option : String)
  /-- A script is given both directly and by a file. -/
  | twoScripts
  deriving DecidableEq, Repr

namespace UsageError

/-- The error in words. -/
def message : UsageError → String
  | unknownOption option => s!"unknown option {option}"
  | unexpectedArgument argument => s!"unexpected argument {argument}"
  | missingValue option => s!"option {option} needs a value"
  | invalidValue option value => s!"option {option} cannot be {value}"
  | repeatedOption option => s!"option {option} is given twice"
  | twoScripts => "a script cannot be given both directly and by a file"

end UsageError

namespace Setter

/-- The long name of an option. -/
def name : Setter → String
  | file => "--file"
  | config => "--config"
  | gasLimit => "--gas-limit"
  | maxSteps => "--max-steps"
  | trigger => "--trigger"
  | format => "--format"

end Setter

namespace Switch

/-- The option with a long name, given without its hyphens. -/
def ofName? : String → Option Switch
  | "file" => some (set .file)
  | "config" => some (set .config)
  | "gas-limit" => some (set .gasLimit)
  | "max-steps" => some (set .maxSteps)
  | "trigger" => some (set .trigger)
  | "format" => some (set .format)
  | "help" => some help
  | "version" => some version
  | _ => none

/-- The option with a letter. -/
def ofLetter? : Char → Option Switch
  | 'f' => some (set .file)
  | 'c' => some (set .config)
  | 't' => some (set .trigger)
  | 'h' => some help
  | 'V' => some version
  | _ => none

end Switch

/-- What one argument is. -/
inductive Word where
  /-- It ends the options. -/
  | separator
  /-- It is an option, perhaps with its value. -/
  | option (switch : Switch) (value : Option String)
  /-- It looks like an option and is none. -/
  | unknown
  /-- It is a script, or the value of the option before it. -/
  | plain
  deriving DecidableEq, Repr

namespace Word

/-- Reads a long option, given without its hyphens. -/
def ofLong (text : List Char) : Word :=
  let name := text.takeWhile (· ≠ '=')
  let value := (text.dropWhile (· ≠ '=')).tail?.map String.ofList
  match Switch.ofName? (String.ofList name) with
  | some (.set setter) => .option (.set setter) value
  | some switch => if value.isNone then .option switch none else .unknown
  | none => .unknown

/-- Reads the letter of an option and what follows it. -/
def ofShort (letter : Char) (rest : List Char) : Word :=
  match Switch.ofLetter? letter, rest with
  | some (.set setter), [] => .option (.set setter) none
  | some (.set setter), '=' :: value => .option (.set setter) (some (String.ofList value))
  | some (.set setter), value => .option (.set setter) (some (String.ofList value))
  | some switch, _ => .option switch none
  | none, _ => .unknown

/-- Reads an argument.  A lone hyphen is no option. -/
def ofText (text : String) : Word :=
  match text.toList with
  | ['-', '-'] => .separator
  | '-' :: '-' :: long => ofLong long
  | '-' :: letter :: rest => ofShort letter rest
  | _ => .plain

end Word

/-- Reads a number below `2 ^ 64`, perhaps behind a plus sign. -/
def number? (text : String) : Option UInt64 :=
  let digits := match text.toList with
    | '+' :: digits => digits
    | digits => digits
  let n := Nat.ofDigitChars 10 digits 0
  if !digits.isEmpty && digits.all Char.isDigit && n < UInt64.size then some (UInt64.ofNat n)
  else none

/-- Reads the name of a trigger. -/
def trigger? : String → Option Trigger
  | "application" => some .application
  | "verification" => some .verification
  | _ => none

/-- Reads the name of a format. -/
def format? : String → Option Format
  | "text" => some .text
  | "json" => some .json
  | _ => none

namespace Arguments

/-- Sets an option that is not yet set, if the value can be read. -/
def assign {α : Type} (setter : Setter) (present : Option α)
    (read : String → Option α) (value : String) : Except UsageError (Option α) :=
  if present.isSome then .error (.repeatedOption setter.name)
  else
    match read value with
    | some a => .ok (some a)
    | none => .error (.invalidValue setter.name value)

/-- The name of a file, which is not empty. -/
def path? (text : String) : Option String := if text.isEmpty then none else some text

/-- Sets an option. -/
def set (a : Arguments) (setter : Setter) (value : String) : Except UsageError Arguments := do
  match setter with
  | .file => return { a with file := ← assign setter a.file path? value }
  | .config => return { a with config := ← assign setter a.config path? value }
  | .gasLimit => return { a with gasLimit := ← assign setter a.gasLimit number? value }
  | .maxSteps => return { a with maxSteps := ← assign setter a.maxSteps number? value }
  | .trigger => return { a with trigger := ← assign setter a.trigger trigger? value }
  | .format => return { a with format := ← assign setter a.format format? value }

/-- Takes an argument that is no option as the script. -/
def setScript (a : Arguments) (text : String) : Except UsageError Arguments :=
  if a.script.isSome then .error (.unexpectedArgument text) else .ok { a with script := some text }

end Arguments

namespace Request

/-- A complete run. -/
def finish (a : Arguments) : Except UsageError Request :=
  if a.script.isSome && a.file.isSome then .error .twoScripts else .ok (.run a)

/-- What arguments behind those in `a` ask for. -/
def parseBehind (a : Arguments) : List String → Except UsageError Request
  | [] => finish a
  | argument :: rest =>
    match Word.ofText argument with
    | .separator => do finish (← rest.foldlM Arguments.setScript a)
    | .unknown => .error (.unknownOption argument)
    | .plain => do parseBehind (← a.setScript argument) rest
    | .option .help _ => .ok .help
    | .option .version _ => .ok .version
    | .option (.set setter) (some value) => do parseBehind (← a.set setter value) rest
    | .option (.set setter) none =>
      match rest with
      | [] => .error (.missingValue setter.name)
      | value :: rest =>
        if Word.ofText value = .plain then do parseBehind (← a.set setter value) rest
        else .error (.missingValue setter.name)

/-- What a list of arguments asks for. -/
def parse (arguments : List String) : Except UsageError Request := parseBehind {} arguments

end Request
end LedgerVM.CommandLine
