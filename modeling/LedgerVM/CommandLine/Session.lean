import LedgerVM.CommandLine.Arguments
import LedgerVM.Node.ConfigText
import LedgerVM.Node.Lifecycle
import LedgerVM.Script.Text

/-!
# Sessions

A session runs one script on a ledger that holds nothing but the first block, and prints its receipt
or whether it passed.  Files are read through a function, so that a session is the same over every
file system.

* `Arguments.perform`: what a run prints and whether it succeeded.
* `session`: the outcome of a list of arguments.
-/

namespace LedgerVM.CommandLine

/-- Why a file cannot be read. -/
inductive FileError where
  | notFound
  | permissionDenied
  | notDirectory
  | isDirectory
  | other (reason : String)
  deriving DecidableEq, Repr

/-- The reason in words, with the number that the system gives it. -/
def FileError.message : FileError → String
  | notFound => "No such file or directory (os error 2)"
  | permissionDenied => "Permission denied (os error 13)"
  | notDirectory => "Not a directory (os error 20)"
  | isDirectory => "Is a directory (os error 21)"
  | other reason => reason

/-- Why a session fails. -/
inductive SessionError where
  | unreadableScript (path : String) (error : FileError)
  | malformedScript (error : HexError)
  | noScript
  /-- The configuration in a file cannot be read or is malformed. -/
  | config (path : String) (error : NodeError)
  | node (error : NodeError)
  /-- The script did not come to an end. -/
  | endless
  deriving DecidableEq

/-- The error in words, its cause behind it. -/
def SessionError.message : SessionError → String
  | unreadableScript path error => s!"failed to read {path}: {error.message}"
  | malformedScript error => s!"script is not valid hex: {error.message}"
  | noScript => "pass a hex script or --file"
  | config path (.configUnreadable reason) =>
    s!"failed to load config {path}: {(NodeError.configUnreadable reason).message}: {reason}"
  | config path error => s!"failed to load config {path}: {error.message}"
  | node error => error.message
  | endless => "the script did not come to an end"

/-- How a session ends. -/
inductive Outcome where
  /-- The script ran; it succeeded if it halted or passed. -/
  | ran (succeeded : Bool) (output : String)
  | informed (output : String)
  | failed (error : SessionError)
  | misused (error : UsageError)

namespace Outcome

/-- The status with which the program exits. -/
def exitCode : Outcome → UInt32
  | ran succeeded _ => if succeeded then 0 else 2
  | informed _ => 0
  | failed _ => 1
  | misused _ => 2

/-- What is printed. -/
def output : Outcome → String
  | ran _ output | informed output => output
  | failed _ | misused _ => ""

/-- What went wrong. -/
def errorText : Outcome → Option String
  | failed error => some error.message
  | _ => none

end Outcome

/-- The block of which the ledger of a session consists. -/
def genesis : Block where
  header :=
    { hash := .zero 32
      version := 0
      prevHash := .zero 32
      merkleRoot := .zero 32
      timestamp := 1468595301
      index := 0
      consensusData := 2083236893
      nextConsensus := .zero 20 }
  transactions := []

/-- The ledger of a session. -/
def ledger : Ledger := .available (Chain.empty.addBlock genesis)

/-- The text of a receipt in a format. -/
def Format.receipt : Format → Receipt → String
  | text, r => r.text
  | json, r => r.toJson.pretty ++ "\n"

/-- The text of a verification in a format. -/
def Format.verification : Format → Bool → String
  | text, passed => if passed then "Verification: passed\n" else "Verification: failed\n"
  | json, passed => (Json.object [("passed", .bool passed)]).compact ++ "\n"

/-- The answer of a node to a request of a session. -/
def answered {α : Type} (answer : ExceptT NodeError Option α) : Except SessionError α :=
  match answer.run with
  | some (.ok a) => .ok a
  | some (.error e) => .error (.node e)
  | none => .error .endless

namespace Arguments

/-- The configuration with what options override. -/
def override (a : Arguments) (config : Config) : Config :=
  let config := match a.gasLimit with
    | some gas => config.withGasLimit gas
    | none => config
  match a.maxSteps with
  | some steps => config.withMaxSteps (some steps.toNat)
  | none => config

/-- Runs a script: whether it succeeded, and what is printed. -/
def perform (fuel : Nat) (a : Arguments) (script : Bytes) (config : Config) :
    Except SessionError (Bool × String) := do
  let node := Node.start (a.override config) ledger Store.empty
  let format := a.format.getD .text
  match a.trigger.getD .application with
  | .verification =>
    let passed ← answered (node.verify fuel { script })
    return (passed, format.verification passed)
  | .application =>
    let (receipt, _) ← answered (node.runScript fuel { script })
    return (receipt.isHalt, format.receipt receipt)

variable {m : Type → Type} [Monad m] (read : String → m (Except FileError Bytes))

/-- The script of a run. -/
def readScript (a : Arguments) : ExceptT SessionError m Bytes := do
  match a.file, a.script with
  | some path, _ =>
    match ← read path with
    | .ok bytes => return bytes
    | .error e => throw (.unreadableScript path e)
  | none, some text =>
    match Script.ofText text with
    | .ok bytes => return bytes
    | .error e => throw (.malformedScript e)
  | none, none => throw .noScript

/-- The configuration that the bytes of a file hold. -/
def configOf (bytes : Bytes) : Except NodeError Config :=
  match String.fromUTF8? (ByteArray.mk bytes.toArray) with
  | some text =>
    match Config.parse? text with
    | some config => .ok config
    | none => .error .configMalformed
  | none => .error (.configUnreadable "stream did not contain valid UTF-8")

/-- The configuration of a run. -/
def readConfig (a : Arguments) : ExceptT SessionError m Config := do
  match a.config with
  | some path =>
    match ← read path with
    | .ok bytes =>
      match configOf bytes with
      | .ok config => return config
      | .error e => throw (.config path e)
    | .error e => throw (.config path (.configUnreadable e.message))
  | none => return {}

/-- Reads what a run needs, the script first, and runs it. -/
def run (fuel : Nat) (a : Arguments) : ExceptT SessionError m (Bool × String) := do
  let script ← readScript read a
  let config ← readConfig read a
  ExceptT.mk (pure (a.perform fuel script config))

end Arguments

/-- How to use the program. -/
def usage : String :=
"Runs a single script against an empty ledger and prints its receipt

Usage: ledgervm [OPTIONS] [SCRIPT]

Arguments:
  [SCRIPT]  Script bytes as hex, e.g. 53549366

Options:
  -f, --file <FILE>          Read the raw script bytes from a file instead
  -c, --config <FILE>        Configuration of the node (TOML)
      --gas-limit <NUMBER>   Override the gas limit, in 0.001 GAS units
      --max-steps <NUMBER>   Fault after this many instructions
  -t, --trigger <TRIGGER>    application (default) or verification
      --format <FORMAT>      text (default) or json
  -h, --help                 Print help
  -V, --version              Print version
"

/-- The outcome of a list of arguments, with files read by `read`. -/
def session {m : Type → Type} [Monad m] (read : String → m (Except FileError Bytes)) (fuel : Nat)
    (arguments : List String) : m Outcome := do
  match Request.parse arguments with
  | .error e => return .misused e
  | .ok .help => return .informed usage
  | .ok .version => return .informed "ledgervm 0.1.0\n"
  | .ok (.run a) =>
    match ← (a.run read fuel).run with
    | .ok (succeeded, output) => return .ran succeeded output
    | .error e => return .failed e

end LedgerVM.CommandLine
