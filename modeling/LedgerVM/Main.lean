import LedgerVM.CommandLine.Session

/-!
# The command-line program

Reads files for a session, prints its outcome and exits with its status.
-/

namespace LedgerVM.CommandLine

/-- The reason for which the system does not let a file be read. -/
def FileError.ofSystem : IO.Error → FileError
  | .noFileOrDirectory .. => .notFound
  | .permissionDenied .. => .permissionDenied
  | .inappropriateType _ 20 _ => .notDirectory
  | .inappropriateType _ 21 _ => .isDirectory
  | error => .other error.toString

/-- Reads a file of the system. -/
def readFile (path : String) : IO (Except FileError Bytes) := do
  try
    return .ok (← IO.FS.readBinFile path).toList
  catch error =>
    return .error (.ofSystem error)

end LedgerVM.CommandLine

open LedgerVM.CommandLine in
/-- Runs the script that the arguments name; a script that runs for `2 ^ 62` instructions is given
up. -/
def main (arguments : List String) : IO UInt32 := do
  let outcome ← session readFile (Nat.pow 2 62) arguments
  IO.print outcome.output
  match outcome with
  | .misused error => IO.eprintln s!"{error.message}\n\n{usage}"
  | .failed error => IO.eprintln s!"Error: {error.message}"
  | _ => return outcome.exitCode
  return outcome.exitCode
