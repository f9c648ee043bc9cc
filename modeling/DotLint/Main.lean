import DotLint.Check

/-!
# The linter program

Reads the command line, the configuration file and the files to check, and writes back the
files that were fixed; what to print and how to exit is decided by `CheckReport`.
-/

namespace DotLint

/-- The system's error number of a failed operation; some report it negated. -/
def errorNumber (code : UInt32) : Nat :=
  if code.toNat ≥ Nat.pow 2 31 then Nat.pow 2 32 - code.toNat else code.toNat

/-- The text of a failed file operation, with the system's error number when it has one. -/
def ioFailureText : IO.Error → String
  | .noFileOrDirectory _ code _ =>
    "No such file or directory (os error " ++ toString (errorNumber code) ++ ")"
  | .permissionDenied _ code _ =>
    "Permission denied (os error " ++ toString (errorNumber code) ++ ")"
  | .alreadyExists _ code details | .otherError code details | .resourceBusy code details
  | .resourceVanished code details | .unsupportedOperation code details
  | .hardwareFault code details | .unsatisfiedConstraints code details
  | .illegalOperation code details | .protocolError code details | .timeExpired code details
  | .interrupted _ code details | .invalidArgument _ code details
  | .resourceExhausted _ code details | .inappropriateType _ code details
  | .noSuchThing _ code details =>
    details ++ " (os error " ++ toString (errorNumber code) ++ ")"
  | .unexpectedEof => "failed to fill whole buffer"
  | .userError msg => msg

/-- The text of the file at `path`, or why it could not be read. -/
def readText (path : String) : IO (Except String String) := do
  match ← (IO.FS.readBinFile path).toBaseIO with
  | .error e => return .error (ioFailureText e)
  | .ok bytes =>
    match String.fromUTF8? bytes with
    | some text => return .ok text
    | none => return .error "stream did not contain valid UTF-8"

/-- Checks one file, writing the fixed text back when fixes were applied. -/
def checkFile (settings : Config) (fix : Bool) (path : String) : IO FileOutcome := do
  match ← readText path with
  | .error reason => return .failed ("failed to read " ++ path ++ ": " ++ reason)
  | .ok source =>
    let (outcome, rewritten) := checkText path source settings fix
    match rewritten with
    | none => return outcome
    | some text =>
      match ← (IO.FS.writeFile path text).toBaseIO with
      | .ok () => return outcome
      | .error e => return .failed ("failed to write " ++ path ++ ": " ++ ioFailureText e)

/-- Runs a check as the command line asks and returns the exit status. -/
def runCheck (options : CheckOptions) : IO UInt32 := do
  let configText ← match options.config with
    | some path => some <$> readText path
    | none => pure none
  match options.settings configText with
  | .error failure =>
    IO.eprint failure.report
    return 2
  | .ok settings =>
    let outcomes ← options.files.mapM fun path => do
      return (path, ← checkFile settings options.fix path)
    let report := CheckReport.ofOutcomes outcomes
    IO.print report.out
    IO.eprint report.err
    return report.status

end DotLint

/-- The program: the `check` command with its options and files. -/
def main (args : List String) : IO UInt32 := do
  match DotLint.CheckOptions.parse args with
  | .error e =>
    IO.eprint e.message
    return 2
  | .ok options => DotLint.runCheck options
