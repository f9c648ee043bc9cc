import DotLint.Lint
import DotLint.Config

/-!
# The check command

The command `check [--fix] [--config FILE] [--dot-location object|property] FILES...` lints
each file, and with `--fix` writes the fixed text back. The position comes from the
configuration file, if one is given, and the flag overrides it.

Each finding is printed as `path:line:column: dot-location message`, files in the order
given, then a summary: how many fixes were applied, how many findings remain, or that all
checks passed. A file that cannot be read, parsed or written is reported on the error
channel and the others are still checked. The exit status is 0 when nothing remains, 1
when findings remain, and 2 when a file or the configuration failed.

This module decides all of it; the program around it only reads and writes files.
-/

namespace DotLint

/-- What a check is asked to do. -/
structure CheckOptions where
  files : List String
  fix : Bool
  config : Option String
  dotLocation : Option DotPosition
deriving Repr

/-- Why the command line was refused. -/
inductive UsageError where
  /-- No subcommand. -/
  | missingCommand
  /-- A subcommand other than `check`. -/
  | unknownCommand (name : String)
  /-- An option that does not exist. -/
  | unknownOption (name : String)
  /-- An option given without its value. -/
  | missingValue (name : String)
  /-- A position other than `object` or `property`. -/
  | invalidPosition (value : String)
  /-- No file to check. -/
  | missingFiles
deriving DecidableEq, Repr

/-- The usage lines that end every refusal. -/
def usageLines : String :=
  "\nUsage: dotloc check [OPTIONS] <FILES>...\n\nFor more information, try '--help'.\n"

/-- The text of a refusal. -/
def UsageError.message : UsageError → String
  | .missingCommand =>
    "Check where member-access dots are placed\n\nUsage: dotloc [OPTIONS] <COMMAND>\n\n" ++
      "Commands:\n  check  Report misplaced dots, optionally fixing them in place\n"
  | .unknownCommand name =>
    "error: unrecognized subcommand '" ++ name ++ "'\n\nUsage: dotloc [OPTIONS] <COMMAND>\n\n" ++
      "For more information, try '--help'.\n"
  | .unknownOption name =>
    "error: unexpected argument '" ++ name ++ "' found\n" ++ usageLines
  | .missingValue name =>
    "error: a value is required for '" ++ name ++ "' but none was supplied\n" ++ usageLines
  | .invalidPosition value =>
    "error: invalid value '" ++ value ++ "' for '--dot-location <DOT_LOCATION>'\n" ++
      "  [possible values: object, property]\n" ++ usageLines
  | .missingFiles =>
    "error: the following required arguments were not provided:\n  <FILES>...\n" ++ usageLines

namespace CheckOptions

/-- No file yet, no fix, no configuration, no override. -/
def empty : CheckOptions := ⟨[], false, none, none⟩

/-- Reads the arguments after `check`; after `--` every argument is a file. -/
def ofArguments : List String → CheckOptions → Except UsageError CheckOptions
  | [], o => if o.files.isEmpty then .error .missingFiles else .ok o
  | "--" :: rest, o => .ok { o with files := o.files ++ rest }
  | "--fix" :: rest, o => ofArguments rest { o with fix := true }
  | "-v" :: rest, o | "-vv" :: rest, o | "--verbose" :: rest, o => ofArguments rest o
  | "--config" :: value :: rest, o => ofArguments rest { o with config := some value }
  | ["--config"], _ => .error (.missingValue "--config <FILE>")
  | "--dot-location" :: value :: rest, o =>
    match DotPosition.ofName? value with
    | some p => ofArguments rest { o with dotLocation := some p }
    | none => .error (.invalidPosition value)
  | ["--dot-location"], _ => .error (.missingValue "--dot-location <DOT_LOCATION>")
  | arg :: rest, o =>
    if arg.startsWith "--config=" then
      ofArguments rest { o with config := some (arg.drop 9).toString }
    else if arg.startsWith "--dot-location=" then
      let value := (arg.drop 15).toString
      match DotPosition.ofName? value with
      | some p => ofArguments rest { o with dotLocation := some p }
      | none => .error (.invalidPosition value)
    else if arg.startsWith "-" && arg != "-" then .error (.unknownOption arg)
    else ofArguments rest { o with files := o.files ++ [arg] }

/-- Reads a whole command line: the subcommand `check` and its arguments. -/
def parse : List String → Except UsageError CheckOptions
  | [] => .error .missingCommand
  | "check" :: rest => ofArguments rest empty
  | "-v" :: rest | "--verbose" :: rest => parse rest
  | cmd :: _ => .error (.unknownCommand cmd)

end CheckOptions

/-- Why the configuration could not be used. -/
inductive ConfigFailure where
  /-- The file could not be read. -/
  | unreadable (path reason : String)
  /-- The file is not a valid configuration; `report` says where and why. -/
  | invalid (path report : String)
deriving DecidableEq, Repr

/-- The report of a configuration failure: the run failed, and each cause in turn. -/
def ConfigFailure.report (f : ConfigFailure) : String :=
  let causes := match f with
    | .unreadable path reason => ["failed to read " ++ path ++ ": " ++ reason, reason]
    | .invalid path report => ["failed to parse " ++ path ++ ": " ++ report, report]
  "dotloc failed\n" ++
    String.join ((("invalid configuration" :: causes).map fun c => "  Cause: " ++ c ++ "\n"))

/-- The configuration from the text of its file, if one was given, with the flag's
override. -/
def CheckOptions.settings (o : CheckOptions) (configText : Option (Except String String)) :
    Except ConfigFailure Config := do
  let base ← match o.config, configText with
    | some path, some (.error reason) => .error (.unreadable path reason)
    | some path, some (.ok text) =>
      match Config.ofToml text with
      | .ok c => pure c
      | .error report => .error (.invalid path report)
    | _, _ => pure Config.default
  match o.dotLocation with
  | some p => pure ⟨p⟩
  | none => pure base

/-- How one file fared: its remaining findings and the fixes applied, or why it failed. -/
inductive FileOutcome where
  | checked (findings : List Diagnostic) (fixed : Nat)
  | failed (message : String)

/-- Checks the text of the file at `path`: its outcome, and the fixed text to write back
when fixes were applied. -/
def checkText (path source : String) (settings : Config) (fix : Bool) :
    FileOutcome × Option String :=
  let parseFailure := fun (e : SyntaxError) =>
    FileOutcome.failed ("failed to parse " ++ path ++ ": " ++ e.message ++ ": " ++ e.message)
  if fix then
    match fixSource source settings.dotLocation with
    | .ok r => (.checked r.remaining r.fixed, if r.fixed > 0 then some r.output else none)
    | .error (.unparsable e) => (parseFailure e, none)
    | .error .splitsCharacter => (.failed ("failed to fix " ++ path), none)
  else
    match lintSource source settings.dotLocation with
    | .ok ds => (.checked ds 0, none)
    | .error e => (parseFailure e, none)

/-- What a check run prints and how it exits. -/
structure CheckReport where
  out : String
  err : String
  status : UInt32

/-- The report of a run over `(path, outcome)` pairs in the order the files were given. -/
def CheckReport.ofOutcomes (outcomes : List (String × FileOutcome)) : CheckReport :=
  let step := fun (acc : String × String × Nat × Nat × Nat) (entry : String × FileOutcome) =>
    let (out, err, fixed, remaining, failed) := acc
    match entry.2 with
    | .checked ds n =>
      let lines := String.join (ds.map fun d => entry.1 ++ ":" ++ d.display ++ "\n")
      (out ++ lines, err, fixed + n, remaining + ds.length, failed)
    | .failed message => (out, err ++ "error: " ++ message ++ "\n", fixed, remaining, failed + 1)
  let (out, err, fixed, remaining, failed) := outcomes.foldl step ("", "", 0, 0, 0)
  let out := if fixed > 0 then out ++ "Fixed " ++ toString fixed ++ " issue(s).\n" else out
  let out :=
    if remaining > 0 then out ++ "Found " ++ toString remaining ++ " issue(s).\n"
    else if failed = 0 then out ++ "All checks passed!\n"
    else out
  let status := if failed > 0 then 2 else if remaining > 0 then 1 else 0
  ⟨out, err, status⟩

end DotLint
