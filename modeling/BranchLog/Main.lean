import BranchLog.Instant
import BranchLog.Run
import BranchLog.Snapshot
import Std.Time.DateTime

/-!
# The command
-/

open BranchLog

def usage : String :=
  String.intercalate "\n" [
    "Lists the distinct instruction types found in branch-condition logs.",
    "",
    "Options:",
    "  --input PATH      log file, or a directory of them",
    "  --strict          abort on lines that carry the marker but too few fields",
    "  --format FORMAT   text, json or yaml",
    "  --counts          print how many lines produced each instruction type",
    "  --verbose         print a summary of the scan to standard error",
    "  --help            print this text"]

def refuse (r : Refusal) : IO UInt32 := do
  match r with
  | .displayHelp => IO.println usage
  | .unknownArgument => IO.eprintln "error: unknown argument"
  | .tooManyValues => IO.eprintln "error: an option was given a value it does not take"
  | .invalidValue => IO.eprintln "error: an option lacks a value or was given an invalid one"
  | .argumentConflict => IO.eprintln "error: an option was given twice"
  return r.exitCode.toUInt32

def now : IO Instant := do
  let t := (← Std.Time.Timestamp.now).val
  return ⟨t.second.val.toNat, t.nano.val.toNat⟩

/-- A run that waits is tried again with what is on the disk by then. -/
partial def runToEnd (o : Options) : IO Outcome := do
  match run (← Snapshot.take o.input) (← now).text o with
  | some outcome => return outcome
  | none => runToEnd o

def main (arguments : List String) : IO UInt32 := do
  let environment := (← IO.getEnv "BR_CONDS_PATH").map Text.encode
  match Options.parse (arguments.map Text.encode) environment with
  | .error r => refuse r
  | .ok o =>
    let outcome ← runToEnd o
    IO.eprint outcome.stderr
    IO.print outcome.stdout
    return outcome.exitCode.toUInt32
