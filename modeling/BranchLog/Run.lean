import BranchLog.Options
import BranchLog.Report.Render
import BranchLog.Scan

/-!
# Running the program

What the program prints and how it exits, for one file tree and one command line. Warnings and the
summary go before the report, so they stand even where the report cannot be rendered.
-/
namespace BranchLog

structure Outcome where
  stdout : String
  stderr : String
  exitCode : Nat
  deriving DecidableEq, Repr

/-- Every line but the first is indented. -/
def indentBelow (indent : String) (text : String) : String :=
  String.ofList (text.toList.flatMap fun c => if c = '\n' then '\n' :: indent.toList else [c])

def numberedCause (cause : String) (number : Nat) : String :=
  let digits := number.repr
  String.ofList (List.replicate (5 - digits.length) ' ') ++ digits ++ ": " ++
    indentBelow "       " cause ++ "\n"

/-- A single cause is not numbered. -/
def causeLines : List String → String
  | [] => ""
  | [cause] => "\nCaused by:\n    " ++ indentBelow "    " cause ++ "\n"
  | causes =>
    "\nCaused by:\n" ++ String.join (causes.zipIdx.map fun (cause, i) => numberedCause cause i)

def errorReport (message : String) (causes : List String) : String :=
  "Error: " ++ message ++ "\n" ++ causeLines causes

namespace Outcome

def missing (input : Path) : Outcome :=
  ⟨"Path " ++ input.display ++ " does not exist.\n", "", 1⟩

def ofReport (o : Options) (r : Report) : Outcome :=
  let notices := String.join (r.warnings.map (·.notice ++ "\n")) ++
    if o.verbose then r.summary ++ "\n" else ""
  match r.render o.format o.counts with
  | .ok text => ⟨text, notices, 0⟩
  | .error e => ⟨"", notices ++ errorReport e.message [e.cause], 1⟩

end Outcome

/-- A run has no outcome as long as its scan waits. -/
def run (t : FileTree) (now : String) (o : Options) : Option Outcome :=
  match scan t now o.input o.strict with
  | .ok (.missing input) => some (.missing input)
  | .ok .waiting => none
  | .ok (.scanned r) => some (.ofReport o r)
  | .error e => some ⟨"", errorReport e.message e.causes, 1⟩

end BranchLog
