import BranchLog.Line

/-!
# What a reader of logs complains of

A warning has a kind and a message. `ShortLine` is the cause of most: it says where a record with
too few fields stands and how many it has.
-/
namespace BranchLog

inductive WarningKind where
  | malformedLine
  | ignoredFile
  deriving DecidableEq, Repr

def WarningKind.name : WarningKind → String
  | .malformedLine => "malformed_line"
  | .ignoredFile => "ignored_file"

structure Warning where
  kind : WarningKind
  message : String
  deriving DecidableEq, Repr

/-- One line for the user. -/
def Warning.notice (w : Warning) : String :=
  "warning: [" ++ w.kind.name ++ "] " ++ w.message

/-- Lines are numbered from 1. -/
structure ShortLine where
  source : String
  number : Nat
  found : Nat
  deriving DecidableEq, Repr

namespace ShortLine

def message (s : ShortLine) : String :=
  s.source ++ ":" ++ s.number.repr ++ ": expected at least " ++ leastFields.repr ++
    " fields after `" ++ marker ++ "`, found " ++ s.found.repr

def warning (s : ShortLine) : Warning := ⟨.malformedLine, s.message⟩

/-- Said where a short line is an error. -/
def failureMessage (s : ShortLine) : String := "malformed line at " ++ s.message

end ShortLine

end BranchLog
