import BranchLog.Path
import BranchLog.Table
import BranchLog.Warning

/-!
# Reports

What a scan found: where it looked, how much it read, the instruction types with their counts and
the warnings. The summary and the plain listing are texts for people.
-/
namespace BranchLog

structure Report where
  version : Nat
  generatedAt : String
  path : Path
  strict : Bool
  files : Nat
  lines : Nat
  matched : Nat
  types : List String
  counts : Table String Nat
  warnings : List Warning

namespace Report

def summary (r : Report) : String :=
  String.intercalate "\n" [
    "Input: " ++ r.path.display,
    "Files scanned: " ++ r.files.repr,
    "Lines scanned: " ++ r.lines.repr,
    "Matching lines: " ++ r.matched.repr,
    "Instruction types: " ++ r.types.length.repr,
    "Warnings: " ++ r.warnings.length.repr]

def heading : String := "Unique instruction types found:"

def rule : String := String.ofList (List.replicate 33 '=')

def listingLine (r : Report) (counts : Bool) (type : String) : String :=
  if counts then type ++ " " ++ ((r.counts.get? type).getD 0).repr else type

/-- A line for each type, with the number of its records if `counts` asks for it. -/
def listing (r : Report) (counts : Bool) : String :=
  String.join ((heading :: rule :: r.types.map (r.listingLine counts)).map (· ++ "\n"))

end Report

end BranchLog
