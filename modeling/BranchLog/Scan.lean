import BranchLog.FileTree.Walk
import BranchLog.Reading
import BranchLog.Report.Basic

/-!
# Scanning an input

All files of the input are found before the first is read; then they are read one after the other
into one tally. A strict scan allows neither short lines nor an input without files. A pipe as the
input is read to its end, so as long as it is open the scan waits.
-/
namespace BranchLog

/-- Why a file that was found gives no text. -/
inductive ReadFault where
  | lookup (fault : Fault)
  | notText
  deriving DecidableEq

def ReadFault.message : ReadFault → String
  | .lookup fault => fault.message
  | .notText => "stream did not contain valid UTF-8"

def LogFile.text (f : LogFile) : Except ReadFault String :=
  if f.path.isTooLong then .error (.lookup .nameTooLong)
  else match String.fromUTF8? f.data with
    | some text => .ok text
    | none => .error .notText

inductive ScanError where
  | walk (input : Path) (fault : WalkFault)
  | noFiles (input : Path)
  | unreadable (path : Path) (fault : ReadFault)
  | shortLine (line : ShortLine)
  deriving DecidableEq

def noFilesMessage (input : Path) : String := "no log files found in " ++ input.display

namespace ScanError

def message : ScanError → String
  | .walk input _ => "failed to walk " ++ input.display
  | .noFiles input => noFilesMessage input
  | .unreadable path _ => "failed to read " ++ path.display
  | .shortLine line => line.failureMessage

def causes : ScanError → List String
  | .walk _ fault => fault.causes
  | .unreadable _ fault => [fault.message]
  | _ => []

end ScanError

def Reading.addFile (r : Reading) (strict : Bool) (f : LogFile) : Except ScanError Reading :=
  match f.text with
  | .error fault => .error (.unreadable f.path fault)
  | .ok text =>
    match r.addText f.path.display strict text.toList with
    | (r, none) => .ok r
    | (_, some line) => .error (.shortLine line)

/-- Where no files are found a scan that is not strict only warns. -/
def readFiles (input : Path) (strict : Bool) (files : List LogFile) :
    Except ScanError Reading :=
  if files.isEmpty then
    if strict then .error (.noFiles input)
    else .ok { warnings := #[⟨.ignoredFile, noFilesMessage input⟩] }
  else files.foldlM (fun r f => r.addFile strict f) {}

def Report.ofReading (now : String) (input : Path) (strict : Bool) (files : List LogFile)
    (r : Reading) : Report where
  version := 1
  generatedAt := now
  path := input
  strict := strict
  files := files.length
  lines := r.tally.lines
  matched := r.tally.matched
  types := r.tally.types
  counts := r.tally.counts
  warnings := r.warnings.toList

/-- A scan that is waiting has come to no result so far. -/
inductive ScanResult where
  | missing (input : Path)
  | waiting
  | scanned (report : Report)

def scan (t : FileTree) (now : String) (input : Path) (strict : Bool) :
    Except ScanError ScanResult :=
  match t.resolve input with
  | .error _ => .ok (.missing input)
  | .ok place =>
    if t.isOpenPipe place then .ok .waiting
    else match t.logFiles input place with
      | .error fault => .error (.walk input fault)
      | .ok files => do
        let r ← readFiles input strict files
        return .scanned (.ofReading now input strict files r)

end BranchLog
