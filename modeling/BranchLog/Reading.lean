import BranchLog.Tally
import BranchLog.Text.Lines
import BranchLog.Warning

/-!
# Reading texts into a tally

A reading passes over texts line by line. At a short line a strict reading ends, with the line
already counted; any other notes a warning and goes on.
-/
namespace BranchLog

structure Reading where
  tally : Tally := {}
  warnings : Array Warning := #[]

namespace Reading

/-- One line; the short line is given back with the reading. -/
def addLine (source : String) (number : Nat) (r : Reading) (line : List Char) :
    Reading × Option ShortLine :=
  let tally := r.tally.addLine
  match LineClass.ofLine line with
  | .ignored => ({ r with tally }, none)
  | .token type => ({ r with tally := tally.add type }, none)
  | .short found => ({ r with tally }, some ⟨source, number, found⟩)

def warn (r : Reading) (w : Warning) : Reading := { r with warnings := r.warnings.push w }

/-- The lines from `number` on, and the short line that ended a strict reading. -/
def addLines (source : String) (strict : Bool) (number : Nat) :
    Reading → List (List Char) → Reading × Option ShortLine
  | r, [] => (r, none)
  | r, line :: rest =>
    match r.addLine source number line with
    | (r, none) => addLines source strict (number + 1) r rest
    | (r, some s) =>
      if strict then (r, some s)
      else addLines source strict (number + 1) (r.warn s.warning) rest

def addText (r : Reading) (source : String) (strict : Bool) (text : List Char) :
    Reading × Option ShortLine :=
  r.addLines source strict 1 (Text.lines text)

end Reading

end BranchLog
