import BranchLog.Text.Blank

/-!
# Lines of a branch log

A record begins with `marker`; the third field behind it is the instruction type. All other lines
are no business of a tally, and a record with fewer fields is short.
-/
namespace BranchLog

/-- Written by the branch instrumentation in front of every condition record. -/
def marker : String := "[Br Condition] Instruction:"

/-- The least number of fields of a record; the last of them is its instruction type. -/
def leastFields : Nat := 3

inductive LineClass where
  | ignored
  | token (type : String)
  | short (found : Nat)
  deriving DecidableEq, Repr

/-- The fields behind the marker, if the line is a record. -/
def recordFields? (line : List Char) : Option (List (List Char)) :=
  if marker.toList.isPrefixOf line then some (Text.fields (line.drop marker.length)) else none

def LineClass.ofLine (line : List Char) : LineClass :=
  match recordFields? line with
  | none => .ignored
  | some fields =>
    match fields[leastFields - 1]? with
    | some type => .token (String.ofList type)
    | none => .short fields.length

theorem recordFields?_marker_append (r : List Char) :
    recordFields? (marker.toList ++ r) = some (Text.fields r) := by
  have h : marker.length = marker.toList.length := (String.length_toList).symm
  rw [recordFields?, h, List.drop_left]
  simp [List.isPrefixOf_iff_prefix]

end BranchLog
