import BranchLog.Table

/-!
# Tallies of instruction types

How many records named each type, how many records there were, and how many lines were read.
-/
namespace BranchLog

structure Tally where
  counts : Table String Nat := .empty
  matched : Nat := 0
  lines : Nat := 0

namespace Tally

def add (t : Tally) (type : String) : Tally :=
  { t with
    counts := t.counts.alter type fun n => some (n.getD 0 + 1)
    matched := t.matched + 1 }

def addLine (t : Tally) : Tally := { t with lines := t.lines + 1 }

def count (t : Tally) (type : String) : Nat := (t.counts.get? type).getD 0

/-- Ascending. -/
def types (t : Tally) : List String := t.counts.keys

def contains (t : Tally) (type : String) : Bool := t.counts.contains type

@[simp]
theorem counts_addLine (t : Tally) : t.addLine.counts = t.counts := rfl

@[simp]
theorem matched_addLine (t : Tally) : t.addLine.matched = t.matched := rfl

@[simp]
theorem lines_addLine (t : Tally) : t.addLine.lines = t.lines + 1 := rfl

@[simp]
theorem matched_add (t : Tally) (type : String) : (t.add type).matched = t.matched + 1 := rfl

@[simp]
theorem lines_add (t : Tally) (type : String) : (t.add type).lines = t.lines := rfl

end Tally

end BranchLog
