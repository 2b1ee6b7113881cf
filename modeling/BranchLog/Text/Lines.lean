/-!
# The lines of a text

A line ends at `'\n'`; one `'\r'` right before that end is part of it. A last piece without an end
is a line as it stands, unless it is empty.
-/
namespace BranchLog.Text

/-- Without one final `'\r'`. -/
def dropReturn (line : List Char) : List Char :=
  if line.getLast? = some '\r' then line.dropLast else line

def lines (cs : List Char) : List (List Char) :=
  let pieces := cs.splitOn '\n'
  pieces.dropLast.map dropReturn ++ pieces.getLast?.toList.filter (!·.isEmpty)

@[simp]
theorem lines_nil : lines [] = [] := rfl

theorem lines_append_newline {l : List Char} (hl : '\n' ∉ l) (r : List Char) :
    lines (l ++ '\n' :: r) = dropReturn l :: lines r := by
  rw [lines, List.splitOn_append_cons_self_of_not_mem hl, lines]
  cases h : r.splitOn '\n' with
  | nil => exact absurd h (List.splitOn_ne_nil '\n' r)
  | cons => simp

end BranchLog.Text
