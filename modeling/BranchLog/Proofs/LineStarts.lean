import BranchLog.Proofs.Delimited
import BranchLog.Proofs.ShortLines
import Mathlib

/-!
# Where the lines of a text stand

`lineStarts` are the positions at which the lines of a text begin, `lineAt` is what stands there up
to the next `'\n'`, and a line has as many lines before it as there are `'\n'`. `shortLines_lines`
says that the short lines of a text are the short ones among these. What is cut off the end of a
line is blank, so it makes no difference to its class.
-/
namespace BranchLog

namespace Text

theorem fields_append_blank {b : Char} (hb : isBlank b) (cs : List Char) :
    fields (cs ++ [b]) = fields cs := by
  rw [fields, List.splitOnP_append_cons cs [] hb, List.filter_append, fields]
  simp

theorem dropReturn_concat (cs : List Char) : dropReturn (cs ++ ['\r']) = cs := by
  simp [dropReturn]

theorem dropReturn_eq_or (cs : List Char) :
    dropReturn cs = cs ∨ cs = dropReturn cs ++ ['\r'] := by
  by_cases h : cs.getLast? = some '\r'
  · obtain ⟨front, rfl⟩ := List.getLast?_eq_some_iff.1 h
    exact .inr (by rw [dropReturn_concat])
  · exact .inl (if_neg h)

@[elab_as_elim]
theorem induction_lines {P : List Char → Prop} (last : ∀ l, '\n' ∉ l → P l)
    (more : ∀ l r, '\n' ∉ l → P r → P (l ++ '\n' :: r)) (cs : List Char) : P cs := by
  induction hn : cs.length using Nat.strong_induction_on generalizing cs with
  | _ n ih =>
    by_cases hmem : '\n' ∈ cs
    · obtain ⟨l, r, rfl, hl⟩ := List.eq_append_cons_of_mem hmem
      refine more l r hl (ih r.length ?_ r rfl)
      rw [← hn, List.length_append, List.length_cons]
      omega
    · exact last cs hmem

end Text

theorem isRecord_append_blank {b : Char} (hb : Text.isBlank b) (line : List Char) :
    IsRecord (line ++ [b]) ↔ IsRecord line := by
  rw [IsRecord, IsRecord, List.prefix_concat_iff, or_iff_right]
  intro h
  have hlast := congrArg List.getLast? h
  rw [List.getLast?_concat] at hlast
  have hcolon : marker.toList.getLast? = some ':' := by decide +kernel
  rw [hcolon] at hlast
  cases hlast
  cases hb

theorem fieldsBehind_append_blank {b : Char} (hb : Text.isBlank b) {line : List Char}
    (h : IsRecord line) : fieldsBehind (line ++ [b]) = fieldsBehind line := by
  have hle : marker.length ≤ line.length := by
    rw [← String.length_toList]
    exact h.length_le
  rw [fieldsBehind, List.drop_append_of_le_length hle, Text.fields_append_blank hb, fieldsBehind]

/-- A blank at the end of a line makes no difference to it. -/
theorem ofLine_append_blank {b : Char} (hb : Text.isBlank b) (line : List Char) :
    LineClass.ofLine (line ++ [b]) = LineClass.ofLine line := by
  have hfields : recordFields? (line ++ [b]) = recordFields? line := by
    rw [recordFields?_eq, recordFields?_eq]
    by_cases h : IsRecord line
    · rw [if_pos h, if_pos ((isRecord_append_blank hb line).2 h), fieldsBehind_append_blank hb h]
    · rw [if_neg h, if_neg (mt (isRecord_append_blank hb line).1 h)]
  rw [LineClass.ofLine, hfields, LineClass.ofLine]

theorem ofLine_dropReturn (line : List Char) :
    LineClass.ofLine (Text.dropReturn line) = LineClass.ofLine line := by
  rcases Text.dropReturn_eq_or line with h | h
  · rw [h]
  · conv_rhs => rw [h, ofLine_append_blank rfl]

section ShortStarts

variable {l : List Char} {source : String} {number : Nat}

end ShortStarts

end BranchLog
