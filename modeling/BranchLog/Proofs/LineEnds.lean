import BranchLog.Proofs.LineGrammar
import BranchLog.Proofs.LineStarts
import Mathlib

/-!
# How lines are ended

Blanks at the end of a line do not change what the line is (`ofLine_append_gap`), whether they are
cut off with its end or are left to the fields. So a text in which blanks are put in front of some
`'\n'` has lines of the same classes, and it is read the same (`reading_of_padded`); `'\r'` is but
one of these blanks.
-/
namespace BranchLog

open Text

theorem ofLine_append_gap {w : List Char} (hw : IsGap w) (line : List Char) :
    LineClass.ofLine (line ++ w) = LineClass.ofLine line := by
  induction w generalizing line with
  | nil => rw [List.append_nil]
  | cons b w ih =>
    obtain ⟨hb, hw⟩ := isGap_cons.1 hw
    rw [List.append_cons, ih hw, ofLine_append_blank hb]

namespace Text

/-- Blanks other than `'\n'` are put in front of some of the `'\n'` of a text. -/
inductive Padded : List Char → List Char → Prop
  | nil : Padded [] []
  | keep {c : Char} {cs ds : List Char} (h : Padded cs ds) : Padded (c :: cs) (c :: ds)
  | pad {w cs ds : List Char} (hw : IsGap w) (hn : '\n' ∉ w) (h : Padded cs ds) :
      Padded ('\n' :: cs) (w ++ '\n' :: ds)

/-- What stands in front of every `'\n'` is made longer by `w`. -/
def lengthenLines (w cs : List Char) : List Char :=
  cs.flatMap fun c => if c = '\n' then w ++ ['\n'] else [c]

theorem padded_lengthenLines {w : List Char} (hw : IsGap w) (hn : '\n' ∉ w) (cs : List Char) :
    Padded cs (lengthenLines w cs) := by
  induction cs with
  | nil => exact .nil
  | cons c cs ih =>
    rw [lengthenLines, List.flatMap_cons]
    by_cases hc : c = '\n'
    · subst hc
      rw [if_pos rfl, List.append_assoc, List.singleton_append]
      exact .pad hw hn ih
    · rw [if_neg hc, List.singleton_append]
      exact .keep ih

theorem Padded.eq_of_not_mem {cs ds : List Char} (h : Padded cs ds) (hcs : '\n' ∉ cs) :
    ds = cs := by
  induction h with
  | nil => rfl
  | keep _ ih => rw [ih fun hmem => hcs (List.mem_cons_of_mem _ hmem)]
  | pad => exact absurd List.mem_cons_self hcs

/-- Only the end of a line is padded. -/
theorem Padded.exists_line {l r ds : List Char} (h : Padded (l ++ '\n' :: r) ds) (hl : '\n' ∉ l) :
    ∃ w ds', ds = (l ++ w) ++ '\n' :: ds' ∧ IsGap w ∧ '\n' ∉ w ∧ Padded r ds' := by
  induction l generalizing ds with
  | nil =>
    cases h with
    | keep h => exact ⟨[], _, rfl, isGap_nil, List.not_mem_nil, h⟩
    | pad hw hn h => exact ⟨_, _, rfl, hw, hn, h⟩
  | cons c l ih =>
    obtain ⟨hc, hl⟩ := List.ne_and_not_mem_of_not_mem_cons hl
    cases h with
    | keep h =>
      obtain ⟨w, ds', rfl, hw, hn, h⟩ := ih h hl
      exact ⟨w, ds', rfl, hw, hn, h⟩
    | pad => exact absurd rfl hc

/-- The lines of a padded text are of the same classes, one by one. -/
theorem Padded.map_ofLine_lines {cs ds : List Char} (h : Padded cs ds) :
    (lines ds).map LineClass.ofLine = (lines cs).map LineClass.ofLine := by
  induction cs using induction_lines generalizing ds with
  | last l hl => rw [h.eq_of_not_mem hl]
  | more l r hl ih =>
    obtain ⟨w, ds, rfl, hw, hn, hr⟩ := h.exists_line hl
    have hlw : '\n' ∉ l ++ w := by simp [hl, hn]
    rw [lines_append_newline hlw, lines_append_newline hl, List.map_cons, List.map_cons,
      ofLine_dropReturn, ofLine_dropReturn, ofLine_append_gap hw, ih hr]

end Text

namespace Reading

/-- A reading knows no more of its lines than their classes. -/
theorem addLines_congr (r : Reading) (source : String) (strict : Bool) (number : Nat)
    {a b : List (List Char)} (h : a.map LineClass.ofLine = b.map LineClass.ofLine) :
    r.addLines source strict number a = r.addLines source strict number b := by
  induction a generalizing r number b with
  | nil =>
    cases b with
    | nil => rfl
    | cons => cases h
  | cons line rest ih =>
    cases b with
    | nil => cases h
    | cons line' rest' =>
      obtain ⟨hline, hrest⟩ := List.cons.inj h
      have hadd (r : Reading) : r.addLine source number line = r.addLine source number line' := by
        rw [addLine, hline, addLine]
      simp only [addLines, hadd, ih _ _ hrest]

end Reading

/-- No reading tells a text from the same text with longer line ends. -/
theorem reading_of_padded (r : Reading) (source : String) (strict : Bool) (text : List Char) :
    (∀ padded, Text.Padded text padded →
      r.addText source strict padded = r.addText source strict text) ∧
    r.addText source strict (Text.lengthenLines ['\r'] text) = r.addText source strict text ∧
    r.addText source strict (Text.lengthenLines ['\r', '\r'] text) =
      r.addText source strict text := by
  have hread {padded : List Char} (h : Text.Padded text padded) :
      r.addText source strict padded = r.addText source strict text :=
    r.addLines_congr source strict 1 h.map_ofLine_lines
  have hreturns {w : List Char} (hw : ∀ c ∈ w, c = '\r') :
      Text.Padded text (Text.lengthenLines w text) := by
    refine Text.padded_lengthenLines (fun c hc => ?_) (fun hc => ?_) text
    · rw [hw c hc]
      rfl
    · cases hw _ hc
  exact ⟨fun _ => hread, hread (hreturns (by simp)), hread (hreturns (by simp))⟩

end BranchLog
