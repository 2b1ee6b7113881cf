import BranchLog.Proofs.LineStarts
import BranchLog.Proofs.TallyHistory
import Mathlib

/-!
# Readings in parts

Lines are read one after the other, so a reading of a text is a reading of its first lines followed
by one of the others (`addLines_append`). A strict reading is the part of a lenient one before the
first short line, and a text whose lines are all ended can be read before what follows it is known;
only the numbers of later lines tell the difference.
-/
namespace BranchLog

namespace Text

/-- The last line of the text is ended, if there is one. -/
def EndsLine (cs : List Char) : Prop := cs = [] ∨ cs.getLast? = some '\n'

theorem EndsLine.of_append_newline {l r : List Char} (h : EndsLine (l ++ '\n' :: r)) :
    EndsLine r := by
  by_cases hr : r = []
  · exact .inl hr
  · have hlast := h.resolve_left (by simp)
    rw [List.append_cons, List.getLast?_append_of_ne_nil _ hr] at hlast
    exact .inr hlast

theorem EndsLine.eq_nil {l : List Char} (h : EndsLine l) (hl : '\n' ∉ l) : l = [] :=
  h.resolve_right fun hlast => hl (List.mem_of_getLast? hlast)

theorem lines_append {a : List Char} (ha : EndsLine a) (b : List Char) :
    lines (a ++ b) = lines a ++ lines b := by
  induction a using induction_lines with
  | last l hl => rw [ha.eq_nil hl, List.nil_append, lines_nil, List.nil_append]
  | more l r hl ih =>
    rw [List.append_assoc, List.cons_append, lines_append_newline hl, lines_append_newline hl,
      ih ha.of_append_newline, List.cons_append]

theorem length_lines {a : List Char} (ha : EndsLine a) : (lines a).length = a.count '\n' := by
  induction a using induction_lines with
  | last l hl => rw [ha.eq_nil hl, lines_nil, List.length_nil, List.count_nil]
  | more l r hl ih =>
    have hcount : l.count '\n' = 0 := List.count_eq_zero.2 hl
    rw [lines_append_newline hl, List.length_cons, ih ha.of_append_newline,
      List.count_append, List.count_cons_self, hcount, Nat.zero_add]

end Text

/-- The same line of a text that stands behind `n` lines. -/
def ShortLine.later (n : Nat) (s : ShortLine) : ShortLine := { s with number := s.number + n }

theorem short?_later (source : String) (line : List Char) (number n : Nat) :
    short? source line (number + n) = (short? source line number).map (ShortLine.later n) := by
  rw [short?, short?]
  split <;> rfl

theorem shortLines_later (source : String) (number n : Nat) (lines : List (List Char)) :
    shortLines source (number + n) lines =
      (shortLines source number lines).map (ShortLine.later n) := by
  induction lines generalizing number with
  | nil => rfl
  | cons line rest ih =>
    rw [shortLines_cons, shortLines_cons, List.map_append, short?_later, Nat.add_right_comm, ih]
    cases short? source line number <;> rfl

namespace Reading

/-- The lines behind the first are read where the reading of the first did not break off. -/
theorem addLines_append (r : Reading) (source : String) (strict : Bool) (number : Nat)
    (a b : List (List Char)) :
    r.addLines source strict number (a ++ b) =
      match r.addLines source strict number a with
      | (r, none) => r.addLines source strict (number + a.length) b
      | (r, some s) => (r, some s) := by
  induction a generalizing r number with
  | nil => rfl
  | cons line rest ih =>
    have hnumber : number + (line :: rest).length = number + 1 + rest.length := by
      rw [List.length_cons, Nat.add_comm rest.length, Nat.add_assoc]
    rw [List.cons_append, addLines, addLines, addLine_eq, hnumber]
    cases short? source line number with
    | none => exact ih _ _
    | some s =>
      cases strict with
      | false => exact ih _ _
      | true => rfl

/-- Strict readings warn of nothing. -/
def warned (source : String) (strict : Bool) (number : Nat) (lines : List (List Char)) :
    List ShortLine :=
  if strict then [] else shortLines source number lines

theorem warnings_addLines (r : Reading) (source : String) (strict : Bool) (number : Nat)
    (lines : List (List Char)) :
    (r.addLines source strict number lines).1.warnings =
      r.warnings ++ ((warned source strict number lines).map ShortLine.warning).toArray := by
  cases strict with
  | false => rw [addLines_lenient]; rfl
  | true =>
    rw [warned, if_pos rfl, List.map_nil, Array.append_empty]
    induction lines generalizing r number with
    | nil => rfl
    | cons line rest ih =>
      rw [addLines, addLine_eq]
      cases short? source line number with
      | none => exact ih _ _
      | some s => rfl

theorem stopped_addLines (r : Reading) (source : String) (strict : Bool) (number : Nat)
    (lines : List (List Char)) :
    (r.addLines source strict number lines).2 =
      if strict then (shortLines source number lines).head? else none := by
  cases strict with
  | false => rw [addLines_lenient]; rfl
  | true => exact addLines_strict ..

/-- Which number the first line has shows in the warnings and in the short line alone. -/
theorem addLines_later (r : Reading) (source : String) (strict : Bool) (number n : Nat)
    (lines : List (List Char)) :
    r.addLines source strict (number + n) lines =
      (⟨(r.addLines source strict number lines).1.tally,
        r.warnings ++
          ((warned source strict number lines).map fun s => (s.later n).warning).toArray⟩,
        (r.addLines source strict number lines).2.map (ShortLine.later n)) := by
  -- From the first short line on the two runs hold different warnings, so they are not compared
  -- line by line but through the closed forms of tally, warnings and short line.
  have hwarned : warned source strict (number + n) lines =
      (warned source strict number lines).map (ShortLine.later n) := by
    cases strict with
    | false => exact shortLines_later ..
    | true => rfl
  have htally : (r.addLines source strict (number + n) lines).1.tally =
      (r.addLines source strict number lines).1.tally := by
    rw [tally_addLines, tally_addLines]
  have hwarnings := r.warnings_addLines source strict (number + n) lines
  rw [hwarned, List.map_map] at hwarnings
  have hstopped : (r.addLines source strict (number + n) lines).2 =
      (r.addLines source strict number lines).2.map (ShortLine.later n) := by
    rw [stopped_addLines, stopped_addLines, shortLines_later, List.head?_map]
    cases strict <;> rfl
  exact Prod.ext (congr_arg₂ Reading.mk htally hwarnings) hstopped

/-- A strict reading is that of the lines before the first short line, which is counted besides. -/
theorem exists_break (r : Reading) {source : String} {number : Nat} {lines : List (List Char)}
    {s : ShortLine} (h : (shortLines source number lines).head? = some s) :
    ∃ before line after p, lines = before ++ line :: after ∧ (∀ l ∈ before, ¬IsShort l) ∧
      IsShort line ∧ r.addLines source true number before = (p, none) ∧
      p.warnings = r.warnings ∧
      r.addLines source true number lines = ({ p with tally := p.tally.addLine }, some s) := by
  obtain ⟨before, line, after, rfl, hbefore, hline, rfl⟩ := exists_of_head?_shortLines h
  have hnone : shortLines source number before = [] := shortLines_eq_nil_iff.2 hbefore
  have hp := addLines_of_shortLines_eq_nil hnone r true
  have hread : (r.readAll source number before).tally.read line =
      (r.readAll source number before).tally.addLine := by
    rw [Tally.read, ofLine_eq_short_iff.2 ⟨hline, rfl⟩]
  refine ⟨before, line, after, _, rfl, hbefore, hline, hp, ?_, ?_⟩
  · rw [readAll, hnone, List.map_nil, Array.append_empty]
  · rw [addLines_append, hp]
    simp only [addLines, addLine_eq, short?, if_pos hline, if_true, hread]

end Reading

/-- A strict reading fails where a lenient one would warn, for the reason of its first warning. It
has then read the lines before, counted that line and warned of nothing; otherwise the two are the
same. -/
theorem strict_reading_breaks_off (r : Reading) (source : String) (text : List Char) :
    ∃ (lenient : Reading) (added : List Warning),
      r.addText source false text = (lenient, none) ∧
      lenient.warnings = r.warnings ++ added.toArray ∧
      ((∃ q s, r.addText source true text = (q, some s)) ↔ added ≠ []) ∧
      (∀ q s, r.addText source true text = (q, some s) →
        (∃ w, added.head? = some w ∧ s.failureMessage = "malformed line at " ++ w.message) ∧
        q.warnings = r.warnings ∧
        ∃ before line after p, Text.lines text = before ++ line :: after ∧
          (∀ l ∈ before, ¬IsShort l) ∧ IsShort line ∧
          r.addLines source true 1 before = (p, none) ∧ q.tally.lines = p.tally.lines + 1 ∧
          q.tally.counts = p.tally.counts ∧ q.tally.matched = p.tally.matched) ∧
      ∀ q, r.addText source true text = (q, none) → q = lenient := by
  refine ⟨_, _, r.addLines_lenient source 1 _, rfl, ?_⟩
  cases hs : shortLines source 1 (Text.lines text) with
  | nil =>
    have hstrict := Reading.addLines_of_shortLines_eq_nil hs r true
    rw [Reading.addText, hstrict]
    simp
  | cons first more =>
    have hfirst : (shortLines source 1 (Text.lines text)).head? = some first := by rw [hs]; rfl
    obtain ⟨before, line, after, p, hlines, hbefore, hline, hp, hwarnings, hstrict⟩ :=
      r.exists_break hfirst
    rw [Reading.addText, hstrict]
    refine ⟨by simp, ?_, by simp⟩
    intro q s h
    cases h
    exact ⟨⟨_, rfl, rfl⟩, hwarnings, before, line, after, p, hlines, hbefore, hline, hp, rfl, rfl,
      rfl⟩

/-- A text whose lines are all ended can be read before what follows it. If it is not refused, the
lines that follow are read as by themselves, but for the numbers they are given. -/
theorem reading_of_append (r : Reading) (source : String) (strict : Bool) {a : List Char}
    (ha : Text.EndsLine a) (b : List Char) :
    (∀ q s, r.addText source strict a = (q, some s) →
      r.addText source strict (a ++ b) = (q, some s)) ∧
    ∀ q, r.addText source strict a = (q, none) →
      ∃ (found : List ShortLine) (tally : Tally) (stopped : Option ShortLine),
        q.addText source strict b =
          (⟨tally, q.warnings ++ (found.map ShortLine.warning).toArray⟩, stopped) ∧
        r.addText source strict (a ++ b) =
          (⟨tally, q.warnings ++
            (found.map fun s => (s.later (a.count '\n')).warning).toArray⟩,
            stopped.map (ShortLine.later (a.count '\n'))) := by
  have happend : r.addText source strict (a ++ b) =
      match r.addText source strict a with
      | (q, none) => q.addLines source strict (1 + a.count '\n') (Text.lines b)
      | (q, some s) => (q, some s) := by
    rw [Reading.addText, Text.lines_append ha, Reading.addLines_append, Text.length_lines ha]
    rfl
  constructor
  · intro q s h
    rw [happend, h]
  · intro q h
    rw [happend, h]
    refine ⟨Reading.warned source strict 1 (Text.lines b), _, _, ?_,
      q.addLines_later source strict 1 _ _⟩
    rw [← q.warnings_addLines source strict 1 (Text.lines b)]
    rfl

/-- Two lines that are ended, and two of which one is not. -/
def firstPart : List Char := "[Br Condition] Instruction: x\r\nnoise\r\n".toList

def secondPart : List Char := "\n[Br Condition] Instruction: y z".toList

theorem reading_of_append_twoParts :
    Text.EndsLine firstPart ∧
    ∃ (q : Reading) (found : List ShortLine) (tally : Tally) (stopped : Option ShortLine),
      ({} : Reading).addText "log" false firstPart = (q, none) ∧
      q.addText "log" false secondPart =
        (⟨tally, q.warnings ++ (found.map ShortLine.warning).toArray⟩, stopped) ∧
      ({} : Reading).addText "log" false (firstPart ++ secondPart) =
        (⟨tally, q.warnings ++ (found.map fun s => (s.later 2).warning).toArray⟩,
          stopped.map (ShortLine.later 2)) ∧
      q.warnings.toList.map Warning.message ++ found.map (fun s => (s.later 2).message) =
        ["log:1: expected at least 3 fields after `[Br Condition] Instruction:`, found 1",
          "log:4: expected at least 3 fields after `[Br Condition] Instruction:`, found 2"] := by
  have hends : Text.EndsLine firstPart := .inr (by decide +kernel)
  have hcount : firstPart.count '\n' = 2 := by decide +kernel
  have hfirst : ({} : Reading).addText "log" false firstPart =
      (({} : Reading).readAll "log" 1 (Text.lines firstPart), none) := Reading.addLines_lenient ..
  obtain ⟨found, tally, stopped, hsecond, hwhole⟩ :=
    (reading_of_append {} "log" false hends secondPart).2 _ hfirst
  rw [hcount] at hwhole
  refine ⟨hends, _, found, tally, stopped, hfirst, hsecond, hwhole, ?_⟩
  have hmessages := congrArg (fun o => o.1.warnings.toList.map Warning.message) hwhole
  simp only [Array.toList_append, List.map_append, List.map_map] at hmessages
  refine Eq.trans hmessages.symm ?_
  decide +kernel

end BranchLog
