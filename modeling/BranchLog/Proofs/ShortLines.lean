import BranchLog.Proofs.Counting
import BranchLog.Scan
import Mathlib

/-!
# Short lines and what a scan makes of them

`shortLines` are the short lines of a text with their numbers. A lenient reading warns of each of
them and a strict one ends at the first; `readFiles_eq` says so of a whole list of files, of which
the first that is refused decides. Hence a strict scan is a lenient scan without warnings.
-/
namespace BranchLog

def short? (source : String) (line : List Char) (number : Nat) : Option ShortLine :=
  if IsShort line then some ⟨source, number, (fieldsBehind line).length⟩ else none

/-- The class of a line tells whether it is short. -/
theorem short?_eq (source : String) (line : List Char) (number : Nat) :
    short? source line number =
      match LineClass.ofLine line with
      | .short found => some ⟨source, number, found⟩
      | _ => none := by
  rw [short?]
  cases hc : LineClass.ofLine line with
  | ignored => exact if_neg fun hs => ofLine_eq_ignored_iff.1 hc hs.1
  | token type => exact if_neg (ofLine_eq_token_iff.1 hc).not_isShort
  | short found =>
    obtain ⟨hs, rfl⟩ := ofLine_eq_short_iff.1 hc
    exact if_pos hs

/-- In their order; `number` is that of the first line. -/
def shortLines (source : String) (number : Nat) (lines : List (List Char)) : List ShortLine :=
  (lines.zipIdx number).filterMap fun (line, n) => short? source line n

theorem shortLines_cons (source : String) (number : Nat) (line : List Char)
    (rest : List (List Char)) :
    shortLines source number (line :: rest) =
      (short? source line number).toList ++ shortLines source (number + 1) rest := by
  cases h : short? source line number <;> simp [shortLines, h]

theorem short?_eq_none_iff {source : String} {line : List Char} {number : Nat} :
    short? source line number = none ↔ ¬IsShort line := by
  rw [short?]
  split <;> simp_all

theorem shortLines_eq_nil_iff {source : String} {number : Nat} {lines : List (List Char)} :
    shortLines source number lines = [] ↔ ∀ line ∈ lines, ¬IsShort line := by
  induction lines generalizing number with
  | nil => simp [shortLines]
  | cons line rest ih =>
    rw [shortLines_cons, List.append_eq_nil_iff, Option.toList_eq_nil_iff, short?_eq_none_iff, ih,
      List.forall_mem_cons]

theorem exists_of_head?_shortLines {source : String} {number : Nat} {lines : List (List Char)}
    {s : ShortLine} (h : (shortLines source number lines).head? = some s) :
    ∃ before line after, lines = before ++ line :: after ∧ (∀ l ∈ before, ¬IsShort l) ∧
      IsShort line ∧ s = ⟨source, number + before.length, (fieldsBehind line).length⟩ := by
  induction lines generalizing number with
  | nil => simp [shortLines] at h
  | cons line rest ih =>
    rw [shortLines_cons] at h
    by_cases hline : IsShort line
    · rw [short?, if_pos hline] at h
      cases h
      exact ⟨[], line, rest, rfl, by simp, hline, rfl⟩
    · rw [short?_eq_none_iff.2 hline] at h
      obtain ⟨before, found, after, hrest, hbefore, hfound, hs⟩ := ih h
      refine ⟨line :: before, found, after, by rw [hrest, List.cons_append], ?_, hfound, ?_⟩
      · exact List.forall_mem_cons.2 ⟨hline, hbefore⟩
      · rw [hs, List.length_cons, Nat.add_comm before.length, ← Nat.add_assoc]

namespace Reading

theorem addLine_eq (r : Reading) (source : String) (number : Nat) (line : List Char) :
    r.addLine source number line =
      ({ r with tally := r.tally.read line }, short? source line number) := by
  rw [addLine, Tally.read, short?_eq]
  cases LineClass.ofLine line <;> rfl

/-- All lines are read, and each short one is warned of. -/
def readAll (r : Reading) (source : String) (number : Nat) (lines : List (List Char)) :
    Reading where
  tally := lines.foldl Tally.read r.tally
  warnings := r.warnings ++ ((shortLines source number lines).map ShortLine.warning).toArray

theorem readAll_cons (r : Reading) (source : String) (number : Nat) (line : List Char)
    (rest : List (List Char)) :
    r.readAll source number (line :: rest) =
      readAll ⟨r.tally.read line,
        r.warnings ++ ((short? source line number).toList.map ShortLine.warning).toArray⟩
        source (number + 1) rest := by
  simp [readAll, shortLines_cons]

theorem addLines_lenient (r : Reading) (source : String) (number : Nat)
    (lines : List (List Char)) :
    r.addLines source false number lines = (r.readAll source number lines, none) := by
  induction lines generalizing r number with
  | nil => simp [addLines, readAll, shortLines]
  | cons line rest ih =>
    rw [addLines, addLine_eq, readAll_cons]
    cases short? source line number with
    | none => simp [ih]
    | some s => simp [ih, warn]

/-- The first short line ends a strict reading. -/
theorem addLines_strict (r : Reading) (source : String) (number : Nat)
    (lines : List (List Char)) :
    (r.addLines source true number lines).2 = (shortLines source number lines).head? := by
  induction lines generalizing r number with
  | nil => rfl
  | cons line rest ih =>
    rw [addLines, addLine_eq, shortLines_cons]
    cases short? source line number with
    | none => simp [ih]
    | some s => simp

theorem addLines_of_shortLines_eq_nil {source : String} {number : Nat} {lines : List (List Char)}
    (h : shortLines source number lines = []) (r : Reading) (strict : Bool) :
    r.addLines source strict number lines = (r.readAll source number lines, none) := by
  induction lines generalizing r number with
  | nil => simp [addLines, readAll, shortLines]
  | cons line rest ih =>
    rw [shortLines_cons, List.append_eq_nil_iff, Option.toList_eq_nil_iff] at h
    rw [addLines, addLine_eq, readAll_cons, h.1]
    simp [ih h.2]

end Reading

/-- The lines of a file that can be read. -/
def LogFile.lines (f : LogFile) : List (List Char) :=
  match f.text with
  | .ok text => Text.lines text.toList
  | .error _ => []

theorem LogFile.lines_of_text {f : LogFile} {text : String} (h : f.text = .ok text) :
    f.lines = Text.lines text.toList := by
  rw [lines, h]

theorem LogFile.text_toByteArray {p : Path} (hp : p.isTooLong = false) (s : String) :
    text ⟨p, s.toByteArray⟩ = .ok s := by
  have hs : String.fromUTF8? s.toByteArray = some s := by
    rw [String.fromUTF8?, dif_pos s.isValidUTF8]
    rfl
  simp [text, hp, hs]

namespace LogFile

def shortLines (f : LogFile) : List ShortLine := BranchLog.shortLines f.path.display 1 f.lines

/-- Why a scan ends at this file. -/
def refusal? (strict : Bool) (f : LogFile) : Option ScanError :=
  match f.text with
  | .error fault => some (.unreadable f.path fault)
  | .ok _ => if strict then f.shortLines.head?.map .shortLine else none

theorem refusal?_of_text {f : LogFile} {text : String} (h : f.text = .ok text) (strict : Bool) :
    f.refusal? strict = if strict then f.shortLines.head?.map .shortLine else none := by
  rw [refusal?, h]

theorem exists_text_of_refusal? {f : LogFile} {strict : Bool} (h : f.refusal? strict = none) :
    ∃ text, f.text = .ok text := by
  rw [refusal?] at h
  cases ht : f.text with
  | error fault =>
    rw [ht] at h
    cases h
  | ok text => exact ⟨text, rfl⟩

theorem refusal?_strict_eq_none_iff {f : LogFile} :
    f.refusal? true = none ↔ f.refusal? false = none ∧ f.shortLines = [] := by
  rw [refusal?, refusal?]
  cases f.text <;> simp

end LogFile

namespace Reading

def absorb (r : Reading) (f : LogFile) : Reading := r.readAll f.path.display 1 f.lines

theorem addFile_eq (r : Reading) (strict : Bool) (f : LogFile) :
    r.addFile strict f =
      match f.refusal? strict with
      | some e => .error e
      | none => .ok (r.absorb f) := by
  cases ht : f.text with
  | error fault => rw [addFile, LogFile.refusal?, ht]
  | ok text =>
    simp only [addFile, ht, addText, ← LogFile.lines_of_text ht, LogFile.refusal?_of_text ht,
      absorb]
    cases strict with
    | false => simp [addLines_lenient]
    | true =>
      cases hs : f.shortLines with
      | nil => simp [addLines_of_shortLines_eq_nil hs]
      | cons s rest =>
        have hsecond := r.addLines_strict f.path.display 1 f.lines
        rw [← LogFile.shortLines, hs, List.head?_cons] at hsecond
        rcases h : r.addLines f.path.display true 1 f.lines with ⟨r', found⟩
        rw [h] at hsecond
        cases hsecond
        rfl

theorem foldlM_addFile (r : Reading) (strict : Bool) (files : List LogFile) :
    files.foldlM (fun r f => r.addFile strict f) r =
      match files.findSome? (LogFile.refusal? strict) with
      | some e => .error e
      | none => .ok (files.foldl absorb r) := by
  induction files generalizing r with
  | nil => rfl
  | cons f rest ih =>
    rw [List.foldlM_cons, addFile_eq, List.findSome?_cons]
    cases f.refusal? strict with
    | some e => rfl
    | none => exact ih _

theorem warnings_foldl_absorb (r : Reading) (files : List LogFile) :
    (files.foldl absorb r).warnings.toList =
      r.warnings.toList ++ files.flatMap fun f => f.shortLines.map ShortLine.warning := by
  induction files generalizing r with
  | nil => simp
  | cons f rest ih =>
    rw [List.foldl_cons, ih, List.flatMap_cons]
    simp [absorb, readAll, LogFile.shortLines]

end Reading

/-- The first file that is refused decides; without files it is the input itself. -/
theorem readFiles_eq (input : Path) (strict : Bool) {files : List LogFile} (h : files ≠ []) :
    readFiles input strict files =
      match files.findSome? (LogFile.refusal? strict) with
      | some e => .error e
      | none => .ok (files.foldl Reading.absorb {}) := by
  have hne : ¬files.isEmpty = true := by simpa using h
  rw [readFiles, if_neg hne, Reading.foldlM_addFile]

end BranchLog
