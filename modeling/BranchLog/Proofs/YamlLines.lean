import BranchLog.Proofs.Listing
import BranchLog.Proofs.YamlReport
import Mathlib

/-!
# The lines of types and counts in YAML

Every break is a blank, so no instruction type holds one, and a text without breaks is written on
one line in whatever style. In the YAML of a scan each type therefore takes one line, and each count
one or, behind a long type, two.
-/
namespace BranchLog

namespace Yaml

def IsOneLine (cs : List Char) : Prop := ∀ c ∈ cs, isBreak c = false

instance : DecidablePred IsOneLine :=
  List.decidableBAll (p := fun c => isBreak c = false)

section OneLine

variable {cs ds : List Char} {c : Char} {s : String}

theorem isOneLine_append : IsOneLine (cs ++ ds) ↔ IsOneLine cs ∧ IsOneLine ds :=
  List.forall_mem_append

theorem isOneLine_cons : IsOneLine (c :: cs) ↔ isBreak c = false ∧ IsOneLine cs :=
  List.forall_mem_cons

theorem mem_of_isBreak (h : isBreak c = true) :
    c ∈ ['\n', '\r', '\u0085', '\u2028', '\u2029'] :=
  of_decide_eq_true h

theorem isBlank_of_isBreak (h : isBreak c = true) : Text.isBlank c = true := by
  have hmem := mem_of_isBreak h
  fin_cases hmem <;> rfl

theorem isOneLine_of_isField (h : Text.IsField cs) : IsOneLine cs := by
  intro c hc
  by_contra hbreak
  exact h.notMem (isBlank_of_isBreak (Bool.eq_true_of_not_eq_false hbreak)) hc

theorem isOneLine_natural (n : Nat) : IsOneLine (natural n) :=
  isOneLine_of_isField (Text.isField_toDigits n)

/-- Where no line ends none is indented. -/
theorem indentLines_of_isOneLine (h : IsOneLine cs) (indent : Nat) :
    indentLines indent false cs = cs := by
  induction cs with
  | nil => rfl
  | cons c cs ih =>
    obtain ⟨hc, hcs⟩ := isOneLine_cons.1 h
    rw [indentLines_cons, hc, ih hcs]
    rfl

theorem isOneLine_doubled (h : IsOneLine cs) : IsOneLine (doubled cs) := by
  intro c hc
  obtain ⟨d, hd, hcd⟩ := List.mem_flatMap.1 hc
  split at hcd
  · next hquote =>
    rw [List.eq_of_mem_replicate (n := 2) hcd]
    rfl
  · rw [List.mem_singleton.1 hcd]
    exact h d hd

theorem isOneLine_writeSingle (h : IsOneLine cs) (indent : Nat) :
    IsOneLine (writeSingle indent cs) := by
  have hquote : IsOneLine ['\''] := by decide
  have hbody : IsOneLine (doubled cs ++ ['\'']) := isOneLine_append.2 ⟨isOneLine_doubled h, hquote⟩
  change IsOneLine ('\'' :: indentLines indent false (doubled cs ++ ['\'']))
  rw [indentLines_of_isOneLine hbody]
  exact isOneLine_cons.2 ⟨rfl, hbody⟩

theorem isBreak_hexDigit {n : Nat} (h : n < 16) : isBreak (hexDigit n) = false := by
  interval_cases n <;> rfl

theorem isOneLine_escapeCode {n : Nat} (h : n < 0x10000) : IsOneLine (escapeCode n) := by
  unfold escapeCode
  split
  · next hn =>
    simp only [isOneLine_cons]
    exact ⟨rfl, isBreak_hexDigit (by omega), isBreak_hexDigit (by omega), List.forall_mem_nil _⟩
  · simp only [isOneLine_cons]
    exact ⟨rfl, isBreak_hexDigit (by omega), isBreak_hexDigit (by omega),
      isBreak_hexDigit (by omega), isBreak_hexDigit (by omega), List.forall_mem_nil _⟩

/-- Breaks that are printable have names, so none is written as it stands. -/
theorem isOneLine_escape (c : Char) : IsOneLine (escape c) := by
  unfold escape
  split
  · next name hname =>
    obtain ⟨before, after, hl, -⟩ := List.lookup_eq_some_iff.1 hname
    have hmem : (c, name) ∈ escapeNames := by simp [hl]
    fin_cases hmem <;> decide
  · next hnone =>
    split
    · refine isOneLine_cons.2 ⟨?_, List.forall_mem_nil _⟩
      by_contra hbreak
      have hmem := mem_of_isBreak (Bool.eq_true_of_not_eq_false hbreak)
      fin_cases hmem <;> cases hnone
    · next hc =>
      have hcode := toNat_lt_of_not_isPrintable (c := c) (by simpa using hc)
      exact isOneLine_cons.2 ⟨rfl, isOneLine_escapeCode hcode⟩

theorem isOneLine_writeDouble (cs : List Char) : IsOneLine (writeDouble cs) := by
  unfold writeDouble
  refine isOneLine_append.2 ⟨isOneLine_cons.2 ⟨rfl, fun c hc => ?_⟩, by decide⟩
  obtain ⟨d, -, hd⟩ := List.mem_flatMap.1 hc
  exact isOneLine_escape d c hd

theorem isOneLine_scalar (h : IsOneLine s.toList) (indent : Nat) :
    Style.of s.toList ≠ .literal ∧ IsOneLine (scalar indent s) := by
  have hbreak : '\n' ∉ s.toList := fun hmem => absurd (h _ hmem) (by decide)
  have hstyle : Style.of s.toList ≠ .literal := of_ne_literal hbreak
  refine ⟨hstyle, ?_⟩
  unfold scalar
  cases hs : Style.of s.toList with
  | plain => exact h
  | single => exact isOneLine_writeSingle h indent
  | double => exact isOneLine_writeDouble s.toList
  | literal => exact absurd hs hstyle

end OneLine

section Sections

/-- Each line is ended by a break that it does not hold. -/
theorem splitOnP_flatMap_newline {ls : List (List Char)} (h : ∀ l ∈ ls, IsOneLine l) :
    (ls.flatMap (· ++ ['\n'])).splitOnP isBreak = ls ++ [[]] := by
  induction ls with
  | nil => rfl
  | cons l ls ih =>
    obtain ⟨hl, hls⟩ := List.forall_mem_cons.1 h
    rw [List.flatMap_cons, List.append_assoc, List.singleton_append,
      List.splitOnP_append_cons_of_forall_mem hl '\n' rfl, ih hls, List.cons_append]

/-- The lines of a section, given those of its entries. -/
def sectionLines (key emptySign : String) (ls : List (List Char)) : List (List Char) :=
  if ls.isEmpty then [key.toList ++ ':' :: ' ' :: emptySign.toList]
  else (key.toList ++ [':']) :: ls

theorem entries_eq_sectionLines {α : Type} {v : α → List Char} {lines : α → List (List Char)}
    {as : List α} (hv : ∀ a ∈ as, v a = (lines a).flatMap (· ++ ['\n']))
    (hne : ∀ a, lines a ≠ []) (key emptySign : String) :
    entries key emptySign (as.map v) =
      (sectionLines key emptySign (as.flatMap lines)).flatMap (· ++ ['\n']) := by
  cases as with
  | nil => simp [entries, sectionLines, field]
  | cons a as =>
    have hempty : ((a :: as).flatMap lines).isEmpty = false := by simp [hne a]
    have hitems : (a :: as).flatMap v = ((a :: as).flatMap lines).flatMap (· ++ ['\n']) := by
      rw [List.flatMap_assoc]
      exact List.flatMap_congr hv
    rw [entries_cons, hitems, sectionLines, hempty]
    simp

theorem isOneLine_of_mem_sectionLines {key emptySign : String} {ls : List (List Char)}
    (hkey : IsOneLine key.toList) (hsign : IsOneLine emptySign.toList)
    (hls : ∀ l ∈ ls, IsOneLine l) : ∀ l ∈ sectionLines key emptySign ls, IsOneLine l := by
  unfold sectionLines
  split
  · refine List.forall_mem_singleton.2 (isOneLine_append.2 ⟨hkey, ?_⟩)
    exact isOneLine_cons.2 ⟨rfl, isOneLine_cons.2 ⟨rfl, hsign⟩⟩
  · exact List.forall_mem_cons.2 ⟨isOneLine_append.2 ⟨hkey, by decide⟩, hls⟩

theorem splitOnP_entries {α : Type} {v : α → List Char} {lines : α → List (List Char)}
    {as : List α} (hv : ∀ a ∈ as, v a = (lines a).flatMap (· ++ ['\n']))
    (hlines : ∀ a ∈ as, ∀ l ∈ lines a, IsOneLine l) (hne : ∀ a, lines a ≠ [])
    {key emptySign : String} (hkey : IsOneLine key.toList) (hsign : IsOneLine emptySign.toList) :
    (entries key emptySign (as.map v)).splitOnP isBreak =
      sectionLines key emptySign (as.flatMap lines) ++ [[]] := by
  rw [entries_eq_sectionLines hv hne]
  refine splitOnP_flatMap_newline (isOneLine_of_mem_sectionLines hkey hsign fun l hl => ?_)
  obtain ⟨a, ha, hl⟩ := List.mem_flatMap.1 hl
  exact hlines a ha l hl

variable {s : String}

def typeLine (type : String) : List Char := '-' :: ' ' :: scalar 2 type

/-- A type of more than 128 bytes has a line of its own. -/
def countLines (type : String) (n : Nat) : List (List Char) :=
  if 128 < type.utf8ByteSize then
    ["  ? ".toList ++ scalar 4 type, "  : ".toList ++ natural n]
  else ["  ".toList ++ scalar 4 type ++ ": ".toList ++ natural n]

theorem countLines_ne_nil (type : String) (n : Nat) : countLines type n ≠ [] := by
  unfold countLines
  split <;> exact List.cons_ne_nil _ _

theorem typeLine_append (h : IsOneLine s.toList) :
    '-' :: ' ' :: scalarLine 2 s = [typeLine s].flatMap (· ++ ['\n']) := by
  rw [scalarLine_of_ne (isOneLine_scalar h 2).1]
  simp [typeLine]

theorem standsAlone_of_isOneLine (h : IsOneLine s.toList) :
    standsAlone s = decide (128 < s.utf8ByteSize) := by
  have hany : s.toList.any isBreak = false := List.any_eq_false.2 fun c hc => by simp [h c hc]
  rw [standsAlone, hany, Bool.or_false]
  rfl

theorem count_eq_countLines (h : IsOneLine s.toList) (n : Nat) :
    count s n = (countLines s n).flatMap (· ++ ['\n']) := by
  have halone := standsAlone_of_isOneLine h
  unfold countLines
  split
  · next hlong =>
    rw [count_of_standsAlone (by simpa [hlong] using halone),
      scalarLine_of_ne (isOneLine_scalar h 4).1]
    simp
  · next hlong =>
    have hnot : standsAlone s = false := by simpa [hlong] using halone
    simp [count, hnot]

theorem isOneLine_typeLine (h : IsOneLine s.toList) : IsOneLine (typeLine s) :=
  isOneLine_cons.2 ⟨rfl, isOneLine_cons.2 ⟨rfl, (isOneLine_scalar h 2).2⟩⟩

theorem isOneLine_of_mem_countLines (h : IsOneLine s.toList) (n : Nat) :
    ∀ l ∈ countLines s n, IsOneLine l := by
  have hscalar := (isOneLine_scalar h 4).2
  have hnum := isOneLine_natural n
  unfold countLines
  split
  · simp only [List.forall_mem_cons, isOneLine_append]
    exact ⟨⟨by decide, hscalar⟩, ⟨by decide, hnum⟩, List.forall_mem_nil _⟩
  · simp only [List.forall_mem_cons, isOneLine_append]
    exact ⟨⟨⟨⟨by decide, hscalar⟩, by decide⟩, hnum⟩, List.forall_mem_nil _⟩

end Sections

end Yaml

namespace Report

open Yaml

/-- The fields in front of the types. -/
def yamlHead (r : Report) (path : String) : List Char :=
  naturalField "version" r.version ++
  field "generated_at" (scalarLine 2 r.generatedAt) ++
  "input:\n".toList ++
  field "  path" (scalarLine 4 path) ++
  field "  strict" (bool r.strict ++ ['\n']) ++
  naturalField "files_scanned" r.files ++
  naturalField "lines_scanned" r.lines ++
  naturalField "matched_lines" r.matched

def yamlTypes (r : Report) : List Char :=
  entries "tokens" "[]" (r.types.map fun t => '-' :: ' ' :: scalarLine 2 t)

def yamlCounts (r : Report) : List Char :=
  entries "counts" "\x7b\x7d" (r.counts.entries.map fun e => count e.1 e.2)

def yamlWarnings (r : Report) : List Char :=
  entries "warnings" "[]" (r.warnings.map Warning.toYaml)

theorem toYaml_eq_sections (r : Report) (path : String) :
    r.toYaml path = r.yamlHead path ++ r.yamlTypes ++ r.yamlCounts ++ r.yamlWarnings := rfl

theorem getLast?_yamlHead (r : Report) (path : String) :
    (r.yamlHead path).getLast? = some '\n' := by
  have hlast (n : Nat) : naturalField "matched_lines" n =
      ("matched_lines".toList ++ ':' :: ' ' :: natural n) ++ ['\n'] := by
    simp only [naturalField, field, List.append_assoc, List.cons_append]
  rw [yamlHead, hlast, ← List.append_assoc, List.getLast?_concat]

section Tallied

variable {r : Report}

theorem IsTallied.isOneLine_of_mem_types (h : r.IsTallied) {type : String} (ht : type ∈ r.types) :
    IsOneLine type.toList :=
  isOneLine_of_isField (h.isField_of_mem_types ht)

theorem IsTallied.splitOnP_yamlTypes (h : r.IsTallied) :
    r.yamlTypes.splitOnP isBreak = sectionLines "tokens" "[]" (r.types.map typeLine) ++ [[]] := by
  have hone {type : String} (ht : type ∈ r.types) := h.isOneLine_of_mem_types ht
  rw [List.map_eq_flatMap]
  refine splitOnP_entries (fun type ht => typeLine_append (hone ht)) (fun type ht => ?_)
    (fun _ => List.cons_ne_nil _ _) (by decide) (by decide)
  exact List.forall_mem_singleton.2 (isOneLine_typeLine (hone ht))

theorem IsTallied.splitOnP_yamlCounts (h : r.IsTallied) :
    r.yamlCounts.splitOnP isBreak =
      sectionLines "counts" "\x7b\x7d" (r.counts.entries.flatMap fun e => countLines e.1 e.2) ++
        [[]] := by
  have hone {e : String × Nat} (he : e ∈ r.counts.entries) := isOneLine_of_isField (h.isField e he)
  exact splitOnP_entries (fun e he => count_eq_countLines (hone he) e.2)
    (fun e he => isOneLine_of_mem_countLines (hone he) e.2)
    (fun e => countLines_ne_nil e.1 e.2) (by decide) (by decide)

end Tallied

/-- In the YAML of a scan every type stands on one line and every count on one, or on two behind a
type of more than 128 bytes. No type is written in a block or with a break in it. -/
theorem types_take_one_line {t : FileTree} {now : String} {input : Path} {strict : Bool}
    {r : Report} {path : String} (h : scan t now input strict = .ok (.scanned r))
    (hp : r.path.text? = some path) (counts : Bool) :
    r.render .yaml counts = .ok (String.ofList
      (r.yamlHead path ++ r.yamlTypes ++ r.yamlCounts ++ r.yamlWarnings)) ∧
    (r.yamlHead path).getLast? = some '\n' ∧
    r.yamlTypes.splitOnP isBreak =
      sectionLines "tokens" "[]" (r.types.map fun type => "- ".toList ++ scalar 2 type) ++ [[]] ∧
    r.yamlCounts.splitOnP isBreak =
      sectionLines "counts" "\x7b\x7d" (r.counts.entries.flatMap fun e =>
        if 128 < e.1.utf8ByteSize then
          ["  ? ".toList ++ scalar 4 e.1, "  : ".toList ++ natural e.2]
        else ["  ".toList ++ scalar 4 e.1 ++ ": ".toList ++ natural e.2]) ++ [[]] ∧
    r.types = r.counts.keys ∧
    ∀ type ∈ r.types, Style.of type.toList ≠ .literal ∧
      ∀ indent, ∀ c ∈ scalar indent type, isBreak c = false := by
  have hr := isTallied_of_scan h
  refine ⟨?_, r.getLast?_yamlHead path, hr.splitOnP_yamlTypes, hr.splitOnP_yamlCounts, hr.types,
    fun type ht => ?_⟩
  · rw [render_yaml_of_text? hp, toYaml_eq_sections]
  · have hone := hr.isOneLine_of_mem_types ht
    exact ⟨of_ne_literal fun hmem => absurd (hone _ hmem) (by decide),
      fun indent => (isOneLine_scalar hone indent).2⟩

/-- A type for each style. -/
def shortTypes : String :=
  "[Br Condition] Instruction: a b |-\n[Br Condition] Instruction: a b \x01\x27\n" ++
    "[Br Condition] Instruction: a b br\n[Br Condition] Instruction: a b "

/-- With a long type behind. -/
def styledLog : String := shortTypes ++ String.ofList (List.replicate 129 'x')

theorem types_take_one_line_styledLog :
    ∃ r, scan (single (.file styledLog.toByteArray)) "" (.ofString "a") true = .ok (.scanned r) ∧
      r.path.text? = some "a" ∧
      r.yamlTypes.splitOnP isBreak =
        ["tokens:".toList, "- \"\\x01\x27\"".toList, "- br".toList,
          "- ".toList ++ List.replicate 129 'x', "- \x27|-\x27".toList, []] ∧
      r.yamlCounts.splitOnP isBreak =
        ["counts:".toList, "  \"\\x01\x27\": 1".toList, "  br: 1".toList,
          "  ? ".toList ++ List.replicate 129 'x', "  : 1".toList, "  \x27|-\x27: 1".toList, []] := by
  have hlog : styledLog.toList = shortTypes.toList ++ List.replicate 129 'x' := by
    rw [styledLog, String.toList_append, String.toList_ofList]
  have hlines : ∀ line ∈ Text.lines styledLog.toList, ¬IsShort line := by
    rw [hlog]
    decide +kernel
  obtain ⟨r, hscan, hpath, hcounts⟩ := scan_single hlines
  have hentries : r.counts.entries =
      [("\x01\x27", 1), ("br", 1), (String.ofList (List.replicate 129 'x'), 1), ("|-", 1)] := by
    rw [hcounts, hlog]
    decide +kernel
  have hp : r.path.text? = some "a" := by
    rw [hpath]
    exact Text.decode?_encode "a"
  obtain ⟨-, -, hsplit, hsplit', htypes, -⟩ := types_take_one_line hscan hp true
  refine ⟨r, hscan, hp, ?_, ?_⟩
  · rw [hsplit, htypes, Table.keys, hentries]
    decide +kernel
  · rw [hsplit', hentries]
    decide +kernel

end Report

end BranchLog
