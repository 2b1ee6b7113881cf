import BranchLog.Proofs.LineGrammar
import BranchLog.Proofs.Strictness
import BranchLog.Proofs.WalkFailure
import Mathlib

/-!
# The listing of a scan read back

An instruction type is a field of a line and holds no blank. So nothing in it ends a line of the
listing, and the blank in front of a count is the only one of its line: `listing_reads_back` gets
the types and their counts back.
-/
namespace BranchLog

theorem HasType.isField {type : String} {line : List Char} (h : HasType type line) :
    Text.IsField type.toList := by
  have hmem := List.mem_of_getElem? h.2
  exact ⟨Text.ne_nil_of_mem_fields hmem, Text.blank_free_of_mem_fields hmem⟩

/-- What is counted was found in a line. -/
theorem Tally.Counts.exists_hasType {t : Tally} {lines : List (List Char)} (h : t.Counts lines)
    {e : String × Nat} (he : e ∈ t.counts.entries) : 0 < e.2 ∧ ∃ line ∈ lines, HasType e.1 line := by
  have hget : t.counts.get? e.1 = some e.2 := Table.get?_eq_some_iff.2 he
  rw [h.get?] at hget
  split at hget
  · cases hget
  · next hne =>
    have hpos := Nat.pos_of_ne_zero hne
    obtain ⟨line, hline, htype⟩ := List.countP_pos_iff.1 hpos
    rw [Option.some.inj hget] at hpos
    exact ⟨hpos, line, hline, of_decide_eq_true htype⟩

/-- What a scan makes sure of in its report. -/
structure Report.IsTallied (r : Report) : Prop where
  types : r.types = r.counts.keys
  isField : ∀ e ∈ r.counts.entries, Text.IsField e.1.toList
  pos : ∀ e ∈ r.counts.entries, 0 < e.2

theorem isTallied_of_scan {t : FileTree} {now : String} {input : Path} {strict : Bool} {r : Report}
    (h : scan t now input strict = .ok (.scanned r)) : r.IsTallied := by
  obtain ⟨place, files, reading, -, -, -, hread, rfl⟩ := scan_eq_scanned_iff.1 h
  obtain ⟨-, hcounts⟩ := tally_of_readFiles hread
  refine ⟨rfl, fun e he => ?_, fun e he => (hcounts.exists_hasType he).1⟩
  obtain ⟨-, line, -, htype⟩ := hcounts.exists_hasType he
  exact htype.isField

namespace Text

theorem isBlank_eq_false_of_isDigit {c : Char} (h : c.isDigit = true) : isBlank c = false := by
  obtain ⟨hlow, hhigh⟩ : 48 ≤ c.toNat ∧ c.toNat ≤ 57 := Char.isDigit_iff_toNat.1 h
  simp [isBlank, blankRanges]
  omega

theorem IsField.notMem {f : List Char} (h : IsField f) {b : Char} (hb : isBlank b = true) :
    b ∉ f := by
  intro hmem
  rw [h.2 b hmem] at hb
  cases hb

theorem IsField.filter_isBlank {f : List Char} (h : IsField f) : f.filter isBlank = [] :=
  List.filter_eq_nil_iff.2 fun c hc => by simp [h.2 c hc]

theorem isField_toDigits (n : Nat) : IsField (Nat.toDigits 10 n) := by
  refine ⟨List.ne_nil_of_length_pos Nat.length_toDigits_pos, fun c hc => ?_⟩
  exact isBlank_eq_false_of_isDigit (Nat.isDigit_of_mem_toDigits (by decide) (by decide) hc)

theorem dropReturn_of_notMem {l : List Char} (h : '\r' ∉ l) : dropReturn l = l := by
  rw [dropReturn, if_neg fun hlast => h (List.mem_of_getLast? hlast)]

/-- Lines without returns are read as they were written. -/
theorem lines_flatMap_newline {ls : List (List Char)} (h : ∀ l ∈ ls, '\n' ∉ l ∧ '\r' ∉ l) :
    lines (ls.flatMap (· ++ ['\n'])) = ls := by
  induction ls with
  | nil => rfl
  | cons l ls ih =>
    obtain ⟨hl, hls⟩ := List.forall_mem_cons.1 h
    rw [List.flatMap_cons, List.append_assoc, List.singleton_append, lines_append_newline hl.1,
      dropReturn_of_notMem hl.2, ih hls]

end Text

/-- A listed type and its count, on either side of the only space. -/
def readListed? (line : List Char) : Option (String × Nat) :=
  match line.splitOn ' ' with
  | [type, count] => some (String.ofList type, Nat.ofDigitChars 10 count 0)
  | _ => none

theorem readListed?_append {type : String} (h : Text.IsField type.toList) (n : Nat) :
    readListed? (type.toList ++ ' ' :: Nat.toDigits 10 n) = some (type, n) := by
  have hsplit : (type.toList ++ ' ' :: Nat.toDigits 10 n).splitOn ' ' =
      [type.toList, Nat.toDigits 10 n] := by
    rw [List.splitOn_append_cons_self_of_not_mem (h.notMem rfl),
      List.splitOn_eq_singleton ((Text.isField_toDigits n).notMem rfl)]
  rw [readListed?, hsplit]
  simp only [String.ofList_toList, Nat.ofDigitChars_ten_toDigits]

namespace Report

/-- The lines of a listing behind the first two. -/
def listed (r : Report) (counts : Bool) : List (List Char) :=
  r.types.map fun type => (r.listingLine counts type).toList

theorem toList_listing (r : Report) (counts : Bool) :
    (r.listing counts).toList =
      (heading.toList :: rule.toList :: r.listed counts).flatMap (· ++ ['\n']) := by
  rw [listing, String.toList_join, List.flatMap_map]
  simp [listed, List.flatMap_map]

section Tallied

variable {r : Report}

theorem IsTallied.isField_of_mem_types (h : r.IsTallied) {type : String} (ht : type ∈ r.types) :
    Text.IsField type.toList := by
  rw [h.types] at ht
  obtain ⟨e, he, rfl⟩ := List.mem_map.1 ht
  exact h.isField e he

theorem IsTallied.listed_true (h : r.IsTallied) :
    r.listed true = r.counts.entries.map fun e => e.1.toList ++ ' ' :: Nat.toDigits 10 e.2 := by
  rw [listed, h.types, Table.keys, List.map_map]
  refine List.map_congr_left fun e he => ?_
  have hget : r.counts.get? e.1 = some e.2 := Table.get?_eq_some_iff.2 he
  simp [listingLine, hget]

theorem listed_false (r : Report) : r.listed false = r.types.map String.toList := rfl

/-- The blanks of a line are those that the listing puts there. -/
theorem IsTallied.filter_isBlank (h : r.IsTallied) {counts : Bool} {line : List Char}
    (hline : line ∈ r.listed counts) :
    line.filter Text.isBlank = if counts then [' '] else [] := by
  cases counts with
  | false =>
    obtain ⟨type, ht, rfl⟩ := List.mem_map.1 hline
    exact (h.isField_of_mem_types ht).filter_isBlank
  | true =>
    rw [h.listed_true] at hline
    obtain ⟨e, he, rfl⟩ := List.mem_map.1 hline
    have hspace : Text.isBlank ' ' = true := rfl
    rw [List.filter_append, (h.isField e he).filter_isBlank, List.filter_cons_of_pos hspace,
      (Text.isField_toDigits e.2).filter_isBlank]
    rfl

theorem IsTallied.notMem_of_mem_listed (h : r.IsTallied) {counts : Bool} {line : List Char}
    (hline : line ∈ r.listed counts) {b : Char} (hb : Text.isBlank b = true) (hne : b ≠ ' ') :
    b ∉ line := by
  intro hmem
  have hfilter : b ∈ line.filter Text.isBlank := List.mem_filter.2 ⟨hmem, hb⟩
  rw [h.filter_isBlank hline] at hfilter
  cases counts <;> simp [hne] at hfilter

theorem IsTallied.lines_listing (h : r.IsTallied) (counts : Bool) :
    Text.lines (r.listing counts).toList = heading.toList :: rule.toList :: r.listed counts := by
  rw [toList_listing]
  refine Text.lines_flatMap_newline fun line hline => ?_
  rcases List.mem_cons.1 hline with rfl | hline
  · decide
  · rcases List.mem_cons.1 hline with rfl | hline
    · decide
    · exact ⟨h.notMem_of_mem_listed hline rfl (by decide),
        h.notMem_of_mem_listed hline rfl (by decide)⟩

theorem IsTallied.map_readListed? (h : r.IsTallied) :
    (r.listed true).map readListed? = r.counts.entries.map some := by
  rw [h.listed_true, List.map_map]
  exact List.map_congr_left fun e he => readListed?_append (h.isField e he) e.2

theorem IsTallied.exists_not_isBlank (h : r.IsTallied) {counts : Bool} {line : List Char}
    (hline : line ∈ r.listed counts) : ∃ c ∈ line, Text.isBlank c = false := by
  obtain ⟨type, ht, rfl⟩ := List.mem_map.1 hline
  have hfield := h.isField_of_mem_types ht
  obtain ⟨c, cs, hc⟩ := List.exists_cons_of_ne_nil hfield.1
  have hmem : c ∈ type.toList := hc ▸ List.mem_cons_self
  refine ⟨c, ?_, hfield.2 c hmem⟩
  cases counts <;> simp [listingLine, hmem]

end Tallied

end Report

theorem Table.eq_of_entries_eq {κ α : Type} [LT κ] {t u : Table κ α} (h : t.entries = u.entries) :
    t = u := by
  cases t
  cases u
  cases h
  rfl

/-- The listing of a scan has one line for each type, which is the type itself or, with counts, the
type and its count on either side of a space. So it tells the types and their counts. -/
theorem listing_reads_back {t : FileTree} {now : String} {input : Path} {strict : Bool} {r : Report}
    (h : scan t now input strict = .ok (.scanned r)) :
    (∀ counts, (Text.lines (r.listing counts).toList).take 2 =
        ["Unique instruction types found:".toList, "=================================".toList] ∧
      (Text.lines (r.listing counts).toList).flatMap (· ++ ['\n']) = (r.listing counts).toList ∧
      ∀ line ∈ (Text.lines (r.listing counts).toList).drop 2,
        line.filter Text.isBlank = (if counts then [' '] else []) ∧
          ∃ c ∈ line, Text.isBlank c = false) ∧
    ((Text.lines (r.listing true).toList).drop 2).map readListed? = r.counts.entries.map some ∧
    (Text.lines (r.listing false).toList).drop 2 = r.types.map String.toList ∧
    r.types = r.counts.keys ∧
    r.counts.entries.Pairwise (fun a b => Text.encode a.1 < Text.encode b.1) ∧
    ∀ t' now' input' strict' r', scan t' now' input' strict' = .ok (.scanned r') →
      r.listing true = r'.listing true → r.types = r'.types ∧ r.counts = r'.counts := by
  have hr := isTallied_of_scan h
  refine ⟨fun counts => ?_, ?_, ?_, hr.types, ?_, fun t' now' input' strict' r' h' heq => ?_⟩
  · rw [hr.lines_listing, Report.toList_listing]
    have hfirst : [Report.heading.toList, Report.rule.toList] =
        ["Unique instruction types found:".toList, "=================================".toList] := by
      decide +kernel
    exact ⟨hfirst, rfl, fun line hline => ⟨hr.filter_isBlank hline, hr.exists_not_isBlank hline⟩⟩
  · rw [hr.lines_listing]
    exact hr.map_readListed?
  · rw [hr.lines_listing]
    exact r.listed_false
  · exact r.counts.ascending.imp Text.encode_lt_encode.2
  · have hr' := isTallied_of_scan h'
    have hlisted : r.listed true = r'.listed true := by
      have hlines := hr.lines_listing true
      rw [heq, hr'.lines_listing] at hlines
      exact (List.tail_eq_of_cons_eq (List.tail_eq_of_cons_eq hlines)).symm
    have hentries : r.counts.entries.map some = r'.counts.entries.map some := by
      rw [← hr.map_readListed?, hlisted, hr'.map_readListed?]
    have hcounts := Table.eq_of_entries_eq
      (List.map_injective_iff.2 (Option.some_injective _) hentries)
    exact ⟨by rw [hr.types, hr'.types, hcounts], hcounts⟩

/-- A scan of a tree with one log. -/
theorem scan_single {text : String} (h : ∀ line ∈ Text.lines text.toList, ¬IsShort line) :
    ∃ r, scan (single (.file text.toByteArray)) "" (.ofString "a") true = .ok (.scanned r) ∧
      r.path = .ofString "a" ∧
      r.counts = ((Text.lines text.toList).foldl Tally.read {}).counts := by
  have hlong : (Path.ofString "a").isTooLong = false := by cbv
  have hp : (single (.file text.toByteArray)).resolve (.ofString "a") = .ok [nameA] := by cbv
  have hf : (single (.file text.toByteArray)).logFiles (.ofString "a") [nameA] =
      .ok [⟨.ofString "a", text.toByteArray⟩] := by cbv
  have hread : readFiles (.ofString "a") true [⟨.ofString "a", text.toByteArray⟩] = .ok _ :=
    (readFiles_eq_ok_iff (List.cons_ne_nil _ _)).2
      ⟨List.forall_mem_singleton.2 (LogFile.refusal?_toByteArray hlong h true), rfl⟩
  refine ⟨_, scan_eq_scanned_iff.2 ⟨_, _, _, hp, rfl, hf, hread, rfl⟩, rfl, ?_⟩
  rw [← LogFile.lines_of_text (LogFile.text_toByteArray hlong text)]
  rfl

/-- Two types that hold characters like line ends and blanks. -/
def oddLog : String :=
  "[Br Condition] Instruction: a b \u200bJUMP\x1c\r\n" ++
    "[Br Condition] Instruction: a b \x00=\u2028\n[Br Condition] Instruction: a b \x00=\n"

theorem listing_reads_back_oddLog :
    ∃ r, scan (single (.file oddLog.toByteArray)) "" (.ofString "a") true = .ok (.scanned r) ∧
      r.types = ["\x00=", "\u200bJUMP\x1c"] ∧
      ((Text.lines (r.listing true).toList).drop 2).map readListed? =
        [some ("\x00=", 2), some ("\u200bJUMP\x1c", 1)] := by
  have hlines : ∀ line ∈ Text.lines oddLog.toList, ¬IsShort line := by decide +kernel
  obtain ⟨r, hscan, -, hcounts⟩ := scan_single hlines
  have hentries : r.counts.entries = [("\x00=", 2), ("\u200bJUMP\x1c", 1)] := by
    rw [hcounts]
    decide +kernel
  obtain ⟨-, hlisted, -, htypes, -⟩ := listing_reads_back hscan
  refine ⟨r, hscan, ?_, ?_⟩
  · rw [htypes, Table.keys, hentries]
    rfl
  · rw [hlisted, hentries]
    rfl

end BranchLog
