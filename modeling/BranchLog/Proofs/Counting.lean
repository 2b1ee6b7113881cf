import BranchLog.Proofs.ByteOrder
import BranchLog.Reading
import Mathlib

/-!
# What a tally holds after some lines

Lines are sorted by what stands behind the marker: `HasType` and `IsShort` say it of the text
alone. `Tally.Records` is the invariant of filling a tally, by types alone or by lines: each type is
counted as often as it was put in. Of a tally that was filled by lines alone `Tally.Counts` says
besides that every line is a record of some type, a short record or no record.
-/
namespace BranchLog

def IsRecord (line : List Char) : Prop := marker.toList <+: line

instance : DecidablePred IsRecord := fun line =>
  inferInstanceAs (Decidable (marker.toList <+: line))

def fieldsBehind (line : List Char) : List (List Char) := Text.fields (line.drop marker.length)

/-- The third field behind the marker is the type. -/
def HasType (type : String) (line : List Char) : Prop :=
  IsRecord line ∧ (fieldsBehind line)[2]? = some type.toList

instance (type : String) : DecidablePred (HasType type) := fun _ =>
  inferInstanceAs (Decidable (_ ∧ _))

def IsShort (line : List Char) : Prop := IsRecord line ∧ (fieldsBehind line).length < 3

instance : DecidablePred IsShort := fun _ => inferInstanceAs (Decidable (_ ∧ _))

theorem recordFields?_eq (line : List Char) :
    recordFields? line = if IsRecord line then some (fieldsBehind line) else none := by
  rw [recordFields?]
  by_cases h : IsRecord line
  · have hp : marker.toList.isPrefixOf line = true := List.isPrefixOf_iff_prefix.2 h
    rw [if_pos hp, if_pos h, fieldsBehind]
  · have hp : ¬marker.toList.isPrefixOf line = true := fun hp => h (List.isPrefixOf_iff_prefix.1 hp)
    rw [if_neg hp, if_neg h]

theorem ofLine_eq_ignored_iff {line : List Char} :
    LineClass.ofLine line = .ignored ↔ ¬IsRecord line := by
  rw [LineClass.ofLine, recordFields?_eq]
  by_cases h : IsRecord line
  · rw [if_pos h]
    cases hf : (fieldsBehind line)[leastFields - 1]? <;> simp [hf, h]
  · simp [h]

theorem ofLine_eq_token_iff {line : List Char} {type : String} :
    LineClass.ofLine line = .token type ↔ HasType type line := by
  rw [LineClass.ofLine, recordFields?_eq, HasType]
  by_cases h : IsRecord line
  · rw [if_pos h]
    cases hf : (fieldsBehind line)[2]? <;> simp [leastFields, hf, h, ← String.toList_inj]
  · simp [h]

theorem ofLine_eq_short_iff {line : List Char} {found : Nat} :
    LineClass.ofLine line = .short found ↔
      IsShort line ∧ (fieldsBehind line).length = found := by
  rw [LineClass.ofLine, recordFields?_eq, IsShort]
  by_cases h : IsRecord line
  · rw [if_pos h]
    cases hf : (fieldsBehind line)[2]? with
    | none =>
      have hl := List.getElem?_eq_none_iff.1 hf
      simp only [leastFields, hf, LineClass.short.injEq, h, true_and]
      omega
    | some f =>
      obtain ⟨hl, -⟩ := List.getElem?_eq_some_iff.1 hf
      simp only [leastFields, hf, h, true_and]
      simp
      omega
  · simp [h]

theorem HasType.unique {a b : String} {line : List Char} (ha : HasType a line)
    (hb : HasType b line) : a = b := by
  have h := ha.2.symm.trans hb.2
  exact String.toList_inj.1 (Option.some.inj h)

theorem HasType.not_isShort {type : String} {line : List Char} (h : HasType type line) :
    ¬IsShort line := by
  obtain ⟨hl, -⟩ := List.getElem?_eq_some_iff.1 h.2
  intro hs
  have := hs.2
  omega

theorem countP_concat (p : List Char → Prop) [DecidablePred p] (lines : List (List Char))
    (line : List Char) :
    (lines ++ [line]).countP p = lines.countP p + if p line then 1 else 0 := by
  simp only [List.countP_append, List.countP_singleton, decide_eq_true_eq]

section Totals

variable {κ : Type}

theorem sum_entry_append (k : κ) (a : Option Nat) (es : List (κ × Nat)) :
    ((Table.entry k a ++ es).map Prod.snd).sum = a.getD 0 + (es.map Prod.snd).sum := by
  cases a <;> simp [Table.entry]

variable [LT κ] [LE κ] [Std.IsLinearOrder κ] [Std.LawfulOrderLT κ] [DecidableLT κ]
  [DecidableEq κ]

/-- A change at one key changes the sum of the values by what it does to the value there. -/
theorem sum_alterEntries (k : κ) (f : Option Nat → Option Nat) {es : List (κ × Nat)}
    (hs : es.Pairwise (fun a b => a.1 < b.1)) :
    ((Table.alterEntries k f es).map Prod.snd).sum + (es.lookup k).getD 0 =
      (es.map Prod.snd).sum + (f (es.lookup k)).getD 0 := by
  induction es with
  | nil => simpa [Table.alterEntries] using sum_entry_append k (f none) []
  | cons e r ih =>
    simp only [Table.alterEntries]
    split
    · next hlt =>
      rw [sum_entry_append, Table.lookup_eq_none_of_lt hs hlt]
      simp only [Option.getD_none]
      omega
    · split
      · next hgt =>
        have hk : (k == e.1) = false := by simpa using (Std.ne_of_lt hgt).symm
        have hl : (e :: r).lookup k = r.lookup k := by rw [List.lookup_cons, hk]
        have hi := ih (List.pairwise_cons.1 hs).2
        rw [hl, List.map_cons, List.map_cons, List.sum_cons, List.sum_cons]
        omega
      · next hlt hgt =>
        have hk : k = e.1 := Table.eq_of_not_lt hlt hgt
        rw [sum_entry_append, List.lookup_cons, hk]
        simp only [BEq.rfl, List.map_cons, List.sum_cons, Option.getD_some]
        omega

end Totals

namespace Table

def total {κ : Type} [LT κ] (t : Table κ Nat) : Nat := (t.entries.map Prod.snd).sum

end Table

/-- How often a type was put in, by itself or by a line. -/
def occurrences (types : List String) (lines : List (List Char)) (type : String) : Nat :=
  types.count type + lines.countP fun line => LineClass.ofLine line = .token type

theorem occurrences_concat (types : List String) (lines : List (List Char)) (type other : String) :
    occurrences (types ++ [type]) lines other =
      occurrences types lines other + if other = type then 1 else 0 := by
  simp only [occurrences, List.count_append, List.count_singleton, beq_iff_eq, @eq_comm _ type]
  omega

theorem occurrences_lines_concat (types : List String) (lines : List (List Char))
    (line : List Char) (other : String) :
    occurrences types (lines ++ [line]) other =
      occurrences types lines other + if LineClass.ofLine line = .token other then 1 else 0 := by
  simp only [occurrences, List.countP_append, List.countP_singleton, decide_eq_true_eq]
  omega

namespace Tally

/-- One more line, whatever it is. -/
def read (t : Tally) (line : List Char) : Tally :=
  match LineClass.ofLine line with
  | .token type => t.addLine.add type
  | _ => t.addLine

theorem total_add (t : Tally) (type : String) :
    (t.add type).counts.total = t.counts.total + 1 := by
  have h := sum_alterEntries type (fun n => some (n.getD 0 + 1)) t.counts.ascending
  simp only [Option.getD_some] at h
  simp only [add, Table.alter, Table.total]
  omega

theorem get?_add (t : Tally) (type other : String) :
    (t.add type).counts.get? other =
      if other = type then some (t.count type + 1) else t.counts.get? other := by
  rw [add, Table.get?_alter, count]

/-- The tally counts the types that were put in and the lines that were read. -/
structure Records (t : Tally) (types : List String) (lines : List (List Char)) : Prop where
  get? : ∀ type, t.counts.get? type =
    if occurrences types lines type = 0 then none else some (occurrences types lines type)
  total : t.matched = t.counts.total
  length : t.lines = lines.length

theorem records_empty : Records {} [] [] := ⟨fun _ => rfl, rfl, rfl⟩

section Steps

variable {t : Tally} {types : List String} {lines : List (List Char)}

theorem Records.count (h : t.Records types lines) (type : String) :
    t.count type = occurrences types lines type := by
  rw [Tally.count, h.get?]
  split
  · next hz => rw [hz, Option.getD_none]
  · rw [Option.getD_some]

/-- One more of a type, whatever it comes from. -/
theorem Records.get?_add (h : t.Records types lines) {type : String} {types' : List String}
    {lines' : List (List Char)} (hone : ∀ other, occurrences types' lines' other =
      occurrences types lines other + if other = type then 1 else 0) (other : String) :
    (t.add type).counts.get? other =
      if occurrences types' lines' other = 0 then none
      else some (occurrences types' lines' other) := by
  rw [Tally.get?_add, hone]
  by_cases ho : other = type
  · subst ho
    simp [h.count]
  · simp [ho, h.get? other]

theorem Records.add (h : t.Records types lines) (type : String) :
    (t.add type).Records (types ++ [type]) lines where
  get? := h.get?_add (occurrences_concat types lines type)
  total := by rw [matched_add, total_add, h.total]
  length := by rw [lines_add, h.length]

theorem Records.read (h : t.Records types lines) (line : List Char) :
    (t.read line).Records types (lines ++ [line]) := by
  have hadd := occurrences_lines_concat types lines line
  have hlength : t.addLine.lines = (lines ++ [line]).length := by
    rw [lines_addLine, h.length, List.length_append, List.length_singleton]
  rw [Tally.read]
  split
  · next type hc =>
    simp only [hc, LineClass.token.injEq, @eq_comm _ type] at hadd
    exact ⟨h.get?_add hadd, by rw [total_add, matched_add, matched_addLine, h.total]; rfl, hlength⟩
  · next hc =>
    refine ⟨fun other => ?_, h.total, hlength⟩
    have hne : LineClass.ofLine line ≠ .token other := fun h => hc other h
    rw [hadd, if_neg hne, Nat.add_zero]
    exact h.get? other

theorem Records.foldl_read (h : t.Records types lines) (more : List (List Char)) :
    (more.foldl Tally.read t).Records types (lines ++ more) := by
  induction more generalizing t lines with
  | nil => simpa using h
  | cons line rest ih =>
    have hl := ih (h.read line)
    rwa [List.append_assoc, List.singleton_append] at hl

end Steps

/-- A line that is no record of a type is short or no record at all. -/
theorem matched_read (t : Tally) (line : List Char) :
    (t.read line).matched + ((if IsShort line then 1 else 0) + if ¬IsRecord line then 1 else 0) =
      t.matched + 1 := by
  rw [Tally.read]
  cases hc : LineClass.ofLine line with
  | token type =>
    have hline := ofLine_eq_token_iff.1 hc
    rw [if_neg hline.not_isShort, if_neg (not_not.2 hline.1)]
    rfl
  | short found =>
    obtain ⟨hshort, -⟩ := ofLine_eq_short_iff.1 hc
    rw [if_pos hshort, if_neg (not_not.2 hshort.1)]
    rfl
  | ignored =>
    have hline := ofLine_eq_ignored_iff.1 hc
    rw [if_neg fun h => hline h.1, if_pos hline]
    rfl

/-- The tally is that of these lines. -/
structure Counts (t : Tally) (lines : List (List Char)) : Prop where
  get? : ∀ type, t.counts.get? type =
    if lines.countP (HasType type) = 0 then none else some (lines.countP (HasType type))
  total : t.matched = t.counts.total
  length : t.lines = lines.length
  split : lines.length =
    t.matched + lines.countP IsShort + lines.countP (fun line => ¬IsRecord line)

theorem Counts.empty : Counts {} [] := ⟨fun _ => rfl, rfl, rfl, rfl⟩

theorem occurrences_nil (lines : List (List Char)) (type : String) :
    occurrences [] lines type = lines.countP (HasType type) := by
  simp [occurrences, ofLine_eq_token_iff]

theorem Counts.records {t : Tally} {lines : List (List Char)} (h : t.Counts lines) :
    t.Records [] lines where
  get? := by simpa only [occurrences_nil] using h.get?
  total := h.total
  length := h.length

/-- Every line keeps the tally exact. -/
theorem Counts.read {t : Tally} {lines : List (List Char)} (h : t.Counts lines)
    (line : List Char) : (t.read line).Counts (lines ++ [line]) := by
  have hread := h.records.read line
  refine ⟨by simpa only [occurrences_nil] using hread.get?, hread.total, hread.length, ?_⟩
  have hmatched := t.matched_read line
  have hsplit := h.split
  rw [List.length_append, countP_concat, countP_concat, List.length_singleton]
  omega

theorem Counts.foldl_read {t : Tally} {before : List (List Char)} (h : t.Counts before)
    (lines : List (List Char)) : (lines.foldl Tally.read t).Counts (before ++ lines) := by
  induction lines generalizing t before with
  | nil => simpa using h
  | cons line rest ih =>
    have hl := ih (h.read line)
    rwa [List.append_assoc, List.singleton_append] at hl

end Tally

end BranchLog
