import BranchLog.Proofs.Counting
import BranchLog.Proofs.Delimited
import Mathlib

/-!
# The grammar of a line

What stands behind the marker is a sequence of fields with gaps between them: `Spaced` says so
without a reader, and `fields_eq_iff` that the reader finds exactly these fields. Hence a line is no
record, a `TypedRecord` in one way only, or a record with too few fields.
-/
namespace BranchLog

namespace Text

/-- A run of blanks, perhaps of none. -/
def IsGap (w : List Char) : Prop := ∀ c ∈ w, isBlank c = true

def IsField (f : List Char) : Prop := f ≠ [] ∧ ∀ c ∈ f, isBlank c = false

/-- Behind a field there is nothing or a blank. -/
def EndsField (r : List Char) : Prop := ∀ c ∈ r.head?, isBlank c = true

/-- A text of these fields: gaps around each of them, and no gap between two of them is empty. -/
inductive Spaced : List (List Char) → List Char → Prop
  | none {w : List Char} (hw : IsGap w) : Spaced [] w
  | field {w f v r : List Char} {fs : List (List Char)} (hw : IsGap w) (hf : IsField f)
      (hv : IsGap v) (hne : fs ≠ [] → v ≠ []) (hr : Spaced fs r) :
      Spaced (f :: fs) (w ++ f ++ v ++ r)

section Gaps

variable {w f r : List Char} {fs : List (List Char)}

theorem isGap_nil : IsGap [] := List.forall_mem_nil _

theorem isGap_cons {b : Char} : IsGap (b :: w) ↔ isBlank b = true ∧ IsGap w :=
  List.forall_mem_cons

theorem endsField_cons {b : Char} : EndsField (b :: r) ↔ isBlank b = true := by
  simp [EndsField]

theorem IsGap.endsField (hw : IsGap w) : EndsField w := fun _ hc => hw _ (List.mem_of_mem_head? hc)

theorem IsGap.endsField_append (hw : IsGap w) (hne : w ≠ []) (r : List Char) :
    EndsField (w ++ r) := by
  cases w with
  | nil => exact absurd rfl hne
  | cons b w => exact endsField_cons.2 (isGap_cons.1 hw).1

/-- A field does not end where it goes on, so a gap is left before the next. -/
theorem IsField.not_endsField_append (hf : IsField f) (r : List Char) : ¬EndsField (f ++ r) := by
  cases f with
  | nil => exact absurd rfl hf.1
  | cons c f =>
    intro h
    have hblank := hf.2 c List.mem_cons_self
    rw [endsField_cons.1 h] at hblank
    cases hblank

theorem fields_cons_blank {b : Char} (hb : isBlank b = true) (r : List Char) :
    fields (b :: r) = fields r :=
  fields_append_cons (List.forall_mem_nil _) hb r

theorem fields_gap_append (hw : IsGap w) (r : List Char) : fields (w ++ r) = fields r := by
  induction w with
  | nil => rfl
  | cons b w ih =>
    obtain ⟨hb, hw⟩ := isGap_cons.1 hw
    rw [List.cons_append, fields_cons_blank hb, ih hw]

theorem fields_field_append (hf : IsField f) (hr : EndsField r) :
    fields (f ++ r) = f :: fields r := by
  have hne : ¬f.isEmpty = true := by simpa using hf.1
  cases r with
  | nil => rw [List.append_nil, fields_of_blank_free hf.2, if_neg hne, fields_nil]
  | cons b r =>
    have hb := endsField_cons.1 hr
    rw [fields_append_cons hf.2 hb, if_neg hne, fields_cons_blank hb, List.singleton_append]

theorem exists_field_of_not_isGap (h : ¬IsGap r) :
    ∃ w f s, r = w ++ (f ++ s) ∧ IsGap w ∧ IsField f ∧ EndsField s := by
  induction r with
  | nil => exact absurd isGap_nil h
  | cons c r ih =>
    by_cases hc : isBlank c = true
    · obtain ⟨w, f, s, rfl, hw, hf, hs⟩ := ih fun hr => h (isGap_cons.2 ⟨hc, hr⟩)
      exact ⟨c :: w, f, s, rfl, isGap_cons.2 ⟨hc, hw⟩, hf, hs⟩
    · refine ⟨[], c :: r.takeWhile (!isBlank ·), r.dropWhile (!isBlank ·), ?_, isGap_nil,
        ⟨?_, ?_⟩, ?_⟩
      · rw [List.nil_append, List.cons_append, List.takeWhile_append_dropWhile]
      · exact List.cons_ne_nil _ _
      · refine List.forall_mem_cons.2 ⟨by simpa using hc, fun d hd => ?_⟩
        simpa using List.mem_takeWhile_imp hd
      · intro d hd
        have hstop := List.head?_dropWhile_not (!isBlank ·) r
        rw [show (r.dropWhile (!isBlank ·)).head? = some d from hd] at hstop
        simpa using hstop

theorem fields_eq_nil_iff : fields r = [] ↔ IsGap r := by
  constructor
  · intro h
    by_contra hr
    obtain ⟨w, f, s, rfl, hw, hf, hs⟩ := exists_field_of_not_isGap hr
    rw [fields_gap_append hw, fields_field_append hf hs] at h
    cases h
  · intro hr
    have h := fields_gap_append hr []
    rwa [List.append_nil] at h

/-- The first field stands behind a gap and leaves the others to the text behind it. -/
theorem fields_eq_cons_iff :
    fields r = f :: fs ↔
      ∃ w s, r = w ++ (f ++ s) ∧ IsGap w ∧ IsField f ∧ EndsField s ∧ fields s = fs := by
  constructor
  · intro h
    have hr : ¬IsGap r := fun hr => by simp [fields_eq_nil_iff.2 hr] at h
    obtain ⟨w, g, s, rfl, hw, hg, hs⟩ := exists_field_of_not_isGap hr
    rw [fields_gap_append hw, fields_field_append hg hs] at h
    obtain ⟨rfl, rfl⟩ := List.cons.inj h
    exact ⟨w, s, rfl, hw, hg, hs, rfl⟩
  · rintro ⟨w, s, rfl, hw, hf, hs, rfl⟩
    rw [fields_gap_append hw, fields_field_append hf hs]

theorem spaced_of_fields_eq (h : fields r = fs) : Spaced fs r := by
  induction fs generalizing r with
  | nil => exact .none (fields_eq_nil_iff.1 h)
  | cons f fs ih =>
    obtain ⟨w, s, rfl, hw, hf, hs, rfl⟩ := fields_eq_cons_iff.1 h
    cases s with
    | nil =>
      have hnone := Spaced.field hw hf isGap_nil (fun hne => absurd rfl hne) (.none isGap_nil)
      simpa using hnone
    | cons b s =>
      have hb := endsField_cons.1 hs
      have hgap : IsGap [b] := isGap_cons.2 ⟨hb, isGap_nil⟩
      have hmore := Spaced.field hw hf hgap (fun _ => List.cons_ne_nil _ _)
        (ih (fields_cons_blank hb s).symm)
      simpa using hmore

theorem Spaced.fields_eq (h : Spaced fs r) : fields r = fs := by
  induction h with
  | none hw => exact fields_eq_nil_iff.2 hw
  | @field w f v r fs hw hf hv hne hr ih =>
    have hends : EndsField (v ++ r) := by
      by_cases hv0 : v = []
      · subst hv0
        -- Without a gap behind it the field is the last, and nothing but blanks is left.
        have hfs : fs = [] := by_contra fun hfs => hne hfs rfl
        exact (fields_eq_nil_iff.1 (ih.trans hfs)).endsField
      · exact hv.endsField_append hv0 r
    rw [List.append_assoc, List.append_assoc, fields_gap_append hw, fields_field_append hf hends,
      fields_gap_append hv, ih]

/-- The fields of a text are those it is made of. -/
theorem fields_eq_iff : fields r = fs ↔ Spaced fs r := ⟨spaced_of_fields_eq, Spaced.fields_eq⟩

/-- A gap and a field are told from what follows. -/
theorem gap_field_inj {w' f' s s' : List Char} (hw : IsGap w) (hf : IsField f) (hs : EndsField s)
    (hw' : IsGap w') (hf' : IsField f') (hs' : EndsField s')
    (h : w ++ (f ++ s) = w' ++ (f' ++ s')) : w = w' ∧ f = f' ∧ s = s' := by
  have hgap {w f : List Char} (hw : IsGap w) (hf : IsField f) (s : List Char) :
      (w ++ (f ++ s)).takeWhile isBlank = w ∧ (w ++ (f ++ s)).dropWhile isBlank = f ++ s := by
    refine takeWhile_append_stop hw fun c hc => ?_
    rw [List.head?_append_of_ne_nil _ hf.1] at hc
    exact hf.2 c (List.mem_of_mem_head? hc)
  have hfield {f s : List Char} (hf : IsField f) (hs : EndsField s) :
      (f ++ s).takeWhile (!isBlank ·) = f ∧ (f ++ s).dropWhile (!isBlank ·) = s :=
    takeWhile_append_stop (fun c hc => by simp [hf.2 c hc]) fun c hc => by simp [hs c hc]
  obtain ⟨htake, hdrop⟩ := hgap hw hf s
  obtain ⟨htake', hdrop'⟩ := hgap hw' hf' s'
  rw [h] at htake hdrop
  have hrest : f ++ s = f' ++ s' := hdrop.symm.trans hdrop'
  obtain ⟨hfst, hsnd⟩ := hfield hf hs
  obtain ⟨hfst', hsnd'⟩ := hfield hf' hs'
  rw [hrest] at hfst hsnd
  exact ⟨htake.symm.trans htake', hfst.symm.trans hfst', hsnd.symm.trans hsnd'⟩

end Gaps

end Text

open Text

theorem fieldsBehind_marker_append (r : List Char) :
    fieldsBehind (marker.toList ++ r) = fields r := by
  have hrecord : IsRecord (marker.toList ++ r) := List.prefix_append _ _
  have hfields := recordFields?_marker_append r
  rw [recordFields?_eq, if_pos hrecord] at hfields
  exact Option.some.inj hfields

theorem exists_of_getElem?_two {α : Type} {as : List α} {c : α} (h : as[2]? = some c) :
    ∃ a b more, as = a :: b :: c :: more := by
  match as with
  | [] | [_] | [_, _] => simp at h
  | a :: b :: d :: more =>
    cases h
    exact ⟨a, b, more, rfl⟩

/-- The parts of a record that names its type. -/
@[ext]
structure TypedRecord where
  before : List Char
  first : List Char
  between : List Char
  second : List Char
  gap : List Char
  type : List Char
  rest : List Char
  isGap_before : IsGap before
  isField_first : IsField first
  isGap_between : IsGap between
  between_ne_nil : between ≠ []
  isField_second : IsField second
  isGap_gap : IsGap gap
  gap_ne_nil : gap ≠ []
  isField_type : IsField type
  endsField_rest : EndsField rest

namespace TypedRecord

def line (x : TypedRecord) : List Char :=
  marker.toList ++ (x.before ++ (x.first ++ (x.between ++ (x.second ++ (x.gap ++
    (x.type ++ x.rest))))))

theorem line_injective : line.Injective := by
  intro x y h
  have hbehind := List.append_cancel_left h
  have hends₁ (x : TypedRecord) := x.isGap_between.endsField_append x.between_ne_nil
  have hends₂ (x : TypedRecord) := x.isGap_gap.endsField_append x.gap_ne_nil
  obtain ⟨hbefore, hfirst, h₁⟩ := gap_field_inj x.isGap_before x.isField_first (hends₁ x _)
    y.isGap_before y.isField_first (hends₁ y _) hbehind
  obtain ⟨hbetween, hsecond, h₂⟩ := gap_field_inj x.isGap_between x.isField_second (hends₂ x _)
    y.isGap_between y.isField_second (hends₂ y _) h₁
  obtain ⟨hgap, htype, hrest⟩ := gap_field_inj x.isGap_gap x.isField_type x.endsField_rest
    y.isGap_gap y.isField_type y.endsField_rest h₂
  exact TypedRecord.ext hbefore hfirst hbetween hsecond hgap htype hrest

theorem isRecord_line (x : TypedRecord) : IsRecord x.line := List.prefix_append _ _

theorem fieldsBehind_line (x : TypedRecord) :
    fieldsBehind x.line = x.first :: x.second :: x.type :: fields x.rest := by
  have hbetween := x.isGap_between.endsField_append x.between_ne_nil
  have hgap := x.isGap_gap.endsField_append x.gap_ne_nil
  rw [line, fieldsBehind_marker_append, fields_gap_append x.isGap_before,
    fields_field_append x.isField_first (hbetween _), fields_gap_append x.isGap_between,
    fields_field_append x.isField_second (hgap _), fields_gap_append x.isGap_gap,
    fields_field_append x.isField_type x.endsField_rest]

theorem hasType_iff {line : List Char} {type : String} :
    HasType type line ↔ ∃ x : TypedRecord, x.line = line ∧ x.type = type.toList := by
  constructor
  · rintro ⟨⟨r, rfl⟩, hthird⟩
    rw [fieldsBehind_marker_append] at hthird
    obtain ⟨first, second, more, hfields⟩ := exists_of_getElem?_two hthird
    obtain ⟨before, r, rfl, hbefore, hfirst, hends₁, hfields⟩ := fields_eq_cons_iff.1 hfields
    obtain ⟨between, r, rfl, hbetween, hsecond, hends₂, hfields⟩ := fields_eq_cons_iff.1 hfields
    obtain ⟨gap, rest, rfl, hgap, htype, hrest, -⟩ := fields_eq_cons_iff.1 hfields
    have hne₁ : between ≠ [] := by
      rintro rfl
      exact hsecond.not_endsField_append _ hends₁
    have hne₂ : gap ≠ [] := by
      rintro rfl
      exact htype.not_endsField_append _ hends₂
    exact ⟨⟨before, first, between, second, gap, type.toList, rest, hbefore, hfirst, hbetween, hne₁,
      hsecond, hgap, hne₂, htype, hrest⟩, rfl, rfl⟩
  · rintro ⟨x, rfl, hx⟩
    refine ⟨x.isRecord_line, ?_⟩
    rw [fieldsBehind_line, ← hx]
    rfl

end TypedRecord

/-- A record with `n` fields, which are too few. -/
def FallsShort (n : Nat) (line : List Char) : Prop :=
  n ≤ 2 ∧ ∃ fs r, line = marker.toList ++ r ∧ fs.length = n ∧ Spaced fs r

theorem fallsShort_iff {n : Nat} {line : List Char} :
    FallsShort n line ↔ IsShort line ∧ (fieldsBehind line).length = n := by
  constructor
  · rintro ⟨hn, fs, r, rfl, rfl, hfs⟩
    rw [IsShort, fieldsBehind_marker_append, hfs.fields_eq]
    exact ⟨⟨List.prefix_append _ _, Nat.lt_succ_of_le hn⟩, rfl⟩
  · rintro ⟨⟨⟨r, rfl⟩, hlt⟩, hn⟩
    rw [fieldsBehind_marker_append] at hlt hn
    exact ⟨by omega, _, r, rfl, hn, fields_eq_iff.1 rfl⟩

/-- Every line is of exactly one of three kinds, and reading tells which: no record, a record that
names its type, which it does in one way only, or a record with fewer than three fields. -/
theorem ofLine_grammar (line : List Char) :
    (LineClass.ofLine line = .ignored ↔ ¬marker.toList <+: line) ∧
    (∀ type, LineClass.ofLine line = .token type ↔
      ∃ x : TypedRecord, x.line = line ∧ x.type = type.toList) ∧
    (∀ n, LineClass.ofLine line = .short n ↔ FallsShort n line) ∧
    (¬marker.toList <+: line ∨ (∃ x : TypedRecord, x.line = line) ∨ ∃ n, FallsShort n line) ∧
    (∀ x : TypedRecord, x.line = line → marker.toList <+: line ∧ (∀ n, ¬FallsShort n line) ∧
      ∀ y : TypedRecord, y.line = line → y = x) ∧
    ∀ n, FallsShort n line → marker.toList <+: line ∧ ∀ m, FallsShort m line → m = n := by
  have htoken (type : String) : LineClass.ofLine line = .token type ↔
      ∃ x : TypedRecord, x.line = line ∧ x.type = type.toList :=
    ofLine_eq_token_iff.trans TypedRecord.hasType_iff
  have hshort (n : Nat) : LineClass.ofLine line = .short n ↔ FallsShort n line :=
    ofLine_eq_short_iff.trans fallsShort_iff.symm
  refine ⟨ofLine_eq_ignored_iff, htoken, hshort, ?_, ?_, ?_⟩
  · cases hc : LineClass.ofLine line with
    | ignored => exact .inl (ofLine_eq_ignored_iff.1 hc)
    | token type =>
      obtain ⟨x, hx, -⟩ := (htoken type).1 hc
      exact .inr (.inl ⟨x, hx⟩)
    | short n => exact .inr (.inr ⟨n, (hshort n).1 hc⟩)
  · intro x hx
    have hc := (htoken (String.ofList x.type)).2 ⟨x, hx, String.toList_ofList.symm⟩
    refine ⟨hx ▸ x.isRecord_line, fun n hn => ?_, fun y hy => ?_⟩
    · rw [(hshort n).2 hn] at hc
      cases hc
    · exact TypedRecord.line_injective (hy.trans hx.symm)
  · intro n hn
    have hc := (hshort n).2 hn
    refine ⟨(fallsShort_iff.1 hn).1.1, fun m hm => ?_⟩
    rw [(hshort m).2 hm] at hc
    cases hc
    rfl

example :
    LineClass.ofLine "[Br Condition] Instruction:a\u0085b\u2028 c\u3000d".toList = .token "c" := by
  decide +kernel

end BranchLog
