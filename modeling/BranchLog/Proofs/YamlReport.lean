import BranchLog.Proofs.YamlScalars
import BranchLog.Report.Render
import Mathlib

/-!
# Reports told apart by their YAML

Each field shows where it ends, whatever its text. A report is therefore found again, field by
field, in what is rendered of it.
-/
namespace BranchLog

namespace Yaml

section Fields

variable {α : Type} {T : List Char → Prop} {v : α → List Char}

theorem natural_injective : natural.Injective := toDigits_injective

theorem notMem_natural {c : Char} (hc : c.isDigit = false) (n : Nat) : c ∉ natural n :=
  notMem_toDigits hc n

theorem bool_injective : bool.Injective := by
  intro a b h
  cases a <;> cases b <;> first | rfl | exact absurd h (by decide)

theorem newline_notMem_bool (b : Bool) : '\n' ∉ bool b := by
  cases b <;> decide

theorem name_injective : Function.Injective fun k : WarningKind => k.name.toList := by
  intro a b h
  cases a <;> cases b <;> first | rfl | exact absurd h (by decide)

theorem newline_notMem_name (k : WarningKind) : '\n' ∉ k.name.toList := by
  cases k <;> decide

theorem delimited_field (hv : Delimited T v) (key : String) :
    Delimited T fun a => field key (v a) := by
  have hkey := hv.prefixed (key.toList ++ [':', ' '])
  simp only [List.append_assoc] at hkey
  exact hkey

theorem delimited_naturalLine : Delimited (fun _ => True) fun n => natural n ++ ['\n'] :=
  .ended natural_injective (notMem_natural rfl)

theorem delimited_naturalField (key : String) : Delimited (fun _ => True) (naturalField key) :=
  delimited_field delimited_naturalLine key

theorem entries_cons (key emptySign : String) (a : α) (as : List α) :
    entries key emptySign ((a :: as).map v) =
      (key.toList ++ [':', '\n']) ++ (a :: as).flatMap v := by
  simp [entries, List.flatMap_def]

theorem entries_nil_ne (key emptySign : String) (a : α) (as : List α) (x y : List Char) :
    entries key emptySign [] ++ x ≠ entries key emptySign ((a :: as).map v) ++ y := by
  intro h
  simp only [entries_cons, List.append_assoc] at h
  simp only [entries, field, List.isEmpty_nil, if_true, List.append_assoc] at h
  exact absurd (List.append_cancel_left h) (by simp)

/-- An entry behind the first begins otherwise than what follows the entries. -/
theorem delimited_entries {o : Option Char} (hv : Delimited T v) (hitem : ∀ a x, T (v a ++ x))
    (hend : ∀ x : List Char, x.head? = o → T x) (hne : ∀ a x, (v a ++ x).head? ≠ o)
    (key emptySign : String) :
    Delimited (fun x => x.head? = o) fun as : List α => entries key emptySign (as.map v) := by
  intro as bs x y hx hy h
  cases as with
  | nil =>
    cases bs with
    | nil => exact ⟨rfl, List.append_cancel_left h⟩
    | cons b bs => exact absurd h (entries_nil_ne key emptySign b bs x y)
  | cons a as =>
    cases bs with
    | nil => exact absurd h.symm (entries_nil_ne key emptySign a as y x)
    | cons b bs =>
      simp only [entries_cons] at h
      exact (hv.flatMap hitem hend hne).prefixed _ hx hy h

end Fields

section Counts

variable {m n : Nat} {x y cs ds : List Char}

theorem newline_notMem_entry (hcs : '\n' ∉ cs) (n : Nat) :
    '\n' ∉ cs ++ ':' :: ' ' :: natural n := by
  simp [hcs, notMem_natural]

/-- The last blank of the line stands in front of the number, whatever the key holds. -/
theorem entry_inj (h : cs ++ ':' :: ' ' :: natural m = ds ++ ':' :: ' ' :: natural n) :
    cs = ds ∧ m = n := by
  rw [List.append_cons cs, List.append_cons ds] at h
  obtain ⟨hkey, hmn⟩ := eq_of_append_toDigits_eq (by decide) h
  exact ⟨List.append_cancel_right hkey, hmn⟩

theorem delimited_blockKey :
    Delimited (fun _ => True) fun e : String × Nat =>
      "  ? ".toList ++ (scalarLine 4 e.1 ++ ("  : ".toList ++ (natural e.2 ++ ['\n']))) := by
  have hnum := delimited_naturalLine.prefixed "  : ".toList
  refine ((delimited_scalarLine 4).append hnum ?_).prefixed _
  rintro n x -
  exact .inr ⟨2, ':', _, by decide, rfl, rfl, rfl⟩

theorem lineKey_inj {s t : String} (hs : Style.of s.toList ≠ .literal)
    (h : scalar 4 s ++ ':' :: ' ' :: natural m ++ '\n' :: x =
      scalar 4 t ++ ':' :: ' ' :: natural n ++ '\n' :: y) : s = t ∧ m = n ∧ x = y := by
  have hstyle : Style.of s.toList = Style.of t.toList := by
    simp only [scalar, List.append_assoc] at h
    exact style_eq h
  rw [← String.toList_inj]
  rw [scalar, scalar, ← hstyle] at h
  have hquoted (hst : Style.of s.toList = .single ∨ Style.of s.toList = .double) :
      s.toList = t.toList ∧ m = n ∧ x = y := by
    simp only [List.append_assoc, List.cons_append] at h
    obtain ⟨heq, hrest⟩ := quoted_append_inj hst (by decide) h
    have hnum : (natural m ++ ['\n']) ++ x = (natural n ++ ['\n']) ++ y := by simpa using hrest
    exact ⟨heq, delimited_naturalLine trivial trivial hnum⟩
  cases hst : Style.of s.toList with
  | literal => exact absurd hst hs
  | plain =>
    rw [hst] at h
    obtain ⟨heq, hxy⟩ := eq_of_append_cons_eq (newline_notMem_entry (of_plain hst).1 m)
      (newline_notMem_entry (of_plain (hstyle ▸ hst)).1 n) h
    obtain ⟨hkey, hmn⟩ := entry_inj heq
    exact ⟨hkey, hmn, hxy⟩
  | single => exact hquoted (.inl hst)
  | double => exact hquoted (.inr hst)

theorem count_of_standsAlone {s : String} (h : standsAlone s = true) (n : Nat) :
    count s n =
      "  ? ".toList ++ (scalarLine 4 s ++ ("  : ".toList ++ (natural n ++ ['\n']))) := by
  simp only [count, h, if_true, List.append_assoc]

theorem count_append_of_not {s : String} (h : standsAlone s = false) (n : Nat) (x : List Char) :
    count s n ++ x = "  ".toList ++ (scalar 4 s ++ ':' :: ' ' :: natural n ++ '\n' :: x) := by
  simp [count, h]

/-- A question mark in front of a blank opens a token, so no key on a line begins so. -/
theorem question_ne_scalar (s : String) (x y : List Char) :
    '?' :: ' ' :: x ≠ scalar 4 s ++ ':' :: y := by
  intro h
  obtain ⟨c, r, hw, hc⟩ := begunBy_write 4 s.toList
  rw [scalar, hw] at h
  obtain ⟨rfl, ht⟩ := List.cons.inj h
  have hplain : Style.of s.toList = .plain := hc.symm
  rw [hplain] at hw
  have hopens : opensToken ('?' :: r) = false := hw ▸ (of_plain hplain).2
  cases r with
  | nil => cases hopens
  | cons d r =>
    obtain ⟨rfl, -⟩ := List.cons.inj ht
    cases hopens

theorem count_ne {s t : String} (hs : standsAlone s = true) (ht : standsAlone t = false)
    (m n : Nat) (x y : List Char) : count s m ++ x ≠ count t n ++ y := by
  intro h
  rw [count_of_standsAlone hs, count_append_of_not ht] at h
  simp only [List.append_assoc, List.cons_append] at h
  have hcut : "  ".toList ++ '?' :: ' ' :: _ = "  ".toList ++ _ := h
  exact absurd (List.append_cancel_left hcut) (question_ne_scalar t _ _)

theorem style_ne_literal {s : String} (h : standsAlone s = false) :
    Style.of s.toList ≠ .literal := by
  have hbreak : '\n' ∉ s.toList := by
    intro hmem
    have hany : s.toList.any isBreak = true := List.any_eq_true.2 ⟨_, hmem, rfl⟩
    rw [standsAlone, hany, Bool.or_true] at h
    cases h
  exact of_ne_literal hbreak

theorem delimited_count : Delimited (fun _ => True) fun e : String × Nat => count e.1 e.2 := by
  rintro ⟨s, m⟩ ⟨t, n⟩ x y - - h
  cases hs : standsAlone s <;> cases ht : standsAlone t
  · simp only [count_append_of_not hs, count_append_of_not ht] at h
    obtain ⟨rfl, rfl, rfl⟩ := lineKey_inj (style_ne_literal hs) (List.append_cancel_left h)
    exact ⟨rfl, rfl⟩
  · exact absurd h.symm (count_ne ht hs n m y x)
  · exact absurd h (count_ne hs ht m n x y)
  · simp only [count_of_standsAlone hs, count_of_standsAlone ht] at h
    exact delimited_blockKey trivial trivial h

end Counts

theorem delimited_kind :
    Delimited (fun _ => True) fun k : WarningKind => field "- kind" (k.name.toList ++ ['\n']) :=
  delimited_field (.ended name_injective newline_notMem_name) "- kind"

theorem delimited_warning : Delimited (IsOutside 4) Warning.toYaml := by
  rintro ⟨k, s⟩ ⟨l, t⟩ x y hx hy h
  simp only [Warning.toYaml, List.append_assoc] at h
  obtain ⟨rfl, ht⟩ := delimited_kind trivial trivial h
  obtain ⟨rfl, rfl⟩ := delimited_field (delimited_scalarLine 4) _ hx hy ht
  exact ⟨rfl, rfl⟩

theorem delimited_types :
    Delimited (fun x => x.head? = some 'c') fun types : List String =>
      entries "tokens" "[]" (types.map fun t => '-' :: ' ' :: scalarLine 2 t) := by
  refine delimited_entries ((delimited_scalarLine 2).prefixed ['-', ' ']) ?_ ?_ ?_ "tokens" "[]"
  · intro t x
    exact isOutside_of_head? (c := '-') (by decide) (by decide) (by decide) rfl
  · intro x hx
    exact isOutside_of_head? (by decide) (by decide) (by decide) hx
  · intro t x h
    cases h

theorem delimited_counts :
    Delimited (fun x => x.head? = some 'w') fun es : List (String × Nat) =>
      entries "counts" "\x7b\x7d" (es.map fun e => count e.1 e.2) := by
  refine delimited_entries delimited_count (fun _ _ => trivial) (fun _ _ => trivial) ?_ _ _
  intro e x h
  unfold count at h
  split at h <;> cases h

theorem delimited_warnings :
    Delimited (fun x => x.head? = none) fun ws : List Warning =>
      entries "warnings" "[]" (ws.map Warning.toYaml) := by
  refine delimited_entries delimited_warning ?_ ?_ ?_ _ _
  · intro w x
    exact isOutside_of_head? (c := '-') (by decide) (by decide) (by decide) rfl
  · intro x hx
    exact .inl (List.head?_eq_none_iff.1 hx)
  · intro w x h
    cases h

theorem delimited_strict :
    Delimited (fun _ => True) fun b => field "  strict" (bool b ++ ['\n']) :=
  delimited_field (.ended bool_injective newline_notMem_bool) "  strict"

theorem head?_entries {key emptySign : String} {c : Char} (h : key.toList.head? = some c)
    (items : List (List Char)) (x : List Char) :
    (entries key emptySign items ++ x).head? = some c := by
  obtain ⟨r, hr⟩ := List.head?_eq_some_iff.1 h
  unfold entries field
  split <;> rw [hr] <;> rfl

end Yaml

theorem Path.eq_of_text? {p q : Path} {s : String} (hp : p.text? = some s)
    (hq : q.text? = some s) : p = q := by
  have hbytes : p.bytes = q.bytes :=
    (Text.encode_of_decode? hp).symm.trans (Text.encode_of_decode? hq)
  exact congrArg Path.mk hbytes

namespace Report

open Yaml

variable {r r' : Report} {path path' : String}

theorem toYaml_inj (h : r.toYaml path = r'.toYaml path') :
    r.version = r'.version ∧ r.generatedAt = r'.generatedAt ∧ path = path' ∧
      r.strict = r'.strict ∧ r.files = r'.files ∧ r.lines = r'.lines ∧ r.matched = r'.matched ∧
      r.types = r'.types ∧ r.counts.entries = r'.counts.entries ∧ r.warnings = r'.warnings := by
  have hinput (x : List Char) : IsOutside 2 ("input:\n".toList ++ x) :=
    .inr ⟨0, 'i', _, by decide, rfl, rfl, rfl⟩
  have hstrict (b : Bool) (x : List Char) :
      IsOutside 4 (field "  strict" (bool b ++ ['\n']) ++ x) :=
    .inr ⟨2, 's', _, by decide, rfl, rfl, rfl⟩
  have hend : r.toYaml path ++ [] = r'.toYaml path' ++ [] := congrArg (· ++ []) h
  unfold toYaml at hend
  simp only [List.append_assoc] at hend
  obtain ⟨hversion, h⟩ := delimited_naturalField _ trivial trivial hend
  obtain ⟨hat, h⟩ := delimited_field (delimited_scalarLine 2) _ (hinput _) (hinput _) h
  obtain ⟨hpath, h⟩ := delimited_field (delimited_scalarLine 4) _ (hstrict _ _) (hstrict _ _)
    (List.append_cancel_left h)
  obtain ⟨hb, h⟩ := delimited_strict trivial trivial h
  obtain ⟨hfiles, h⟩ := delimited_naturalField _ trivial trivial h
  obtain ⟨hlines, h⟩ := delimited_naturalField _ trivial trivial h
  obtain ⟨hmatched, h⟩ := delimited_naturalField _ trivial trivial h
  obtain ⟨htypes, h⟩ := delimited_types (head?_entries rfl _ _) (head?_entries rfl _ _) h
  obtain ⟨hcounts, h⟩ := delimited_counts (head?_entries rfl _ _) (head?_entries rfl _ _) h
  obtain ⟨hwarnings, -⟩ := delimited_warnings rfl rfl h
  exact ⟨hversion, hat, hpath, hb, hfiles, hlines, hmatched, htypes, hcounts, hwarnings⟩

theorem render_yaml_of_text? (hp : r.path.text? = some path) (counts : Bool) :
    r.render .yaml counts = .ok (String.ofList (r.toYaml path)) := by
  rw [render, pathText, hp]
  rfl

theorem exists_of_render_yaml {counts : Bool} {text : String}
    (h : r.render .yaml counts = .ok text) :
    ∃ path, r.path.text? = some path ∧ text = String.ofList (r.toYaml path) := by
  cases hp : r.path.text? with
  | none =>
    rw [render, pathText, hp] at h
    cases h
  | some path =>
    rw [render_yaml_of_text? hp] at h
    exact ⟨path, rfl, (Except.ok.inj h).symm⟩

/-- No other report is rendered to the same YAML. -/
theorem render_yaml_determines (r : Report) (counts : Bool) (hp : r.path.text? = some path) :
    ∃ text, r.render .yaml counts = .ok text ∧
      ∀ (r' : Report) (counts' : Bool), r'.render .yaml counts' = .ok text → r' = r := by
  refine ⟨_, render_yaml_of_text? hp counts, fun r' counts' hr' => ?_⟩
  obtain ⟨path', hp', htext⟩ := exists_of_render_yaml hr'
  obtain ⟨hversion, hat, rfl, hb, hfiles, hlines, hmatched, htypes, hcounts, hwarnings⟩ :=
    toYaml_inj (String.ofList_injective htext)
  have hpath := Path.eq_of_text? hp hp'
  rcases r with ⟨_, _, _, _, _, _, _, _, ⟨_, _⟩, _⟩
  rcases r' with ⟨_, _, _, _, _, _, _, _, ⟨_, _⟩, _⟩
  simp_all

/-- Its texts look like the layout around them. -/
def layoutReport : Report where
  version := 1
  generatedAt := "1970-01-01T00:00:00Z"
  path := .ofString "a\n  strict: true\n\n"
  strict := false
  files := 2
  lines := 3
  matched := 18446744073709551615
  types := ["- a", "it\x27s: b", "\r|", " c\n"]
  counts := .ofList [("? d", 0), ("e\n  : 1", 2), ("f: 3\u2028", 4)]
  warnings := [⟨.ignoredFile, ""⟩, ⟨.malformedLine, "|\n- kind: malformed_line"⟩]

theorem render_yaml_determines_layoutReport :
    layoutReport.path.text? = some "a\n  strict: true\n\n" ∧
      ∃ text, layoutReport.render .yaml true = .ok text ∧
        ∀ (r' : Report) (counts' : Bool), r'.render .yaml counts' = .ok text →
          r' = layoutReport := by
  have hp : layoutReport.path.text? = some "a\n  strict: true\n\n" := Text.decode?_encode _
  exact ⟨hp, render_yaml_determines layoutReport true hp⟩

end Report

end BranchLog
