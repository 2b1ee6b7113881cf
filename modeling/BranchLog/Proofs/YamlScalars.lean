import BranchLog.Proofs.Delimited
import BranchLog.Yaml.Scalar
import Mathlib

/-!
# Where a scalar ends

The first character of a scalar shows its style. In its style a scalar shows where it ends: a
plain one with its line, a quoted one at a quote that is neither doubled nor escaped, a block in
front of the first line that is indented less.
-/
namespace BranchLog.Yaml

/-- The end, or a line that is indented less than the lines of a block. -/
def IsOutside (indent : Nat) (x : List Char) : Prop :=
  x = [] ∨ ∃ k c r, k < indent ∧ x = spaces k ++ c :: r ∧ isSpace c = false ∧ isBreak c = false

section Lines

variable {indent : Nat} {b : Bool} {c d : Char} {u v x y cs ds : List Char}

/-- What stands in front of a character of an indented text. -/
def margin (indent : Nat) (atStart : Bool) (c : Char) : List Char :=
  if atStart && !isBreak c then spaces indent else []

theorem indentLines_cons (indent : Nat) (b : Bool) (c : Char) (r : List Char) :
    indentLines indent b (c :: r) = margin indent b c ++ c :: indentLines indent (isBreak c) r := by
  rw [indentLines, margin]
  cases isBreak c <;> simp

theorem eq_or_eq_space_of_spaces_append (h : spaces indent ++ c :: u = d :: v) :
    d = c ∨ d = ' ' := by
  cases indent with
  | zero => exact .inl (List.head_eq_of_cons_eq h).symm
  | succ n => exact .inr (List.head_eq_of_cons_eq h).symm

theorem isBreak_eq_false_of_spaces_append (hc : isBreak c = false)
    (h : spaces indent ++ c :: u = d :: v) : isBreak d = false := by
  rcases eq_or_eq_space_of_spaces_append h with rfl | rfl
  · exact hc
  · rfl

theorem margin_append_inj (h : margin indent b c ++ c :: u = margin indent b d ++ d :: v) :
    c = d ∧ u = v := by
  unfold margin at h
  cases b with
  | false => exact List.cons.inj h
  | true =>
    cases hc : isBreak c <;> cases hd : isBreak d <;> simp only [hc, hd] at h
    · exact List.cons.inj (List.append_cancel_left h)
    · exact absurd (isBreak_eq_false_of_spaces_append hc h) (by simp [hd])
    · exact absurd (isBreak_eq_false_of_spaces_append hd h.symm) (by simp [hc])
    · exact List.cons.inj h

/-- Whether `cs` ends a line; `b` says it of what stands in front of it. -/
def isEnded (b : Bool) (cs : List Char) : Bool := cs.getLast?.elim b isBreak

theorem isEnded_cons (b : Bool) (c : Char) (r : List Char) :
    isEnded b (c :: r) = isEnded (isBreak c) r := by
  rw [isEnded, isEnded, List.getLast?_cons]
  cases r.getLast? <;> rfl

theorem indentLines_append (indent : Nat) (b : Bool) (u v : List Char) :
    indentLines indent b (u ++ v) =
      indentLines indent b u ++ indentLines indent (isEnded b u) v := by
  induction u generalizing b with
  | nil => rfl
  | cons c u ih =>
    rw [List.cons_append, indentLines_cons, indentLines_cons, ih, isEnded_cons]
    simp

theorem spaces_of_lt {k n : Nat} (h : k < n) : ∃ r, spaces n = spaces k ++ ' ' :: r := by
  obtain ⟨j, rfl⟩ := Nat.exists_eq_add_of_lt h
  refine ⟨spaces j, ?_⟩
  rw [spaces, Nat.add_assoc, List.replicate_add]
  rfl

theorem isOutside_of_head? (hi : 0 < indent) (hspace : isSpace c = false)
    (hbreak : isBreak c = false) (h : x.head? = some c) : IsOutside indent x := by
  obtain ⟨r, rfl⟩ := List.head?_eq_some_iff.1 h
  exact .inr ⟨0, c, r, hi, rfl, hspace, hbreak⟩

theorem not_isOutside_margin : ¬IsOutside indent (margin indent true c ++ c :: u) := by
  rintro (h | ⟨k, d, r, hk, h, hspace, hbreak⟩)
  · exact List.append_ne_nil_of_right_ne_nil _ (List.cons_ne_nil _ _) h
  · unfold margin at h
    cases hc : isBreak c with
    | true =>
      simp only [hc] at h
      exact absurd (isBreak_eq_false_of_spaces_append hbreak h.symm) (by simp [hc])
    | false =>
      obtain ⟨z, hz⟩ := spaces_of_lt hk
      simp only [hc, Bool.not_false, Bool.and_self, if_true, hz, List.append_assoc] at h
      have hd := List.head_eq_of_cons_eq (List.append_cancel_left h)
      rw [← hd] at hspace
      exact absurd hspace (by decide)

end Lines

section Literal

variable {indent : Nat} {b : Bool} {x y cs ds : List Char}

/-- A block of ended lines goes up to the first line that stands further out. -/
theorem indentLines_append_inj (hcs : isEnded b cs = true) (hds : isEnded b ds = true)
    (hx : IsOutside indent x) (hy : IsOutside indent y)
    (h : indentLines indent b cs ++ x = indentLines indent b ds ++ y) : cs = ds ∧ x = y := by
  induction cs generalizing b ds with
  | nil =>
    cases ds with
    | nil => exact ⟨rfl, h⟩
    | cons d ds =>
      -- the second block goes on, so the first is followed by one of its lines
      obtain rfl : b = true := hcs
      rw [indentLines_cons, List.append_assoc, List.cons_append] at h
      change x = _ at h
      exact absurd (h ▸ hx) not_isOutside_margin
  | cons c cs ih =>
    cases ds with
    | nil =>
      obtain rfl : b = true := hds
      rw [indentLines_cons, List.append_assoc, List.cons_append] at h
      change _ = y at h
      exact absurd (h ▸ hy) not_isOutside_margin
    | cons d ds =>
      simp only [indentLines_cons, List.append_assoc, List.cons_append] at h
      obtain ⟨rfl, ht⟩ := margin_append_inj h
      rw [isEnded_cons] at hcs hds
      obtain ⟨rfl, rfl⟩ := ih hcs hds ht
      exact ⟨rfl, rfl⟩

/-- The lines of a block, the last of which is ended. -/
def blockLines (cs : List Char) : List Char := if isEnded false cs then cs else cs ++ ['\n']

def marks (cs : List Char) : List Char := indentationMark cs ++ endMark cs

theorem isEnded_blockLines (cs : List Char) : isEnded true (blockLines cs) = true := by
  unfold blockLines
  split
  · next h =>
    cases cs with
    | nil => rfl
    | cons c r => rwa [isEnded_cons] at h ⊢
  · rw [isEnded, List.getLast?_append]
    rfl

theorem dash_mem_endMark (cs : List Char) : '-' ∈ endMark cs ↔ isEnded false cs = false := by
  rw [isEnded, List.getLast?_eq_head?_reverse]
  unfold endMark
  split
  · next h => simp [h]
  · next c h => cases hc : isBreak c <;> simp [h, hc]
  · next c d r h => cases hc : isBreak c <;> cases hd : isBreak d <;> simp [h, hc]

theorem indentationMark_eq (cs : List Char) :
    indentationMark cs = ['2'] ∨ indentationMark cs = [] := by
  unfold indentationMark
  exact ite_eq_or_eq _ _ _

theorem endMark_eq (cs : List Char) :
    endMark cs = ['-'] ∨ endMark cs = ['+'] ∨ endMark cs = [] := by
  unfold endMark
  split <;> (repeat split) <;> simp

theorem newline_notMem_marks (cs : List Char) : '\n' ∉ marks cs := by
  unfold marks
  rcases indentationMark_eq cs with h | h <;> rcases endMark_eq cs with h' | h' | h' <;>
    simp [h, h']

theorem dash_mem_marks (cs : List Char) : '-' ∈ marks cs ↔ isEnded false cs = false := by
  have h : '-' ∉ indentationMark cs := by
    rcases indentationMark_eq cs with h | h <;> simp [h]
  rw [marks, List.mem_append, dash_mem_endMark, or_iff_right h]

theorem eq_of_blockLines_eq (hm : marks cs = marks ds) (h : blockLines cs = blockLines ds) :
    cs = ds := by
  have hended : isEnded false cs = isEnded false ds := by
    rw [Bool.eq_iff_iff, ← not_iff_not, Bool.not_eq_true, Bool.not_eq_true, ← dash_mem_marks,
      ← dash_mem_marks, hm]
  unfold blockLines at h
  rw [hended] at h
  split at h
  · exact h
  · exact List.append_cancel_right h

theorem writeLiteral_append (indent : Nat) (cs : List Char) :
    writeLiteral indent cs ++ (if isEnded false cs then [] else ['\n']) =
      '|' :: marks cs ++ '\n' :: indentLines indent true (blockLines cs) := by
  unfold writeLiteral blockLines marks
  cases isEnded false cs with
  | true => simp
  | false =>
    have hbreak : isBreak '\n' = true := rfl
    simp [indentLines_append, indentLines, hbreak]

theorem writeLiteral_inj (hx : IsOutside indent x) (hy : IsOutside indent y)
    (h : writeLiteral indent cs ++ (if isEnded false cs then [] else ['\n']) ++ x =
      writeLiteral indent ds ++ (if isEnded false ds then [] else ['\n']) ++ y) :
    cs = ds ∧ x = y := by
  rw [writeLiteral_append, writeLiteral_append] at h
  simp only [List.append_assoc, List.cons_append, List.cons.injEq, true_and] at h
  obtain ⟨hm, hb⟩ := eq_of_append_cons_eq (newline_notMem_marks cs) (newline_notMem_marks ds) h
  obtain ⟨heq, hxy⟩ :=
    indentLines_append_inj (isEnded_blockLines cs) (isEnded_blockLines ds) hx hy hb
  exact ⟨eq_of_blockLines_eq hm heq, hxy⟩

end Literal

section Single

variable {indent : Nat} {b : Bool} {c : Char} {x y cs ds : List Char}

def doubled (cs : List Char) : List Char :=
  cs.flatMap fun c => if c = '\'' then ['\'', '\''] else [c]

theorem indentLines_doubled_nil (indent : Nat) (b : Bool) :
    indentLines indent b (doubled [] ++ ['\'']) = margin indent b '\'' ++ ['\''] :=
  indentLines_cons indent b '\'' []

/-- The second quote of a pair never begins a line. -/
theorem indentLines_doubled_cons (indent : Nat) (b : Bool) (c : Char) (r : List Char) :
    indentLines indent b (doubled (c :: r) ++ ['\'']) =
      margin indent b c ++ c :: ((if c = '\'' then ['\''] else []) ++
        indentLines indent (isBreak c) (doubled r ++ ['\''])) := by
  rw [doubled, List.flatMap_cons, ← doubled]
  split
  · next h =>
    subst h
    rw [List.append_assoc, List.cons_append, indentLines_cons]
    rfl
  · exact indentLines_cons indent b c _

theorem doubled_append_inj (hx : x.head? ≠ some '\'') (hy : y.head? ≠ some '\'')
    (h : indentLines indent b (doubled cs ++ ['\'']) ++ x =
      indentLines indent b (doubled ds ++ ['\'']) ++ y) : cs = ds ∧ x = y := by
  induction cs generalizing b ds with
  | nil =>
    cases ds with
    | nil => exact ⟨rfl, List.append_cancel_left h⟩
    | cons d ds =>
      simp only [indentLines_doubled_nil, indentLines_doubled_cons, List.append_assoc,
        List.cons_append] at h
      -- the first text ends at a quote that is the first of a pair in the second
      obtain ⟨rfl, ht⟩ := margin_append_inj h
      exact absurd (congrArg List.head? ht) hx
  | cons c cs ih =>
    cases ds with
    | nil =>
      simp only [indentLines_doubled_nil, indentLines_doubled_cons, List.append_assoc,
        List.cons_append] at h
      obtain ⟨rfl, ht⟩ := margin_append_inj h
      exact absurd (congrArg List.head? ht.symm) hy
    | cons d ds =>
      simp only [indentLines_doubled_cons, List.append_assoc, List.cons_append] at h
      obtain ⟨rfl, ht⟩ := margin_append_inj h
      obtain ⟨rfl, rfl⟩ := ih (List.append_cancel_left ht)
      exact ⟨rfl, rfl⟩

theorem writeSingle_append_inj (hx : x.head? ≠ some '\'') (hy : y.head? ≠ some '\'')
    (h : writeSingle indent cs ++ x = writeSingle indent ds ++ y) : cs = ds ∧ x = y :=
  doubled_append_inj hx hy (List.tail_eq_of_cons_eq h)

end Single

section Double

variable {c : Char} {r : List Char}

/-- The character that is written first, and what follows it. -/
def unescape : List Char → Option (Char × List Char)
  | '\\' :: 'x' :: a :: b :: r => (Numeral.natural? 16 [a, b]).map fun n => (Char.ofNat n, r)
  | '\\' :: 'u' :: a :: b :: c :: d :: r =>
    (Numeral.natural? 16 [a, b, c, d]).map fun n => (Char.ofNat n, r)
  | '\\' :: name :: r => (escapeNames.find? (·.2 = name)).map (·.1, r)
  | c :: r => some (c, r)
  | [] => none

theorem digit?_hexDigit {n : Nat} (h : n < 16) : Numeral.digit? 16 (hexDigit n) = some n := by
  interval_cases n <;> decide

theorem natural?_two {n : Nat} (h : n < 0x100) :
    Numeral.natural? 16 [hexDigit (n / 0x10), hexDigit (n % 0x10)] = some n := by
  have h1 := digit?_hexDigit (n := n / 0x10) (by omega)
  have h2 := digit?_hexDigit (n := n % 0x10) (by omega)
  simp [Numeral.natural?, h1, h2]
  omega

theorem natural?_four {n : Nat} (h : n < 0x10000) :
    Numeral.natural? 16 [hexDigit (n / 0x1000), hexDigit (n / 0x100 % 0x10),
      hexDigit (n / 0x10 % 0x10), hexDigit (n % 0x10)] = some n := by
  have h1 := digit?_hexDigit (n := n / 0x1000) (by omega)
  have h2 := digit?_hexDigit (n := n / 0x100 % 0x10) (by omega)
  have h3 := digit?_hexDigit (n := n / 0x10 % 0x10) (by omega)
  have h4 := digit?_hexDigit (n := n % 0x10) (by omega)
  simp [Numeral.natural?, h1, h2, h3, h4]
  omega

theorem unescape_code (h : c.toNat < 0x10000) (r : List Char) :
    unescape ('\\' :: escapeCode c.toNat ++ r) = some (c, r) := by
  unfold escapeCode
  split
  · next hc => simp [unescape, natural?_two hc]
  · simp [unescape, natural?_four h]

theorem toNat_lt_of_not_isPrintable (h : isPrintable c = false) : c.toNat < 0x10000 := by
  by_contra hc
  have hle : '\u00a0' ≤ c := by
    rw [Char.le_def, UInt32.le_iff_toNat_le]
    change 0xa0 ≤ c.toNat
    omega
  have hnot : c ∉ ['\ufeff', '\ufffe', '\uffff'] := by
    intro hmem
    fin_cases hmem <;> exact hc (by decide)
  simp [isPrintable, hle, hnot] at h

theorem unescape_name {name : Char} (h : (c, name) ∈ escapeNames) (r : List Char) :
    unescape ('\\' :: name :: r) = some (c, r) := by
  fin_cases h <;> rfl

theorem unescape_of_ne (h : c ≠ '\\') (r : List Char) : unescape (c :: r) = some (c, r) := by
  unfold unescape
  split <;> simp_all

/-- The characters that end or begin an escape have names. -/
theorem ne_of_lookup_eq_none (h : escapeNames.lookup c = none) : c ≠ '\\' ∧ c ≠ '"' := by
  constructor <;> rintro rfl <;> exact absurd h (by decide)

theorem unescape_escape (c : Char) (r : List Char) : unescape (escape c ++ r) = some (c, r) := by
  unfold escape
  split
  · next name h =>
    obtain ⟨before, after, hl, -⟩ := List.lookup_eq_some_iff.1 h
    exact unescape_name (by simp [hl]) r
  · next h =>
    split
    · exact unescape_of_ne (ne_of_lookup_eq_none h).1 r
    · next hc => exact unescape_code (toNat_lt_of_not_isPrintable (by simpa using hc)) r

theorem delimited_escape : Delimited (fun _ => True) escape := by
  intro a b x y _ _ h
  have hread := congrArg unescape h
  rw [unescape_escape, unescape_escape] at hread
  exact Prod.mk.inj (Option.some.inj hread)

theorem head?_escape_ne (c : Char) (r : List Char) : (escape c ++ r).head? ≠ some '"' := by
  unfold escape
  split
  · simp
  · next h =>
    split
    · simpa using (ne_of_lookup_eq_none h).2
    · simp

theorem delimited_writeDouble : Delimited (fun _ => True) writeDouble := by
  intro cs ds x y _ _ h
  unfold writeDouble at h
  simp only [List.append_assoc, List.cons_append, List.cons.injEq, true_and, List.nil_append] at h
  obtain ⟨heq, ht⟩ := delimited_escape.flatMap (fun _ _ => trivial) (fun _ _ => trivial)
    head?_escape_ne rfl rfl h
  exact ⟨heq, List.tail_eq_of_cons_eq ht⟩

end Double

section Styles

variable {indent : Nat} {x y cs ds : List Char}

def Style.begunBy : Char → Style
  | '\'' => .single
  | '"' => .double
  | '|' => .literal
  | _ => .plain

theorem of_plain (h : Style.of cs = .plain) : '\n' ∉ cs ∧ opensToken cs = false := by
  unfold Style.of at h
  split at h
  · split at h <;> cases h
  · next hbreak =>
    split at h
    · next hfits => simp_all [fitsPlain]
    · split at h <;> cases h

theorem of_ne_literal (h : '\n' ∉ cs) : Style.of cs ≠ .literal := by
  unfold Style.of
  rw [if_neg h]
  repeat' split
  all_goals decide

theorem begunBy_of_plain (h : opensToken cs = false) :
    ∃ c r, cs = c :: r ∧ Style.begunBy c = .plain := by
  cases cs with
  | nil => cases h
  | cons c r =>
    refine ⟨c, r, rfl, ?_⟩
    have hc : c ∉ indicators := by
      simp only [opensToken, Bool.or_eq_false_iff, decide_eq_false_iff_not] at h
      exact h.1
    unfold Style.begunBy
    split <;> first | rfl | exact absurd (by decide) hc

theorem begunBy_write (indent : Nat) (cs : List Char) :
    ∃ c r, (Style.of cs).write indent cs = c :: r ∧ Style.begunBy c = Style.of cs := by
  cases h : Style.of cs with
  | plain => exact begunBy_of_plain (of_plain h).2
  | single => exact ⟨_, _, rfl, rfl⟩
  | double => exact ⟨_, _, rfl, rfl⟩
  | literal => exact ⟨_, _, rfl, rfl⟩

theorem style_eq
    (h : (Style.of cs).write indent cs ++ x = (Style.of ds).write indent ds ++ y) :
    Style.of cs = Style.of ds := by
  obtain ⟨c, u, hu, hc⟩ := begunBy_write indent cs
  obtain ⟨d, v, hv, hd⟩ := begunBy_write indent ds
  rw [hu, hv] at h
  rw [← hc, ← hd, List.head_eq_of_cons_eq h]

theorem isEnded_false_eq (cs : List Char) : isEnded false cs = cs.getLast?.any isBreak := by
  unfold isEnded
  cases cs.getLast? <;> rfl

theorem scalarLine_of_literal {s : String} (h : Style.of s.toList = .literal) (indent : Nat) :
    scalarLine indent s =
      writeLiteral indent s.toList ++ if isEnded false s.toList then [] else ['\n'] := by
  rw [scalarLine, scalar, endsLine, h, isEnded_false_eq]
  rfl

theorem scalarLine_of_ne {s : String} (h : Style.of s.toList ≠ .literal) (indent : Nat) :
    scalarLine indent s = scalar indent s ++ ['\n'] := by
  rw [scalarLine, endsLine, decide_eq_false h]
  rfl

/-- A quoted scalar may be followed by anything but a single quote. -/
theorem quoted_append_inj {e : Char} {style : Style} (hstyle : style = .single ∨ style = .double)
    (he : e ≠ '\'') (h : style.write indent cs ++ e :: x = style.write indent ds ++ e :: y) :
    cs = ds ∧ x = y := by
  have hhead (z : List Char) : (e :: z).head? ≠ some '\'' := by simpa using he
  rcases hstyle with rfl | rfl
  · obtain ⟨heq, ht⟩ := writeSingle_append_inj (hhead x) (hhead y) h
    exact ⟨heq, List.tail_eq_of_cons_eq ht⟩
  · obtain ⟨heq, ht⟩ := delimited_writeDouble trivial trivial h
    exact ⟨heq, List.tail_eq_of_cons_eq ht⟩

theorem delimited_scalarLine (indent : Nat) : Delimited (IsOutside indent) (scalarLine indent) := by
  intro s t x y hx hy h
  have hstyle : Style.of s.toList = Style.of t.toList := by
    simp only [scalarLine, scalar, List.append_assoc] at h
    exact style_eq h
  rw [← String.toList_inj]
  by_cases hs : Style.of s.toList = .literal
  · rw [scalarLine_of_literal hs, scalarLine_of_literal (hstyle ▸ hs)] at h
    exact writeLiteral_inj hx hy h
  · rw [scalarLine_of_ne hs, scalarLine_of_ne (hstyle ▸ hs), scalar, scalar, ← hstyle] at h
    simp only [List.append_assoc, List.singleton_append] at h
    cases hst : Style.of s.toList with
    | literal => exact absurd hst hs
    | plain =>
      rw [hst] at h
      exact eq_of_append_cons_eq (of_plain hst).1 (of_plain (hstyle ▸ hst)).1 h
    | single => exact quoted_append_inj (.inl hst) (by decide) h
    | double => exact quoted_append_inj (.inr hst) (by decide) h

end Styles

end BranchLog.Yaml
