import BranchLog.Proofs.CoreSchema
import BranchLog.Proofs.YamlReport
import Mathlib

/-!
# Numbers that are left plain

A reader goes by patterns and the writer by values: a number for which it has none is text to it
and is left plain. `plain_iff_isOutOfRange` says that these numbers are all that a reader by patterns
takes for something other than text.
-/
namespace BranchLog.Yaml

open Numeral Numeral.Decimal Pattern

/-- The letters that announce a base. -/
def letters : List (Char × Nat) := [('o', 8), ('x', 16)]

/-- A number for which the writer has no value. A decimal integer that begins with a zero it quotes
whatever its value. -/
inductive IsOutOfRange : List Char → Prop
  | lettered {letter : Char} {base : Nat} {ds : List Char} {n : Nat}
    (hletter : (letter, base) ∈ letters) (hn : natural? base ds = some n)
    (hlarge : 2 ^ 128 ≤ n) : IsOutOfRange ('0' :: letter :: ds)
  | decimal {sg body : List Char} {d : Decimal} (hs : sign.Matches sg)
    (hd : ofChars? body = some d) (hlarge : ¬d.FitsDouble)
    (hpadded : ∀ ds, body = '0' :: ds → ¬digits.Matches ds) : IsOutOfRange (sg ++ body)

section Values

variable {cs body ds : List Char} {letter : Char} {base n : Nat} {d : Decimal}

theorem readsAsText_eq_true_iff : readsAsText cs = true ↔
    isNull cs = false ∧ isBool cs = false ∧ isInteger cs = false ∧ isPadded cs = false ∧
      isNotANumber cs = false ∧ isInfinite cs = false ∧ isFinite cs = false := by
  simp [readsAsText, and_assoc]

theorem wordSize_eq (bits : Nat) : wordSize bits = 2 ^ bits := rfl

theorem isInteger_lettered (h : (letter, base) ∈ letters) (ds : List Char) :
    isInteger ('0' :: letter :: ds) = (natural? base ds).any fun n => n < 2 ^ 128 := by
  have hunsigned : unsigned? ('0' :: letter :: ds) = natural? base ds := by
    fin_cases h <;> rfl
  have hsign : splitSign ('0' :: letter :: ds) = (false, '0' :: letter :: ds) := rfl
  rw [isInteger, hsign]
  simp only [hunsigned, wordSize_eq]
  cases natural? base ds <;> rfl

theorem exists_natural?_of_lettered (h : octal.Matches cs ∨ hexadecimal.Matches cs) :
    ∃ letter base ds n, (letter, base) ∈ letters ∧ cs = '0' :: letter :: ds ∧
      natural? base ds = some n := by
  rcases h with h | h <;> obtain ⟨ds, rfl, hne, hds⟩ := matches_lettered.1 h
  · obtain ⟨n, hn⟩ := exists_natural? hne fun c hc => isSome_digit?_of_mem_eight (hds c hc)
    exact ⟨'o', 8, ds, n, by decide, rfl, hn⟩
  · obtain ⟨n, hn⟩ := exists_natural? hne fun c hc => isSome_digit?_of_mem_sixteen (hds c hc)
    exact ⟨'x', 16, ds, n, by decide, rfl, hn⟩

theorem isPadded_eq_true_iff : isPadded cs = true ↔
    ∃ ds, (splitSign cs).2 = '0' :: ds ∧ digits.Matches ds := by
  unfold isPadded
  split
  · next r hr =>
    simp [hr, matches_digits]
  · next hne =>
    simp only [Bool.false_eq_true, false_iff, not_exists, not_and]
    exact fun ds hds => absurd hds (hne ds)

theorem isFinite_eq (hbody : (splitSign cs).2 = body) (hd : ofChars? body = some d) :
    isFinite cs = d.fitsDouble := by
  rw [isFinite, hbody, hd]

/-- A number is read as text only if it is out of range. -/
theorem isOutOfRange_of_readsAsText (h : number.Matches cs) (ht : readsAsText cs = true) :
    IsOutOfRange cs := by
  obtain ⟨-, -, hinteger, hpadded, -, -, hfinite⟩ := readsAsText_eq_true_iff.1 ht
  rcases or_assoc.2 (number_cases h) with h | h
  · obtain ⟨letter, base, ds, n, hletter, rfl, hn⟩ := exists_natural?_of_lettered h
    rw [isInteger_lettered hletter, hn] at hinteger
    exact .lettered hletter hn (by simpa using hinteger)
  · obtain ⟨sg, body, d, hs, rfl, hbody, hd⟩ := exists_of_matches_float h
    rw [isFinite_eq hbody hd] at hfinite
    refine .decimal hs hd (fun hfits => ?_) fun ds hds hdigits => ?_
    · rw [(fitsDouble_iff d).2 hfits] at hfinite
      cases hfinite
    · rw [isPadded_eq_true_iff.2 ⟨ds, hbody.trans hds, hdigits⟩] at hpadded
      cases hpadded

/-- A letter that begins no exponent goes on no decimal number. -/
theorem ofChars?_letter (hdigit : letter.isDigit = false) (hletter : letter ∉ ['.', 'e', 'E'])
    (ds : List Char) : ofChars? ('0' :: letter :: ds) = none := by
  have hne : letter ≠ '.' ∧ letter ≠ 'e' ∧ letter ≠ 'E' := by simpa using hletter
  have hzero : ∀ c ∈ ['0'], c.isDigit = true := List.forall_mem_singleton.2 rfl
  rw [← List.singleton_append, ofChars?_append hzero (by simpa using hdigit),
    splitPlaces_of_ne (by simpa using hne.1)]
  simp [exponent?, hne]

theorem isDigit_of_digit? {c : Char} (h : (digit? 10 c).isSome) : c.isDigit = true := by
  by_contra hc
  unfold digit? at h
  simp only [hc] at h
  split_ifs at h <;> first | omega | simp at h

theorem ofChars?_of_natural? (h : natural? 10 cs = some n) : ofChars? cs = some ⟨n, 0⟩ := by
  obtain ⟨-, hds⟩ := isSome_natural?_iff.1 (Option.isSome_of_eq_some h)
  have hread := ofChars?_append (fun c hc => isDigit_of_digit? (hds c hc)) (y := []) (by simp)
  simpa [splitPlaces, exponent?, h] using hread

/-- A decimal number has no sign of its own. -/
theorem ne_sign_of_ofChars? (h : ofChars? body = some d) :
    ∀ c ∈ body.head?, c ≠ '-' ∧ c ≠ '+' := by
  intro c hc
  obtain ⟨r, rfl⟩ := List.head?_eq_some_iff.1 hc
  constructor <;> rintro rfl <;> cases h

theorem two_pow_le_doubleLimit : 2 ^ 128 ≤ doubleLimit := by decide +kernel

theorem le_of_not_fitsDouble (h : ¬FitsDouble ⟨n, 0⟩) : doubleLimit ≤ n := by
  simpa [FitsDouble, tenTo] using h

/-- An integer that no double holds has more than 128 bits. -/
theorem isInteger_of_not_fitsDouble (hbody : (splitSign cs).2 = body)
    (hd : ofChars? body = some d) (hlarge : ¬d.FitsDouble) : isInteger cs = false := by
  have hunsigned : unsigned? body = natural? 10 body := by
    unfold unsigned?
    split
    · exact absurd (hd.symm.trans (ofChars?_letter rfl (by decide) _)) (by simp)
    · exact absurd (hd.symm.trans (ofChars?_letter rfl (by decide) _)) (by simp)
    · exact absurd (hd.symm.trans (ofChars?_letter rfl (by decide) _)) (by simp)
    · rfl
  cases hn : natural? 10 body with
  | none => simp [isInteger, hbody, hunsigned, hn]
  | some n =>
    obtain rfl : d = ⟨n, 0⟩ := Option.some.inj (hd.symm.trans (ofChars?_of_natural? hn))
    have hle : 2 ^ 128 ≤ n := two_pow_le_doubleLimit.trans (le_of_not_fitsDouble hlarge)
    have hbelow : ¬n ≤ wordSize 127 := by
      rw [wordSize_eq]
      omega
    have habove : ¬n < wordSize 128 := by
      rw [wordSize_eq]
      omega
    simp [isInteger, hbody, hunsigned, hn, hbelow, habove]

theorem no_value_of_isOutOfRange (h : IsOutOfRange cs) :
    isInteger cs = false ∧ isPadded cs = false ∧ isFinite cs = false := by
  cases h with
  | @lettered letter base ds n hletter hn hlarge =>
    refine ⟨?_, ?_, ?_⟩
    · simpa [isInteger_lettered hletter, hn] using hlarge
    · fin_cases hletter <;> rfl
    · have hnone : ofChars? ('0' :: letter :: ds) = none := by
        fin_cases hletter <;> exact ofChars?_letter rfl (by decide) ds
      have hsign : splitSign ('0' :: letter :: ds) = (false, '0' :: letter :: ds) := rfl
      rw [isFinite, hsign]
      simp only [hnone]
  | @decimal sg body d hs hd hlarge hpadded =>
    have hbody := splitSign_append hs (ne_sign_of_ofChars? hd)
    refine ⟨isInteger_of_not_fitsDouble hbody hd hlarge, ?_, ?_⟩
    · rw [← Bool.not_eq_true, isPadded_eq_true_iff, hbody]
      rintro ⟨ds, hds, hdigits⟩
      exact hpadded ds hds hdigits
    · rw [isFinite_eq hbody hd, ← Bool.not_eq_true, fitsDouble_iff]
      exact hlarge

end Values

section Texts

variable {cs : List Char} {c : Char}

theorem mem_of_mem_splitSign (h : c ∈ (splitSign cs).2) : c ∈ cs := by
  unfold splitSign at h
  split at h
  · exact List.mem_cons_of_mem _ h
  · exact List.mem_cons_of_mem _ h
  · exact h

/-- Each word for a truth value or an infinity has one of these letters. -/
theorem toLower_notMem_of_number (h : number.Matches cs) (hc : c ∈ cs) :
    c.toLower ∉ ['l', 'n', 'u'] := by
  have hall : number.chars.all (·.toLower ∉ ['l', 'n', 'u']) = true := by decide
  exact of_decide_eq_true (List.all_eq_true.1 hall c (mem_chars_of_matches h c hc))

theorem isNull_of_number (h : number.Matches cs) : isNull cs = false := by
  have hnot : ∀ w ∈ ["", "~", "null", "Null", "NULL"].map String.toList, ¬number.Matches w := by
    decide
  exact decide_eq_false fun hmem => hnot cs hmem h

theorem isBool_of_number (h : number.Matches cs) : isBool cs = false := by
  have hletter : ∀ w ∈ ["true", "false"].map String.toList,
      w.any (· ∈ ['l', 'n', 'u']) = true := by
    decide
  refine decide_eq_false fun hmem => ?_
  obtain ⟨c, hc, hl⟩ := List.any_eq_true.1 (hletter _ hmem)
  obtain ⟨d, hd, rfl⟩ := List.mem_map.1 hc
  exact toLower_notMem_of_number h hd (of_decide_eq_true hl)

theorem isNotANumber_of_number (h : number.Matches cs) : isNotANumber cs = false := by
  have hnot : ∀ w ∈ [".nan", ".NaN", ".NAN"].map String.toList, ¬number.Matches w := by
    decide
  exact decide_eq_false fun hmem => hnot cs hmem h

theorem isInfinite_of_number (h : number.Matches cs) : isInfinite cs = false := by
  have hletter : ∀ w ∈ [".inf", ".Inf", ".INF"].map String.toList,
      w.any (·.toLower ∈ ['l', 'n', 'u']) = true := by
    decide
  refine decide_eq_false fun hmem => ?_
  obtain ⟨c, hc, hl⟩ := List.any_eq_true.1 (hletter _ hmem)
  exact toLower_notMem_of_number h (mem_of_mem_splitSign hc) (of_decide_eq_true hl)

/-- A number is read as text exactly if it is out of range. -/
theorem readsAsText_iff_isOutOfRange (h : number.Matches cs) :
    readsAsText cs = true ↔ IsOutOfRange cs := by
  refine ⟨isOutOfRange_of_readsAsText h, fun hout => ?_⟩
  obtain ⟨hinteger, hpadded, hfinite⟩ := no_value_of_isOutOfRange hout
  exact readsAsText_eq_true_iff.2 ⟨isNull_of_number h, isBool_of_number h, hinteger, hpadded,
    isNotANumber_of_number h, isInfinite_of_number h, hfinite⟩

/-- A character that neither opens nor ends a token, but for a dash. -/
def isInert (c : Char) : Bool :=
  isPrintable c && !isGap c && c ∉ indicators && c ∉ [':', '?']

theorem isInert_eq_true_iff : isInert c = true ↔
    isPrintable c = true ∧ isGap c = false ∧ c ∉ indicators ∧ c ∉ [':', '?'] := by
  simp [isInert, and_assoc]

theorem isLoose_of_inert (h : isInert c = true) : isSpace c = false ∧ isBreak c = false := by
  have hgap := (isInert_eq_true_iff.1 h).2.1
  rw [isGap, Bool.or_eq_false_iff, decide_eq_false_iff_not, List.mem_cons, not_or] at hgap
  exact ⟨decide_eq_false hgap.1.1, hgap.2⟩

theorem isInert_of_number (h : number.Matches cs) (hc : c ∈ cs) : isInert c = true := by
  have hall : number.chars.all isInert = true := by decide
  exact List.all_eq_true.1 hall c (mem_chars_of_matches h c hc)

theorem hasPair_eq_false {p q : Char → Bool} (h : ∀ c ∈ cs, p c = false) :
    hasPair p q cs = false := by
  refine List.any_eq_false.2 fun ⟨a, b⟩ hab => ?_
  simp [h a (List.of_mem_zip hab).1]

/-- Nothing but a dash could open a token, and the dash of a number stands in front of no gap. -/
theorem opensToken_of_number (h : number.Matches cs) : opensToken cs = false := by
  have hnot : ¬number.Matches [] ∧ ¬number.Matches ['-'] := by decide
  cases cs with
  | nil => exact absurd h hnot.1
  | cons c r =>
    obtain ⟨-, -, hind, hlead⟩ := isInert_eq_true_iff.1 (isInert_of_number h List.mem_cons_self)
    cases r with
    | nil =>
      have hdash : c ≠ '-' := by
        rintro rfl
        exact hnot.2 h
      simp_all [opensToken, leaders]
    | cons d r =>
      have hgap : isGap d = false :=
        (isInert_eq_true_iff.1 (isInert_of_number h (by simp))).2.1
      simp [opensToken, hind, hgap]

theorem marksDocument_of_number (h : number.Matches cs) : marksDocument cs = false := by
  have hmarks : "---".toList = ['-', '-', '-'] ∧ "...".toList = ['.', '.', '.'] := ⟨rfl, rfl⟩
  rcases or_assoc.2 (number_cases h) with h | h
  · obtain ⟨letter, base, ds, n, -, rfl, -⟩ := exists_natural?_of_lettered h
    rfl
  · obtain ⟨sg, body, hs, hbody, rfl⟩ := matches_mul.1 h
    obtain ⟨c, r, rfl, hc⟩ := exists_cons_of_matches hbody
    have hdash : c ≠ '-' := (ne_sign_of_matches hbody c rfl).1
    rcases matches_sign.1 hs with rfl | rfl | rfl
    · rcases hc with hc | ⟨rfl, d, hd, hdigit⟩
      · have hpoint : c ≠ '.' := by
          rintro rfl
          cases hc
        simp [marksDocument, hmarks, List.isPrefixOf, hdash.symm, hpoint.symm]
      · obtain ⟨r, rfl⟩ := List.head?_eq_some_iff.1 hd
        have hpoint : d ≠ '.' := by
          rintro rfl
          cases hdigit
        simp [marksDocument, hmarks, List.isPrefixOf, hpoint.symm]
    · simp [marksDocument, hmarks, List.isPrefixOf, hdash.symm]
    · rfl

theorem endsToken_of_inert (h : ∀ c ∈ cs, isInert c = true) : endsToken cs = false := by
  have hcolon {c : Char} (hc : c ∈ cs) : c ≠ ':' := by
    rintro rfl
    exact absurd (h _ hc) (by decide)
  have hgap {c : Char} (hc : c ∈ cs) : isGap c = false := (isInert_eq_true_iff.1 (h c hc)).2.1
  have hkey : hasPair (· = ':') isGap cs.tail = false :=
    hasPair_eq_false fun c hc => decide_eq_false (hcolon (List.mem_of_mem_tail hc))
  have hend : cs.tail.getLast? ≠ some ':' := fun hlast =>
    hcolon (List.mem_of_mem_tail (List.mem_of_getLast? hlast)) rfl
  have hcomment : hasPair isGap (· = '#') cs = false := hasPair_eq_false fun c hc => hgap hc
  simp [endsToken, hkey, hend, hcomment]

theorem hasLooseEnd_of_inert (h : ∀ c ∈ cs, isInert c = true) : hasLooseEnd cs = false := by
  have hloose {o : Option Char} (ho : ∀ c ∈ o, c ∈ cs) :
      o.any (fun c => isSpace c || isBreak c) = false := by
    cases o with
    | none => rfl
    | some c =>
      obtain ⟨hspace, hbreak⟩ := isLoose_of_inert (h c (ho c rfl))
      simp [hspace, hbreak]
  rw [hasLooseEnd, hloose fun c => List.mem_of_head?, hloose fun c => List.mem_of_getLast?]
  rfl

/-- Nothing but its value can be against leaving a number plain. -/
theorem fitsPlain_of_number (h : number.Matches cs) : fitsPlain cs = readsAsText cs := by
  have hinert : ∀ c ∈ cs, isInert c = true := fun c hc => isInert_of_number h hc
  have hall : cs.all (fun c => isPrintable c && !isBreak c) = true := by
    refine List.all_eq_true.2 fun c hc => ?_
    simp [(isInert_eq_true_iff.1 (hinert c hc)).1, isLoose_of_inert (hinert c hc)]
  simp [fitsPlain, marksDocument_of_number h, opensToken_of_number h, endsToken_of_inert hinert,
    hasLooseEnd_of_inert hinert, hall]

theorem of_eq_plain_iff : Style.of cs = .plain ↔ '\n' ∉ cs ∧ fitsPlain cs = true := by
  unfold Style.of
  split_ifs <;> simp_all

theorem of_number_eq_plain_iff (h : number.Matches cs) :
    Style.of cs = .plain ↔ IsOutOfRange cs := by
  have hbreak : '\n' ∉ cs := fun hmem => absurd (isInert_of_number h hmem) (by decide)
  rw [of_eq_plain_iff, and_iff_right hbreak, fitsPlain_of_number h, readsAsText_iff_isOutOfRange h]

theorem readsAsText_of_plain (h : Style.of cs = .plain) : readsAsText cs = true := by
  have hfits := (of_eq_plain_iff.1 h).2
  simp only [fitsPlain, Bool.and_eq_true, and_assoc] at hfits
  exact hfits.1

theorem isBool_of_matches (h : boolean.Matches cs) : isBool cs = true := by
  have hall : ∀ w ∈ ["true", "True", "TRUE", "false", "False", "FALSE"].map String.toList,
      isBool w = true := by
    decide
  exact hall cs (matches_oneOf.1 h)

theorem isInfinite_of_matches (h : infinity.Matches cs) : isInfinite cs = true := by
  obtain ⟨sg, w, hs, hw, rfl⟩ := matches_mul.1 h
  have hmem := matches_oneOf.1 hw
  have hpoint : ∀ w ∈ [".inf", ".Inf", ".INF"].map String.toList, w.head? = some '.' := by
    decide
  have hunsigned : ∀ c ∈ w.head?, c ≠ '-' ∧ c ≠ '+' := by
    rw [hpoint w hmem]
    rintro _ ⟨⟩
    decide
  rw [isInfinite, splitSign_append hs hunsigned]
  exact decide_eq_true hmem

theorem no_word_of_readsAsText (h : readsAsText cs = true) :
    ¬null.Matches cs ∧ ¬boolean.Matches cs ∧ ¬infinity.Matches cs ∧ ¬notANumber.Matches cs := by
  obtain ⟨hnull, hbool, -, -, hnan, hinfinite, -⟩ := readsAsText_eq_true_iff.1 h
  refine ⟨fun hm => ?_, fun hm => ?_, fun hm => ?_, fun hm => ?_⟩
  · exact of_decide_eq_false hnull (matches_oneOf.1 hm)
  · exact absurd (isBool_of_matches hm) (by simp [hbool])
  · exact absurd (isInfinite_of_matches hm) (by simp [hinfinite])
  · exact of_decide_eq_false hnan (matches_oneOf.1 hm)

end Texts

section Length

variable {f : Char → List Char} {style : Style} {cs : List Char}

theorem length_le_flatMap (h : ∀ c, f c ≠ []) (cs : List Char) :
    cs.length ≤ (cs.flatMap f).length := by
  induction cs with
  | nil => exact Nat.zero_le _
  | cons c cs ih =>
    have hpos := List.length_pos_of_ne_nil (h c)
    rw [List.flatMap_cons, List.length_append, List.length_cons]
    omega

theorem length_le_indentLines (indent : Nat) (b : Bool) (cs : List Char) :
    cs.length ≤ (indentLines indent b cs).length := by
  induction cs generalizing b with
  | nil => exact Nat.zero_le _
  | cons c cs ih =>
    have hrest := ih (isBreak c)
    rw [indentLines_cons, List.length_append, List.length_cons, List.length_cons]
    omega

theorem length_lt_writeSingle (indent : Nat) (cs : List Char) :
    cs.length < (writeSingle indent cs).length := by
  have hdoubled : cs.length ≤ (doubled cs).length :=
    length_le_flatMap (fun c => by split <;> simp) cs
  have hlines := length_le_indentLines indent false (doubled cs ++ ['\''])
  rw [List.length_append, List.length_singleton] at hlines
  change _ < ('\'' :: indentLines indent false (doubled cs ++ ['\''])).length
  rw [List.length_cons]
  omega

theorem length_lt_writeDouble (cs : List Char) : cs.length < (writeDouble cs).length := by
  have hne (c : Char) : escape c ≠ [] := by
    intro h
    have hread := unescape_escape c []
    rw [h] at hread
    cases hread
  have hescaped := length_le_flatMap hne cs
  rw [writeDouble, List.length_append, List.length_cons]
  omega

theorem length_lt_writeLiteral (indent : Nat) (cs : List Char) :
    cs.length < (writeLiteral indent cs).length := by
  have hlines := length_le_indentLines indent true cs
  rw [writeLiteral, List.length_append, List.length_cons (a := '\n')]
  omega

theorem length_lt_write (h : style ≠ .plain) (indent : Nat) (cs : List Char) :
    cs.length < (style.write indent cs).length := by
  cases style with
  | plain => exact absurd rfl h
  | single => exact length_lt_writeSingle indent cs
  | double => exact length_lt_writeDouble cs
  | literal => exact length_lt_writeLiteral indent cs

/-- In any other style there is more to write. -/
theorem scalar_eq_iff {indent : Nat} {s : String} :
    scalar indent s = s.toList ↔ Style.of s.toList = .plain := by
  constructor
  · intro h
    by_contra hstyle
    have hlength := length_lt_write hstyle indent s.toList
    rw [← scalar, h] at hlength
    exact Nat.lt_irrefl _ hlength
  · intro h
    rw [scalar, h]
    rfl

end Length

/-- A text that is written as it stands is never taken for a null, a truth value, an infinity or a
value that is no number. A number is so written exactly if it is out of range. -/
theorem plain_iff_isOutOfRange (s : String) (indent : Nat) :
    (scalar indent s = s.toList → ¬null.Matches s.toList ∧ ¬boolean.Matches s.toList ∧
      ¬infinity.Matches s.toList ∧ ¬notANumber.Matches s.toList) ∧
    (integer.Matches s.toList ∨ float.Matches s.toList →
      (scalar indent s = s.toList ↔ IsOutOfRange s.toList)) := by
  rw [scalar_eq_iff]
  exact ⟨fun h => no_word_of_readsAsText (readsAsText_of_plain h), of_number_eq_plain_iff⟩

/-- Its one type is a number greater than every double. -/
def hugeReport : Report where
  version := 1
  generatedAt := "1970-01-01T00:00:00Z"
  path := .ofString "p"
  strict := false
  files := 0
  lines := 0
  matched := 0
  types := ["1e309"]
  counts := .empty
  warnings := []

theorem hugeReport_type_matches_float :
    float.Matches "1e309".toList ∧ scalar 2 "1e309" = "1e309".toList ∧
      hugeReport.render .yaml false = .ok
        ("version: 1\ngenerated_at: 1970-01-01T00:00:00Z\ninput:\n  path: p\n  strict: false\n" ++
          "files_scanned: 0\nlines_scanned: 0\nmatched_lines: 0\ntokens:\n- 1e309\n" ++
          "counts: \x7b\x7d\nwarnings: []\n") := by
  have hp : hugeReport.path.text? = some "p" := Text.decode?_encode _
  refine ⟨by decide, by decide +kernel, ?_⟩
  rw [Report.render_yaml_of_text? hp]
  decide +kernel

end BranchLog.Yaml
