import BranchLog.Proofs.YamlScalars
import Mathlib

/-!
# The patterns of the core schema

A reader of YAML tells from patterns whether a plain scalar is a null, a truth value or a number.
What matches the pattern of a number is read as one by `Numeral.natural?` or, behind its sign, by
`Numeral.Decimal.ofChars?`.
-/
namespace BranchLog.Yaml

abbrev Pattern := RegularExpression Char

namespace Pattern

/-- One of these characters. -/
def anyOf (s : String) : Pattern := (s.toList.map .char).sum

/-- One of these texts. -/
def oneOf (ss : List String) : Pattern := (ss.map fun s => (s.toList.map .char).prod).sum

def oneOrMore (p : Pattern) : Pattern := p * p.star

def optional (p : Pattern) : Pattern := 1 + p

def sign : Pattern := optional (anyOf "-+")

def digits : Pattern := oneOrMore (anyOf "0123456789")

def null : Pattern := oneOf ["", "~", "null", "Null", "NULL"]

def boolean : Pattern := oneOf ["true", "True", "TRUE", "false", "False", "FALSE"]

/-- A zero, a letter and digits. -/
def lettered (letter : Char) (ds : String) : Pattern :=
  .char '0' * (.char letter * oneOrMore (anyOf ds))

def octal : Pattern := lettered 'o' "01234567"

def hexadecimal : Pattern := lettered 'x' "0123456789abcdefABCDEF"

def integer : Pattern := sign * digits + octal + hexadecimal

def mantissa : Pattern :=
  anyOf "." * digits + digits * optional (anyOf "." * (anyOf "0123456789").star)

def exponent : Pattern := anyOf "eE" * (sign * digits)

def float : Pattern := sign * (mantissa * optional exponent)

def infinity : Pattern := sign * oneOf [".inf", ".Inf", ".INF"]

def notANumber : Pattern := oneOf [".nan", ".NaN", ".NAN"]

def number : Pattern := integer + float

def Matches (p : Pattern) (cs : List Char) : Prop := cs ∈ p.matches'

instance (p : Pattern) (cs : List Char) : Decidable (p.Matches cs) :=
  decidable_of_iff (p.rmatch cs = true) (p.rmatch_iff_matches' cs)

section Matches

variable {p q : Pattern} {cs : List Char} {s : String} {ss : List String}

@[simp]
theorem matches_one : (1 : Pattern).Matches cs ↔ cs = [] := Iff.rfl

@[simp]
theorem matches_char {c : Char} : Matches (.char c) cs ↔ cs = [c] := Iff.rfl

@[simp]
theorem matches_add : (p + q).Matches cs ↔ p.Matches cs ∨ q.Matches cs := Iff.rfl

@[simp]
theorem matches_mul : (p * q).Matches cs ↔ ∃ u v, p.Matches u ∧ q.Matches v ∧ cs = u ++ v := by
  rw [Matches, RegularExpression.matches'_mul, Language.mem_mul]
  constructor
  · rintro ⟨u, hu, v, hv, rfl⟩
    exact ⟨u, v, hu, hv, rfl⟩
  · rintro ⟨u, v, hu, hv, rfl⟩
    exact ⟨u, hu, v, hv, rfl⟩

@[simp]
theorem matches_optional : (optional p).Matches cs ↔ cs = [] ∨ p.Matches cs := Iff.rfl

theorem matches_sum {ps : List Pattern} : Matches ps.sum cs ↔ ∃ p ∈ ps, p.Matches cs := by
  induction ps with
  | nil =>
    simp only [List.sum_nil, List.not_mem_nil, false_and, exists_false, iff_false]
    exact id
  | cons p ps ih => rw [List.sum_cons, matches_add, ih, List.exists_mem_cons_iff]

theorem matches_prod_char {t : List Char} : Matches (t.map .char).prod cs ↔ cs = t := by
  induction t generalizing cs with
  | nil => exact matches_one
  | cons c t ih =>
    rw [List.map_cons, List.prod_cons, matches_mul]
    simp [ih]

@[simp]
theorem matches_anyOf : (anyOf s).Matches cs ↔ ∃ c ∈ s.toList, cs = [c] := by
  simp [anyOf, matches_sum]

@[simp]
theorem matches_oneOf : (oneOf ss).Matches cs ↔ cs ∈ ss.map String.toList := by
  simp [oneOf, matches_sum, matches_prod_char, eq_comm]

theorem matches_star_anyOf : Matches (anyOf s).star cs ↔ ∀ c ∈ cs, c ∈ s.toList := by
  rw [Matches, RegularExpression.matches'_star, Language.mem_kstar]
  constructor
  · rintro ⟨ws, rfl, hws⟩ c hc
    obtain ⟨w, hw, hcw⟩ := List.mem_flatten.1 hc
    obtain ⟨d, hd, rfl⟩ := matches_anyOf.1 (hws w hw)
    rwa [List.mem_singleton.1 hcw]
  · intro h
    refine ⟨cs.map fun c => [c], (List.flatMap_singleton' cs).symm, fun w hw => ?_⟩
    obtain ⟨c, hc, rfl⟩ := List.mem_map.1 hw
    exact matches_anyOf.2 ⟨c, h c hc, rfl⟩

theorem matches_oneOrMore_anyOf :
    (oneOrMore (anyOf s)).Matches cs ↔ cs ≠ [] ∧ ∀ c ∈ cs, c ∈ s.toList := by
  simp only [oneOrMore, matches_mul, matches_anyOf, matches_star_anyOf]
  constructor
  · rintro ⟨u, v, ⟨c, hc, rfl⟩, hv, rfl⟩
    exact ⟨List.cons_ne_nil _ _, List.forall_mem_cons.2 ⟨hc, hv⟩⟩
  · rintro ⟨hne, h⟩
    obtain ⟨c, r, rfl⟩ := List.exists_cons_of_ne_nil hne
    obtain ⟨hc, hr⟩ := List.forall_mem_cons.1 h
    exact ⟨[c], r, ⟨c, hc, rfl⟩, hr, rfl⟩

/-- The characters of which the matches of a pattern consist. -/
def chars : Pattern → List Char
  | .zero => []
  | .epsilon => []
  | .char c => [c]
  | .plus p q => chars p ++ chars q
  | .comp p q => chars p ++ chars q
  | .star p => chars p

theorem mem_chars_of_matches (h : p.Matches cs) : ∀ c ∈ cs, c ∈ p.chars := by
  induction p generalizing cs with
  | zero => exact absurd h id
  | epsilon =>
    rw [matches_one.1 h]
    exact List.forall_mem_nil _
  | char c =>
    rw [matches_char.1 h]
    exact fun d hd => hd
  | plus p q ihp ihq =>
    rcases matches_add.1 h with h | h
    · exact fun c hc => List.mem_append_left _ (ihp h c hc)
    · exact fun c hc => List.mem_append_right _ (ihq h c hc)
  | comp p q ihp ihq =>
    obtain ⟨u, v, hu, hv, rfl⟩ := matches_mul.1 h
    refine List.forall_mem_append.2 ⟨fun c hc => ?_, fun c hc => ?_⟩
    · exact List.mem_append_left _ (ihp hu c hc)
    · exact List.mem_append_right _ (ihq hv c hc)
  | star p ih =>
    obtain ⟨ws, rfl, hws⟩ := Language.mem_kstar.1 h
    intro c hc
    obtain ⟨w, hw, hcw⟩ := List.mem_flatten.1 hc
    exact ih (hws w hw) c hcw

end Matches

end Pattern

section Digits

open Numeral

variable {base : Nat} {c : Char} {cs : List Char}

theorem isDigit_iff_mem : c.isDigit = true ↔ c ∈ "0123456789".toList := by
  constructor
  · intro h
    obtain ⟨hlow, hhigh⟩ : 48 ≤ c.toNat ∧ c.toNat ≤ 57 := Char.isDigit_iff_toNat.1 h
    rw [← Char.ofNat_toNat c]
    interval_cases c.toNat <;> decide
  · intro h
    fin_cases h <;> rfl

theorem isSome_digit?_of_mem_ten (h : c ∈ "0123456789".toList) : (digit? 10 c).isSome := by
  fin_cases h <;> rfl

theorem isSome_digit?_of_mem_eight (h : c ∈ "01234567".toList) : (digit? 8 c).isSome := by
  fin_cases h <;> rfl

theorem isSome_digit?_of_mem_sixteen (h : c ∈ "0123456789abcdefABCDEF".toList) :
    (digit? 16 c).isSome := by
  fin_cases h <;> rfl

theorem isSome_natural?_iff :
    (natural? base cs).isSome ↔ cs ≠ [] ∧ ∀ c ∈ cs, (digit? base c).isSome := by
  have hfold (m : Nat) :
      (cs.foldlM (fun n c => (digit? base c).map (n * base + ·)) m).isSome ↔
        ∀ c ∈ cs, (digit? base c).isSome := by
    induction cs generalizing m with
    | nil => exact iff_of_true rfl (List.forall_mem_nil _)
    | cons c cs ih =>
      rw [List.foldlM_cons, List.forall_mem_cons]
      cases digit? base c with
      | none => simp
      | some d => simpa using ih (m * base + d)
  unfold natural?
  split
  · next h => exact iff_of_false (by simp) fun hne => hne.1 (List.isEmpty_iff.1 h)
  · next h => rw [hfold, and_iff_right (by simpa using h)]

theorem exists_natural? (hne : cs ≠ []) (h : ∀ c ∈ cs, (digit? base c).isSome) :
    ∃ n, natural? base cs = some n :=
  Option.isSome_iff_exists.1 (isSome_natural?_iff.2 ⟨hne, h⟩)

end Digits

namespace Pattern

open Numeral Numeral.Decimal

variable {cs body m x y sg ds whole places : List Char}

theorem matches_digits : digits.Matches ds ↔ ds ≠ [] ∧ ∀ c ∈ ds, c.isDigit = true := by
  simp only [digits, matches_oneOrMore_anyOf, isDigit_iff_mem]

theorem matches_star_digits :
    Matches (anyOf "0123456789").star ds ↔ ∀ c ∈ ds, c.isDigit = true := by
  simp only [matches_star_anyOf, isDigit_iff_mem]

theorem matches_sign : sign.Matches sg ↔ sg = [] ∨ sg = ['-'] ∨ sg = ['+'] := by
  have hsigns : "-+".toList = ['-', '+'] := rfl
  simp [sign, hsigns]

theorem matches_point : (anyOf ".").Matches m ↔ m = ['.'] := by
  have hpoint : ".".toList = ['.'] := rfl
  simp [hpoint]

/-- Digits on either side of a point, or no point. -/
theorem matches_mantissa : mantissa.Matches m ↔
    ∃ whole places, whole ++ places ≠ [] ∧ (∀ c ∈ whole, c.isDigit = true) ∧
      (∀ c ∈ places, c.isDigit = true) ∧
      (m = whole ++ '.' :: places ∨ m = whole ∧ places = []) := by
  simp only [mantissa, matches_add, matches_mul, matches_optional, matches_point, matches_digits,
    matches_star_digits]
  constructor
  · rintro (⟨u, ds, rfl, ⟨hne, hds⟩, rfl⟩ |
      ⟨ds, y, ⟨hne, hds⟩, rfl | ⟨u, places, rfl, hp, rfl⟩, rfl⟩)
    · exact ⟨[], ds, by simpa using hne, List.forall_mem_nil _, hds, .inl rfl⟩
    · exact ⟨ds, [], by simpa using hne, hds, List.forall_mem_nil _, .inr ⟨by simp, rfl⟩⟩
    · exact ⟨ds, places, by simp [hne], hds, hp, .inl rfl⟩
  · rintro ⟨whole, places, hne, hw, hp, rfl | ⟨rfl, rfl⟩⟩
    · by_cases hwhole : whole = []
      · subst hwhole
        exact .inl ⟨['.'], places, rfl, ⟨hne, hp⟩, rfl⟩
      · exact .inr ⟨whole, '.' :: places, ⟨hwhole, hw⟩, .inr ⟨['.'], places, rfl, hp, rfl⟩, rfl⟩
    · exact .inr ⟨m, [], ⟨by simpa using hne, hw⟩, .inl rfl, by simp⟩

theorem matches_exponent : exponent.Matches x ↔
    ∃ e sg ds, (e = 'e' ∨ e = 'E') ∧ sign.Matches sg ∧ digits.Matches ds ∧ x = e :: (sg ++ ds) := by
  have hletters : "eE".toList = ['e', 'E'] := rfl
  simp only [exponent, matches_mul, matches_anyOf, hletters, List.mem_cons, List.not_mem_nil,
    or_false]
  constructor
  · rintro ⟨u, v, ⟨e, he, rfl⟩, ⟨sg, ds, hs, hds, rfl⟩, rfl⟩
    exact ⟨e, sg, ds, he, hs, hds, rfl⟩
  · rintro ⟨e, sg, ds, he, hs, hds, rfl⟩
    exact ⟨[e], sg ++ ds, ⟨e, he, rfl⟩, ⟨sg, ds, hs, hds, rfl⟩, rfl⟩

theorem splitSign_append (hs : sign.Matches sg) (hb : ∀ c ∈ body.head?, c ≠ '-' ∧ c ≠ '+') :
    (splitSign (sg ++ body)).2 = body := by
  rcases matches_sign.1 hs with rfl | rfl | rfl
  · rw [List.nil_append]
    unfold splitSign
    split
    · exact absurd rfl (hb '-' rfl).1
    · exact absurd rfl (hb '+' rfl).2
    · rfl
  · rfl
  · rfl

theorem exists_natural?_of_digits (h : digits.Matches ds) : ∃ n, natural? 10 ds = some n := by
  obtain ⟨hne, hds⟩ := matches_digits.1 h
  exact exists_natural? hne fun c hc => isSome_digit?_of_mem_ten (isDigit_iff_mem.1 (hds c hc))

theorem head?_of_digits (h : digits.Matches ds) (r : List Char) :
    ∀ c ∈ (ds ++ r).head?, c.isDigit = true := by
  obtain ⟨hne, hds⟩ := matches_digits.1 h
  obtain ⟨d, ds, rfl⟩ := List.exists_cons_of_ne_nil hne
  intro c hc
  cases hc
  exact hds d List.mem_cons_self

theorem ne_sign_of_isDigit {c : Char} (h : c.isDigit = true) : c ≠ '-' ∧ c ≠ '+' := by
  constructor <;> rintro rfl <;> cases h

/-- An exponent is read, and it does not go on what stands before it. -/
theorem exists_exponent? (h : (optional exponent).Matches x) :
    (∃ e, exponent? x = some e) ∧ ∀ c ∈ x.head?, c.isDigit = false ∧ c ≠ '.' := by
  rcases matches_optional.1 h with rfl | hx
  · exact ⟨⟨0, rfl⟩, by simp⟩
  · obtain ⟨e, sg, ds, he, hs, hds, rfl⟩ := matches_exponent.1 hx
    obtain ⟨n, hn⟩ := exists_natural?_of_digits hds
    have hsplit : (splitSign (sg ++ ds)).2 = ds := splitSign_append hs fun c hc =>
      ne_sign_of_isDigit (head?_of_digits hds [] c (by simpa using hc))
    constructor
    · simp [exponent?, he, hsplit, hn]
    · intro c hc
      cases hc
      rcases he with rfl | rfl <;> decide

theorem splitPlaces_point (hp : ∀ c ∈ places, c.isDigit = true)
    (hx : ∀ c ∈ x.head?, c.isDigit = false) :
    splitPlaces ('.' :: (places ++ x)) = (places, x) := by
  obtain ⟨htake, hdrop⟩ := takeWhile_append_stop hp hx
  rw [splitPlaces, htake, hdrop]

theorem splitPlaces_of_ne (h : ∀ c ∈ x.head?, c ≠ '.') : splitPlaces x = ([], x) := by
  unfold splitPlaces
  split
  · exact absurd rfl (h '.' rfl)
  · rfl

theorem ofChars?_append (hw : ∀ c ∈ whole, c.isDigit = true)
    (hy : ∀ c ∈ y.head?, c.isDigit = false) :
    ofChars? (whole ++ y) = (natural? 10 (whole ++ (splitPlaces y).1)).bind fun n =>
      (exponent? (splitPlaces y).2).map fun e => ⟨n, e - (splitPlaces y).1.length⟩ := by
  obtain ⟨htake, hdrop⟩ := takeWhile_append_stop hw hy
  unfold ofChars?
  rw [htake, hdrop]
  obtain ⟨places, rest⟩ := splitPlaces y
  cases hn : natural? 10 (whole ++ places) with
  | none => simp [hn]
  | some n => cases he : exponent? rest <;> simp [hn, he]

/-- A decimal number begins with a digit, or with a point and a digit. -/
theorem exists_cons_of_matches (h : (mantissa * optional exponent).Matches body) :
    ∃ c r, body = c :: r ∧ (c.isDigit = true ∨ c = '.' ∧ ∃ d ∈ r.head?, d.isDigit = true) := by
  obtain ⟨m, x, hm, hx, rfl⟩ := matches_mul.1 h
  obtain ⟨whole, places, hne, hw, hp, hcases⟩ := matches_mantissa.1 hm
  cases whole with
  | nil =>
    obtain ⟨d, places, rfl⟩ := List.exists_cons_of_ne_nil hne
    rcases hcases with rfl | ⟨rfl, hnil⟩
    · exact ⟨'.', _, rfl, .inr ⟨rfl, d, rfl, hp d List.mem_cons_self⟩⟩
    · cases hnil
  | cons c whole =>
    have hc := hw c List.mem_cons_self
    rcases hcases with rfl | ⟨rfl, rfl⟩ <;> exact ⟨c, _, rfl, .inl hc⟩

theorem ne_sign_of_matches (h : (mantissa * optional exponent).Matches body) :
    ∀ c ∈ body.head?, c ≠ '-' ∧ c ≠ '+' := by
  obtain ⟨c, r, rfl, hc | ⟨rfl, -⟩⟩ := exists_cons_of_matches h
  · intro d hd
    cases hd
    exact ne_sign_of_isDigit hc
  · intro d hd
    cases hd
    decide

/-- What has the shape of a decimal number is read as one. -/
theorem exists_ofChars? (h : (mantissa * optional exponent).Matches body) :
    ∃ d, ofChars? body = some d := by
  obtain ⟨m, x, hm, hx, rfl⟩ := matches_mul.1 h
  obtain ⟨whole, places, hne, hw, hp, hcases⟩ := matches_mantissa.1 hm
  obtain ⟨⟨e, he⟩, hhead⟩ := exists_exponent? hx
  have hall : ∀ c ∈ whole ++ places, c.isDigit = true := List.forall_mem_append.2 ⟨hw, hp⟩
  obtain ⟨n, hn⟩ := exists_natural?_of_digits (matches_digits.2 ⟨hne, hall⟩)
  rcases hcases with rfl | ⟨rfl, rfl⟩
  · rw [List.append_assoc, List.cons_append, ofChars?_append hw (by simp),
      splitPlaces_point hp fun c hc => (hhead c hc).1, hn, he]
    exact ⟨_, rfl⟩
  · rw [List.append_nil] at hn
    rw [ofChars?_append hw fun c hc => (hhead c hc).1, splitPlaces_of_ne fun c hc => (hhead c hc).2]
    simp [hn, he]

/-- Only what is behind the sign is read as a number. -/
theorem exists_of_matches_float (h : float.Matches cs) :
    ∃ sg body d, sign.Matches sg ∧ cs = sg ++ body ∧ (splitSign cs).2 = body ∧
      ofChars? body = some d := by
  obtain ⟨sg, body, hs, hbody, rfl⟩ := matches_mul.1 h
  obtain ⟨d, hd⟩ := exists_ofChars? hbody
  exact ⟨sg, body, d, hs, rfl, splitSign_append hs (ne_sign_of_matches hbody), hd⟩

theorem matches_lettered {letter : Char} {set : String} : (lettered letter set).Matches cs ↔
    ∃ ds, cs = '0' :: letter :: ds ∧ ds ≠ [] ∧ ∀ c ∈ ds, c ∈ set.toList := by
  simp only [lettered, matches_mul, matches_char, matches_oneOrMore_anyOf]
  constructor
  · rintro ⟨u, v, rfl, ⟨w, ds, rfl, hds, rfl⟩, rfl⟩
    exact ⟨ds, rfl, hds⟩
  · rintro ⟨ds, rfl, hds⟩
    exact ⟨['0'], _, rfl, ⟨[letter], ds, rfl, hds, rfl⟩, rfl⟩

theorem mantissa_of_digits (h : digits.Matches ds) : (mantissa * optional exponent).Matches ds := by
  obtain ⟨hne, hds⟩ := matches_digits.1 h
  refine matches_mul.2 ⟨ds, [], matches_mantissa.2 ⟨ds, [], ?_, hds, by simp, ?_⟩, ?_, ?_⟩
  · simpa using hne
  · exact .inr ⟨rfl, rfl⟩
  · exact matches_optional.2 (.inl rfl)
  · simp

/-- A decimal integer is a number without a point. -/
theorem number_cases (h : number.Matches cs) :
    octal.Matches cs ∨ hexadecimal.Matches cs ∨ float.Matches cs := by
  rcases h with ((h | h) | h) | h
  · obtain ⟨sg, ds, hs, hds, rfl⟩ := matches_mul.1 h
    exact .inr (.inr (matches_mul.2 ⟨sg, ds, hs, mantissa_of_digits hds, rfl⟩))
  · exact .inl h
  · exact .inr (.inl h)
  · exact .inr (.inr h)

end Pattern

end BranchLog.Yaml
