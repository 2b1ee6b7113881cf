import BranchLog.Proofs.Delimited
import BranchLog.Proofs.JsonGrammar
import Mathlib

/-!
# Reading the strings and numbers of JSON

A reader gives what stands at the beginning of a text and the rest of the text. Each comes with two
lemmas: what the grammar spells is read, whatever stands behind it, and what is read is a spelling.
A number is read up to where it cannot go on; `Ends` is what may stand there.
-/
namespace BranchLog.Json

/-- What is read, and what is left. -/
abbrev Reader (α : Type) := List Char → Option (α × List Char)

/-- A backslash, the letter u and four digits. -/
def readUnit : Reader Nat
  | '\\' :: 'u' :: a :: b :: c :: d :: r => (Numeral.natural? 16 [a, b, c, d]).map (·, r)
  | _ => none

def isSurrogate (n : Nat) : Bool := 0xd800 ≤ n && n < 0xe000

/-- The character that a high and a low surrogate stand for. -/
def join? (n m : Nat) : Option Char :=
  if 0xd800 ≤ n ∧ n < 0xdc00 ∧ 0xdc00 ≤ m ∧ m < 0xe000 then
    some (Char.ofNat (0x10000 + (n - 0xd800) * 0x400 + (m - 0xdc00)))
  else none

/-- A character by itself, or a backslash and a letter. -/
def readSimple : Reader Char
  | '\\' :: letter :: r => (shortEscapes.lookup letter).map (·, r)
  | c :: r => if 0x20 ≤ c.toNat ∧ c ≠ '"' ∧ c ≠ '\\' then some (c, r) else none
  | [] => none

def readChar (cs : List Char) : Option (Char × List Char) :=
  match readUnit cs with
  | none => readSimple cs
  | some (n, r) =>
    if isSurrogate n then (readUnit r).bind fun (m, r) => (join? n m).map (·, r)
    else some (Char.ofNat n, r)

section Characters

variable {c : Char} {n : Nat} {w cs r : List Char}

theorem readUnit_append (h : IsCode w n) (r : List Char) :
    readUnit ('\\' :: 'u' :: w ++ r) = some (n, r) := by
  obtain ⟨hl, hn⟩ := h
  match w, hl with
  | [a, b, c, d], _ => simp [readUnit, hn]

theorem exists_of_readUnit (h : readUnit cs = some (n, r)) :
    ∃ w, IsCode w n ∧ cs = '\\' :: 'u' :: w ++ r := by
  unfold readUnit at h
  split at h
  · next a b c d z =>
    obtain ⟨m, hm, heq⟩ := Option.map_eq_some_iff.1 h
    cases heq
    exact ⟨[a, b, c, d], ⟨rfl, hm⟩, rfl⟩
  · cases h

theorem readUnit_short {letter : Char} (h : (letter, c) ∈ shortEscapes) (r : List Char) :
    readUnit ('\\' :: letter :: r) = none := by
  fin_cases h <;> rfl

theorem readUnit_eq_none_of_ne (h : c ≠ '\\') (r : List Char) : readUnit (c :: r) = none := by
  unfold readUnit
  split <;> simp_all

theorem digit?_lt {base : Nat} (h : Numeral.digit? base c = some n) : n < base := by
  unfold Numeral.digit? at h
  rw [Option.ite_none_right_eq_some] at h
  obtain ⟨hlt, heq⟩ := h
  rwa [← Option.some.inj heq]

theorem foldlM_digit?_lt {base m : Nat}
    (h : w.foldlM (fun n c => (Numeral.digit? base c).map (n * base + ·)) m = some n) :
    n < (m + 1) * base ^ w.length := by
  induction w generalizing m with
  | nil =>
    cases h
    simp
  | cons c w ih =>
    rw [List.foldlM_cons] at h
    obtain ⟨k, hk, h⟩ := Option.bind_eq_some_iff.1 h
    obtain ⟨d, hd, rfl⟩ := Option.map_eq_some_iff.1 hk
    have hlt := digit?_lt hd
    calc n < (m * base + d + 1) * base ^ w.length := ih h
      _ ≤ ((m + 1) * base) * base ^ w.length := by
        refine Nat.mul_le_mul_right _ ?_
        rw [Nat.add_mul, Nat.one_mul]
        omega
      _ = (m + 1) * base ^ (c :: w).length := by
        rw [List.length_cons, Nat.pow_succ, Nat.mul_assoc, Nat.mul_comm base]

theorem IsCode.lt (h : IsCode w n) : n < 0x10000 := by
  obtain ⟨hl, hn⟩ := h
  rw [Numeral.natural?] at hn
  split at hn
  · cases hn
  · have hlt := foldlM_digit?_lt hn
    rw [hl] at hlt
    exact hlt

theorem toNat_lt (c : Char) : c.toNat < 0xd800 ∨ 0xe000 ≤ c.toNat ∧ c.toNat < 0x110000 := by
  have hv : c.toNat < 0xd800 ∨ 0xdfff < c.toNat ∧ c.toNat < 0x110000 := c.valid
  omega

theorem toNat_ofNat {k : Nat} (h : k < 0xd800 ∨ 0xe000 ≤ k ∧ k < 0x110000) :
    (Char.ofNat k).toNat = k := by
  rw [Char.toNat_ofNat, if_pos]
  rw [Nat.isValidChar]
  omega

theorem isSurrogate_toNat (c : Char) : isSurrogate c.toNat = false := by
  have := toNat_lt c
  simp only [isSurrogate, Bool.and_eq_false_iff, decide_eq_false_iff_not]
  omega

theorem isSurrogate_highSurrogate (c : Char) : isSurrogate (highSurrogate c) = true := by
  have hlt := toNat_lt c
  rw [isSurrogate, Bool.and_eq_true, decide_eq_true_eq, decide_eq_true_eq, highSurrogate]
  omega

theorem join?_surrogates (hc : 0x10000 ≤ c.toNat) :
    join? (highSurrogate c) (lowSurrogate c) = some c := by
  have hlt := toNat_lt c
  have heq :
      0x10000 + (highSurrogate c - 0xd800) * 0x400 + (lowSurrogate c - 0xdc00) = c.toNat := by
    unfold highSurrogate lowSurrogate
    omega
  rw [join?, if_pos, heq, Char.ofNat_toNat]
  unfold highSurrogate lowSurrogate
  omega

theorem surrogates_of_join? {n m : Nat} (h : join? n m = some c) :
    0x10000 ≤ c.toNat ∧ n = highSurrogate c ∧ m = lowSurrogate c := by
  obtain ⟨hnm, heq⟩ := Option.ite_none_right_eq_some.1 h
  have hc : c.toNat = 0x10000 + (n - 0xd800) * 0x400 + (m - 0xdc00) := by
    rw [← Option.some.inj heq]
    exact toNat_ofNat (by omega)
  unfold highSurrogate lowSurrogate
  omega

theorem readSimple_plain (hc : 0x20 ≤ c.toNat ∧ c ≠ '"' ∧ c ≠ '\\') (r : List Char) :
    readSimple (c :: r) = some (c, r) := by
  unfold readSimple
  split <;> simp_all

theorem readSimple_short {letter : Char} (h : (letter, c) ∈ shortEscapes) (r : List Char) :
    readSimple ('\\' :: letter :: r) = some (c, r) := by
  fin_cases h <;> rfl

theorem readChar_code (h : IsCode w c.toNat) (r : List Char) :
    readChar ('\\' :: 'u' :: w ++ r) = some (c, r) := by
  rw [readChar, readUnit_append h]
  simp only [isSurrogate_toNat, Bool.false_eq_true, if_false, Char.ofNat_toNat]

theorem readChar_pair {z : List Char} (hc : 0x10000 ≤ c.toNat) (hw : IsCode w (highSurrogate c))
    (hz : IsCode z (lowSurrogate c)) (r : List Char) :
    readChar ('\\' :: 'u' :: w ++ ('\\' :: 'u' :: z ++ r)) = some (c, r) := by
  rw [readChar, readUnit_append hw]
  dsimp only
  rw [if_pos (isSurrogate_highSurrogate c), readUnit_append hz, Option.bind_some,
    join?_surrogates hc, Option.map_some]

/-- Every spelling of a character is read. -/
theorem readChar_append (h : SpellsChar c w) (r : List Char) : readChar (w ++ r) = some (c, r) := by
  cases h with
  | plain hc =>
    rw [List.singleton_append, readChar, readUnit_eq_none_of_ne hc.2.2]
    exact readSimple_plain hc r
  | short h =>
    rw [List.cons_append, List.singleton_append, readChar, readUnit_short h]
    exact readSimple_short h r
  | code h => exact readChar_code h r
  | pair hc hw hz =>
    rw [List.append_assoc]
    exact readChar_pair hc hw hz r

theorem exists_of_readSimple (h : readSimple cs = some (c, r)) :
    ∃ w, SpellsChar c w ∧ cs = w ++ r := by
  unfold readSimple at h
  split at h
  · next letter z =>
    obtain ⟨d, hd, heq⟩ := Option.map_eq_some_iff.1 h
    cases heq
    obtain ⟨before, after, hl, -⟩ := List.lookup_eq_some_iff.1 hd
    exact ⟨['\\', letter], .short (by simp [hl]), rfl⟩
  · next d z _ =>
    obtain ⟨hd, heq⟩ := Option.ite_none_right_eq_some.1 h
    cases heq
    exact ⟨[c], .plain hd, rfl⟩
  · cases h

/-- What is read is a spelling. -/
theorem exists_of_readChar (h : readChar cs = some (c, r)) : ∃ w, SpellsChar c w ∧ cs = w ++ r := by
  unfold readChar at h
  split at h
  · exact exists_of_readSimple h
  · next n z hn =>
    obtain ⟨w, hw, rfl⟩ := exists_of_readUnit hn
    split at h
    · obtain ⟨⟨m, z⟩, hm, hjoin⟩ := Option.bind_eq_some_iff.1 h
      obtain ⟨d, hd, heq⟩ := Option.map_eq_some_iff.1 hjoin
      cases heq
      obtain ⟨u, hu, rfl⟩ := exists_of_readUnit hm
      obtain ⟨hge, hhigh, hlow⟩ := surrogates_of_join? hd
      rw [hhigh] at hw
      rw [hlow] at hu
      exact ⟨_, .pair hge hw hu, (List.append_assoc ..).symm⟩
    · next hplain =>
      cases h
      have hlt := hw.lt
      simp only [isSurrogate, Bool.and_eq_true, decide_eq_true_eq] at hplain
      rw [← toNat_ofNat (k := n) (by omega)] at hw
      exact ⟨_, .code hw, rfl⟩

theorem SpellsChar.ne_nil (h : SpellsChar c w) : w ≠ [] := by
  cases h <;> simp

theorem length_lt_of_readChar (h : readChar cs = some (c, r)) : r.length < cs.length := by
  obtain ⟨w, hw, rfl⟩ := exists_of_readChar h
  have := List.length_pos_iff.2 hw.ne_nil
  rw [List.length_append]
  omega

end Characters

/-- The characters up to a quote. -/
def readChars : Reader (List Char)
  | '"' :: r => some ([], r)
  | cs =>
    match _h : readChar cs with
    | none => none
    | some (c, r) => (readChars r).map fun (s, r) => (c :: s, r)
termination_by cs => cs.length
decreasing_by exact length_lt_of_readChar _h

section Texts

variable {s w cs r : List Char}

theorem ne_quote_of_spellsChar {c : Char} {w : List Char} (h : SpellsChar c w) (r : List Char) :
    ∀ z, w ++ r ≠ '"' :: z := by
  intro z hz
  cases h with
  | plain hc =>
    cases hz
    exact hc.2.1 rfl
  | _ => cases hz

theorem readChars_append (h : SpellsChars s w) (r : List Char) :
    readChars (w ++ '"' :: r) = some (s, r) := by
  induction h with
  | nil => rw [List.nil_append, readChars]
  | @cons c cs w z hc hcs ih =>
    rw [List.append_assoc, readChars]
    · split
      · next hnone =>
        rw [readChar_append hc] at hnone
        cases hnone
      · next d z' hsome =>
        rw [readChar_append hc] at hsome
        cases hsome
        rw [ih, Option.map_some]
    · exact ne_quote_of_spellsChar hc _

theorem exists_of_readChars (h : readChars cs = some (s, r)) :
    ∃ w, SpellsChars s w ∧ cs = w ++ '"' :: r := by
  fun_induction readChars cs generalizing s with
  | case1 z =>
    cases h
    exact ⟨[], .nil, rfl⟩
  | case2 => cases h
  | case3 cs hquote c z hc ih =>
    obtain ⟨⟨t, z'⟩, ht, heq⟩ := Option.map_eq_some_iff.1 h
    cases heq
    obtain ⟨w, hw, rfl⟩ := exists_of_readChar hc
    obtain ⟨u, hu, rfl⟩ := ih ht
    exact ⟨w ++ u, .cons hw hu, (List.append_assoc ..).symm⟩

end Texts

def readDigits (cs : List Char) : Option (List Char × List Char) :=
  if cs.takeWhile Char.isDigit = [] then none
  else some (cs.takeWhile Char.isDigit, cs.dropWhile Char.isDigit)

def readWhole (cs : List Char) : Option (List Char × List Char) :=
  (readDigits cs).filter fun (w, _) => w.head? ≠ some '0' || w = ['0']

def readPlaces : Reader (List Char)
  | '.' :: r => readDigits r
  | cs => some ([], cs)

def readExponent : Reader Int
  | [] => some (0, [])
  | e :: r =>
    if e = 'e' ∨ e = 'E' then
      (readDigits (Numeral.splitSign r).2).map fun (w, z) =>
        (signed (Numeral.splitSign r).1 (digitsValue w), z)
    else some (0, e :: r)

def splitMinus : List Char → Bool × List Char
  | '-' :: r => (true, r)
  | cs => (false, cs)

def readNumber (cs : List Char) : Option (Value × List Char) := do
  let (whole, r) ← readWhole (splitMinus cs).2
  let (places, r) ← readPlaces r
  let (x, r) ← readExponent r
  return (.number (splitMinus cs).1 ⟨digitsValue (whole ++ places), x - places.length⟩, r)

/-- A number cannot go on here. -/
def Ends (r : List Char) : Prop := ∀ c ∈ r.head?, isBlank c = true ∨ c ∈ [',', ']', '}']

section Numbers

variable {w z cs r : List Char} {x : Int} {negative : Bool} {d : Numeral.Decimal}

theorem Ends.not_isDigit (h : Ends r) : ∀ c ∈ r.head?, c.isDigit = false := by
  intro c hc
  have hend := h c hc
  simp only [isBlank, decide_eq_true_eq, List.mem_cons, List.not_mem_nil, or_false] at hend
  rcases hend with (rfl | rfl | rfl | rfl) | (rfl | rfl | rfl) <;> rfl

theorem Ends.not_mem (h : Ends r) : ∀ c ∈ r.head?, c ≠ '.' ∧ c ≠ 'e' ∧ c ≠ 'E' := by
  intro c hc
  have hend := h c hc
  simp only [isBlank, decide_eq_true_eq, List.mem_cons, List.not_mem_nil, or_false] at hend
  rcases hend with (rfl | rfl | rfl | rfl) | (rfl | rfl | rfl) <;> decide

theorem readDigits_append (hw : IsDigits w) (hr : ∀ c ∈ r.head?, c.isDigit = false) :
    readDigits (w ++ r) = some (w, r) := by
  obtain ⟨htake, hdrop⟩ := takeWhile_append_stop hw.2 hr
  rw [readDigits, htake, hdrop, if_neg hw.1]

theorem of_readDigits (h : readDigits cs = some (w, r)) : IsDigits w ∧ cs = w ++ r := by
  obtain ⟨hne, heq⟩ := Option.ite_none_left_eq_some.1 h
  cases heq
  exact ⟨⟨hne, fun c => List.mem_takeWhile_imp⟩, List.takeWhile_append_dropWhile.symm⟩

theorem readWhole_append (hw : IsWhole w) (hr : ∀ c ∈ r.head?, c.isDigit = false) :
    readWhole (w ++ r) = some (w, r) := by
  rw [readWhole, readDigits_append hw.1 hr, Option.filter_some, if_pos]
  have hzero := hw.2
  simp only [Bool.or_eq_true, decide_eq_true_eq]
  tauto

theorem of_readWhole (h : readWhole cs = some (w, r)) : IsWhole w ∧ cs = w ++ r := by
  obtain ⟨hread, hzero⟩ := Option.filter_eq_some_iff.1 h
  obtain ⟨hdigits, hcs⟩ := of_readDigits hread
  simp only [Bool.or_eq_true, decide_eq_true_eq] at hzero
  exact ⟨⟨hdigits, fun h0 => hzero.resolve_left fun hne => hne h0⟩, hcs⟩

theorem readPlaces_append (h : SpellsPlaces w z) (hdigit : ∀ c ∈ r.head?, c.isDigit = false)
    (hpoint : r.head? ≠ some '.') : readPlaces (z ++ r) = some (w, r) := by
  cases h with
  | none =>
    unfold readPlaces
    split
    · simp_all
    · rfl
  | some hw => exact readDigits_append hw hdigit

theorem exists_of_readPlaces (h : readPlaces cs = some (w, r)) :
    ∃ z, SpellsPlaces w z ∧ cs = z ++ r := by
  unfold readPlaces at h
  split at h
  · obtain ⟨hw, rfl⟩ := of_readDigits h
    exact ⟨_, .some hw, rfl⟩
  · cases h
    exact ⟨[], .none, rfl⟩

theorem splitSign_append (hz : Numeral.splitSign z = (negative, w)) (hw : w ≠ []) (r : List Char) :
    Numeral.splitSign (z ++ r) = (negative, w ++ r) := by
  cases z with
  | nil =>
    cases hz
    exact absurd rfl hw
  | cons c z =>
    unfold Numeral.splitSign at hz
    split at hz
    · next heq =>
      cases hz
      rw [heq]
      rfl
    · next heq =>
      cases hz
      rw [heq]
      rfl
    · cases hz
      unfold Numeral.splitSign
      split <;> simp_all

theorem exists_of_splitSign (h : Numeral.splitSign cs = (negative, w ++ r)) (hw : IsDigits w) :
    ∃ z, Numeral.splitSign z = (negative, w) ∧ cs = z ++ r := by
  unfold Numeral.splitSign at h
  split at h
  · cases h
    exact ⟨'-' :: w, rfl, rfl⟩
  · cases h
    exact ⟨'+' :: w, rfl, rfl⟩
  · cases h
    refine ⟨w, ?_, rfl⟩
    unfold Numeral.splitSign
    split
    · exact absurd (hw.2 '-' (by simp)) (by decide)
    · exact absurd (hw.2 '+' (by simp)) (by decide)
    · rfl

theorem readExponent_append (h : SpellsExponent x z) (hr : Ends r) :
    readExponent (z ++ r) = some (x, r) := by
  cases h with
  | none =>
    cases r with
    | nil => rfl
    | cons c r =>
      obtain ⟨-, he, hE⟩ := hr.not_mem c rfl
      rw [List.nil_append, readExponent, if_neg (by tauto)]
  | some he hz hw =>
    rw [List.cons_append, readExponent, if_pos he, splitSign_append hz hw.1,
      readDigits_append hw hr.not_isDigit, Option.map_some]

theorem exists_of_readExponent (h : readExponent cs = some (x, r)) :
    ∃ z, SpellsExponent x z ∧ cs = z ++ r := by
  unfold readExponent at h
  split at h
  · cases h
    exact ⟨[], .none, rfl⟩
  · next e s =>
    split at h
    · next he =>
      obtain ⟨⟨w, z⟩, hdigits, heq⟩ := Option.map_eq_some_iff.1 h
      cases heq
      obtain ⟨hw, hs⟩ := of_readDigits hdigits
      obtain ⟨z, hz, rfl⟩ := exists_of_splitSign (Prod.ext rfl hs) hw
      exact ⟨e :: z, .some he hz hw, rfl⟩
    · cases h
      exact ⟨[], .none, rfl⟩

theorem SpellsExponent.head? (h : SpellsExponent x z) (hr : Ends r) :
    ∀ c ∈ (z ++ r).head?, c.isDigit = false ∧ c ≠ '.' := by
  cases h with
  | none => exact fun c hc => ⟨hr.not_isDigit c hc, (hr.not_mem c hc).1⟩
  | some he hz hw =>
    intro c hc
    cases hc
    rcases he with rfl | rfl <;> decide

theorem SpellsPlaces.head? (h : SpellsPlaces w z) (hr : ∀ c ∈ r.head?, c.isDigit = false) :
    ∀ c ∈ (z ++ r).head?, c.isDigit = false := by
  cases h with
  | none => exact hr
  | some hw =>
    intro c hc
    cases hc
    rfl

theorem splitMinus_append (hw : IsDigits w) (r : List Char) :
    splitMinus (minus negative ++ w ++ r) = (negative, w ++ r) := by
  cases negative with
  | true => rfl
  | false =>
    cases w with
    | nil => exact absurd rfl hw.1
    | cons c w =>
      have hc := hw.2 c (List.mem_cons_self ..)
      unfold splitMinus
      split
      · next h =>
        cases h
        exact absurd hc (by decide)
      · rfl

theorem eq_minus_append (cs : List Char) :
    cs = minus (splitMinus cs).1 ++ (splitMinus cs).2 := by
  unfold splitMinus
  split <;> rfl

/-- Every spelling of a number is read, if a value can end behind it. -/
theorem readNumber_append (h : SpellsNumber negative d w) (hr : Ends r) :
    readNumber (w ++ r) = some (.number negative d, r) := by
  cases h with
  | @mk whole places fraction exponent x hw hf he =>
    have hexponent := he.head? hr
    have hpoint : (exponent ++ r).head? ≠ some '.' := fun hc => (hexponent _ hc).2 rfl
    have hdigit : ∀ c ∈ (exponent ++ r).head?, c.isDigit = false :=
      fun c hc => (hexponent c hc).1
    have hsplit : splitMinus (minus negative ++ whole ++ (fraction ++ (exponent ++ r))) = _ :=
      splitMinus_append hw.1 _
    have htext : minus negative ++ whole ++ fraction ++ exponent ++ r =
        minus negative ++ whole ++ (fraction ++ (exponent ++ r)) := by
      simp only [List.append_assoc]
    rw [htext, readNumber, hsplit]
    simp only [readWhole_append hw (hf.head? hdigit), readPlaces_append hf hdigit hpoint,
      readExponent_append he hr, Option.bind_eq_bind, Option.bind_some, Option.pure_def]

theorem exists_of_readNumber {v : Value} (h : readNumber cs = some (v, r)) :
    ∃ w negative d, SpellsNumber negative d w ∧ v = .number negative d ∧ cs = w ++ r := by
  simp only [readNumber, Option.bind_eq_bind, Option.bind_eq_some_iff, Option.pure_def,
    Prod.exists] at h
  obtain ⟨whole, r₁, hwhole, places, r₂, hplaces, x, r₃, hexponent, heq⟩ := h
  cases heq
  obtain ⟨hw, hbody⟩ := of_readWhole hwhole
  obtain ⟨fraction, hf, rfl⟩ := exists_of_readPlaces hplaces
  obtain ⟨exponent, he, rfl⟩ := exists_of_readExponent hexponent
  refine ⟨_, _, _, .mk hw hf he, rfl, ?_⟩
  have hcs := eq_minus_append cs
  rw [hbody] at hcs
  simpa only [List.append_assoc] using hcs

end Numbers

end BranchLog.Json
