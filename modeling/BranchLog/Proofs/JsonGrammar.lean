import BranchLog.Json
import BranchLog.Numeral
import Mathlib

/-!
# The texts of JSON values

`Spells` relates a value to each text that stands for it: numbers with signs, points and exponents,
characters by themselves or escaped, blanks wherever the grammar has them. A document is a value
with blanks around it. `spells_write` says that the pretty form of a value is one of its texts.
-/
namespace BranchLog.Json

/-- All that a document can say. -/
inductive Value where
  | null
  | bool (b : Bool)
  | number (negative : Bool) (d : Numeral.Decimal)
  | string (s : String)
  | array (items : List Value)
  | object (members : List (String × Value))

def isBlank (c : Char) : Bool := c ∈ [' ', '\t', '\n', '\r']

def IsBlanks (w : List Char) : Prop := ∀ c ∈ w, isBlank c = true

def IsDigits (w : List Char) : Prop := w ≠ [] ∧ ∀ c ∈ w, c.isDigit = true

def digitsValue (w : List Char) : Nat := Nat.ofDigitChars 10 w 0

/-- The letters behind a backslash and what they stand for. -/
def shortEscapes : List (Char × Char) :=
  [('"', '"'), ('\\', '\\'), ('/', '/'), ('b', '\x08'), ('f', '\x0c'), ('n', '\n'), ('r', '\r'),
    ('t', '\t')]

/-- Four digits of base 16, in either case. -/
def IsCode (w : List Char) (n : Nat) : Prop := w.length = 4 ∧ Numeral.natural? 16 w = some n

/-- A character past the first 65536 is escaped by two surrogates; alone these stand for
nothing. -/
def highSurrogate (c : Char) : Nat := 0xd800 + (c.toNat - 0x10000) / 0x400

def lowSurrogate (c : Char) : Nat := 0xdc00 + (c.toNat - 0x10000) % 0x400

inductive SpellsChar : Char → List Char → Prop where
  | plain {c : Char} (hc : 0x20 ≤ c.toNat ∧ c ≠ '"' ∧ c ≠ '\\') : SpellsChar c [c]
  | short {c letter : Char} (h : (letter, c) ∈ shortEscapes) : SpellsChar c ['\\', letter]
  | code {c : Char} {w : List Char} (h : IsCode w c.toNat) : SpellsChar c ('\\' :: 'u' :: w)
  | pair {c : Char} {w z : List Char} (hc : 0x10000 ≤ c.toNat) (hw : IsCode w (highSurrogate c))
    (hz : IsCode z (lowSurrogate c)) : SpellsChar c ('\\' :: 'u' :: w ++ '\\' :: 'u' :: z)

/-- Without the quotes. -/
inductive SpellsChars : List Char → List Char → Prop where
  | nil : SpellsChars [] []
  | cons {c : Char} {cs w z : List Char} (hc : SpellsChar c w) (hcs : SpellsChars cs z) :
    SpellsChars (c :: cs) (w ++ z)

/-- No zero stands in front of other digits. -/
def IsWhole (w : List Char) : Prop := IsDigits w ∧ (w.head? = some '0' → w = ['0'])

/-- The digits behind the point, if there is one. -/
inductive SpellsPlaces : List Char → List Char → Prop where
  | none : SpellsPlaces [] []
  | some {w : List Char} (h : IsDigits w) : SpellsPlaces w ('.' :: w)

def signed (negative : Bool) (n : Nat) : Int := if negative then -n else n

inductive SpellsExponent : Int → List Char → Prop where
  | none : SpellsExponent 0 []
  | some {e : Char} {w z : List Char} {negative : Bool} (he : e = 'e' ∨ e = 'E')
    (hz : Numeral.splitSign z = (negative, w)) (hw : IsDigits w) :
    SpellsExponent (signed negative (digitsValue w)) (e :: z)

def minus (negative : Bool) : List Char := if negative then ['-'] else []

inductive SpellsNumber (negative : Bool) : Numeral.Decimal → List Char → Prop where
  | mk {whole places fraction exponent : List Char} {x : Int} (hw : IsWhole whole)
    (hf : SpellsPlaces places fraction) (he : SpellsExponent x exponent) :
    SpellsNumber negative ⟨digitsValue (whole ++ places), x - places.length⟩
      (minus negative ++ whole ++ fraction ++ exponent)

/-- What the grammar has a name for. -/
inductive Phrase where
  | value (v : Value)
  | padded (v : Value)
  | items (vs : List Value)
  | member (key : String) (v : Value)
  | members (ms : List (String × Value))

inductive Spells : Phrase → List Char → Prop where
  | null : Spells (.value .null) "null".toList
  | true : Spells (.value (.bool true)) "true".toList
  | false : Spells (.value (.bool false)) "false".toList
  | number {negative : Bool} {d : Numeral.Decimal} {w : List Char}
    (h : SpellsNumber negative d w) : Spells (.value (.number negative d)) w
  | string {s : String} {w : List Char} (h : SpellsChars s.toList w) :
    Spells (.value (.string s)) ('"' :: w ++ ['"'])
  | emptyArray {b : List Char} (hb : IsBlanks b) : Spells (.value (.array [])) ('[' :: b ++ [']'])
  | array {vs : List Value} {w : List Char} (h : Spells (.items vs) w) :
    Spells (.value (.array vs)) ('[' :: w ++ [']'])
  | emptyObject {b : List Char} (hb : IsBlanks b) :
    Spells (.value (.object [])) ('{' :: b ++ ['}'])
  | object {ms : List (String × Value)} {w : List Char} (h : Spells (.members ms) w) :
    Spells (.value (.object ms)) ('{' :: w ++ ['}'])
  | padded {v : Value} {b w b' : List Char} (hb : IsBlanks b) (h : Spells (.value v) w)
    (hb' : IsBlanks b') : Spells (.padded v) (b ++ w ++ b')
  | item {v : Value} {w : List Char} (h : Spells (.padded v) w) : Spells (.items [v]) w
  | items {v : Value} {vs : List Value} {w z : List Char} (h : Spells (.padded v) w)
    (hs : Spells (.items vs) z) : Spells (.items (v :: vs)) (w ++ ',' :: z)
  | member {key : String} {v : Value} {b w b' z : List Char} (hb : IsBlanks b)
    (hkey : SpellsChars key.toList w) (hb' : IsBlanks b') (h : Spells (.padded v) z) :
    Spells (.member key v) (b ++ '"' :: w ++ '"' :: b' ++ ':' :: z)
  | lastMember {key : String} {v : Value} {w : List Char} (h : Spells (.member key v) w) :
    Spells (.members [(key, v)]) w
  | members {key : String} {v : Value} {ms : List (String × Value)} {w z : List Char}
    (h : Spells (.member key v) w) (hs : Spells (.members ms) z) :
    Spells (.members ((key, v) :: ms)) (w ++ ',' :: z)

def IsDocument (v : Value) (text : List Char) : Prop := Spells (.padded v) text

theorem IsDocument.append_blanks {v : Value} {text b : List Char} (h : IsDocument v text)
    (hb : IsBlanks b) : IsDocument v (text ++ b) := by
  cases h with
  | padded hb' h hb'' =>
    rw [List.append_assoc]
    exact .padded hb' h (List.forall_mem_append.2 ⟨hb'', hb⟩)

theorem isBlanks_nil : IsBlanks [] := List.forall_mem_nil _

theorem isBlanks_space : IsBlanks [' '] := by simp [IsBlanks, isBlank]

theorem isBlanks_newLine (depth : Nat) : IsBlanks (newLine depth) := by
  intro c hc
  rw [newLine, List.mem_cons, List.mem_replicate] at hc
  rcases hc with rfl | ⟨-, rfl⟩ <;> rfl

theorem isCode_escape {n : Nat} (h : n < 0x20) :
    IsCode ['0', '0', Nat.digitChar (n / 16), Nat.digitChar (n % 16)] n := by
  refine ⟨rfl, ?_⟩
  interval_cases n <;> rfl

theorem spells_escape (c : Char) : SpellsChar c (escape c) := by
  unfold escape
  split
  case h_8 =>
    split
    · next h => exact .code (isCode_escape h)
    · next hquote hslash _ _ _ _ _ h => exact .plain ⟨not_lt.1 h, hquote, hslash⟩
  all_goals exact .short (by decide)

theorem spells_escapes (cs : List Char) : SpellsChars cs (cs.flatMap escape) := by
  induction cs with
  | nil => exact .nil
  | cons c cs ih =>
    rw [List.flatMap_cons]
    exact .cons (spells_escape c) ih

theorem head?_toDigits {n : Nat} (h : (Nat.toDigits 10 n).head? = some '0') : n = 0 := by
  induction n using Nat.strongRecOn with
  | ind n ih =>
    by_cases hn : n < 10
    · rw [Nat.toDigits_of_lt_base hn] at h
      interval_cases n <;> simp_all
    · rw [Nat.toDigits_eq_if (by decide), if_neg hn,
        List.head?_append_of_ne_nil _ Nat.toDigits_ne_nil] at h
      have hzero := ih (n / 10) (by omega) h
      omega

theorem isWhole_toDigits (n : Nat) : IsWhole (Nat.toDigits 10 n) := by
  refine ⟨⟨Nat.toDigits_ne_nil, fun c hc => ?_⟩, fun h => ?_⟩
  · exact Nat.isDigit_of_mem_toDigits (by decide) (by decide) hc
  · rw [head?_toDigits h]
    rfl

theorem spells_number (n : Nat) : SpellsNumber false ⟨n, 0⟩ (Nat.toDigits 10 n) := by
  have h : SpellsNumber false _ _ := .mk (isWhole_toDigits n) .none .none
  rw [List.append_nil, digitsValue, Nat.ofDigitChars_ten_toDigits] at h
  simpa [minus] using h

mutual

def value : Json → Value
  | .bool b => .bool b
  | .number n => .number false ⟨n, 0⟩
  | .string s => .string s
  | .array items => .array (values items)
  | .object members => .object (memberValues members)

def values : List Json → List Value
  | [] => []
  | item :: items => item.value :: values items

def memberValues : List (String × Json) → List (String × Value)
  | [] => []
  | (key, v) :: members => (key, v.value) :: memberValues members

end

theorem values_eq_map (items : List Json) : values items = items.map value := by
  induction items with
  | nil => rfl
  | cons item items ih => rw [values, ih, List.map_cons]

theorem memberValues_eq_map (members : List (String × Json)) :
    memberValues members = members.map fun m => (m.1, m.2.value) := by
  induction members with
  | nil => rfl
  | cons m members ih => rw [memberValues, ih, List.map_cons]

mutual

theorem spells_write (depth : Nat) : (j : Json) → Spells (.value j.value) (j.write depth)
  | .bool true => .true
  | .bool false => .false
  | .number n => .number (spells_number n)
  | .string s => .string (spells_escapes s.toList)
  | .array [] => .emptyArray isBlanks_nil
  | .array (item :: items) => by
    have h := spells_items (depth + 1) (isBlanks_newLine depth)
      (spells_write (depth + 1) item) items
    simpa [write, value, values] using Spells.array h
  | .object [] => .emptyObject isBlanks_nil
  | .object ((key, v) :: members) => by
    have h := spells_members (depth + 1) (isBlanks_newLine depth) key
      (spells_write (depth + 1) v) members
    simpa [write, value, memberValues, quote] using Spells.object h

theorem spells_items (depth : Nat) {b : List Char} (hb : IsBlanks b) {v : Value} {w : List Char}
    (h : Spells (.value v) w) : (items : List Json) →
      Spells (.items (v :: values items)) (newLine depth ++ w ++ writeItems depth items ++ b)
  | [] => by
    simpa [writeItems, values] using Spells.item (.padded (isBlanks_newLine depth) h hb)
  | item :: items => by
    have hs := spells_items depth hb (spells_write depth item) items
    simpa [writeItems, values] using
      Spells.items (.padded (isBlanks_newLine depth) h isBlanks_nil) hs

theorem spells_members (depth : Nat) {b : List Char} (hb : IsBlanks b) (key : String) {v : Value}
    {w : List Char} (h : Spells (.value v) w) : (members : List (String × Json)) →
      Spells (.members ((key, v) :: memberValues members))
        (newLine depth ++ quote key ++ [':', ' '] ++ w ++ writeMembers depth members ++ b)
  | [] => by
    have hone := Spells.member (isBlanks_newLine depth) (spells_escapes key.toList) isBlanks_nil
      (.padded isBlanks_space h hb)
    simpa [writeMembers, memberValues, quote] using Spells.lastMember hone
  | (key', v') :: members => by
    have hs := spells_members depth hb key' (spells_write depth v') members
    have hone := Spells.member (isBlanks_newLine depth) (spells_escapes key.toList) isBlanks_nil
      (.padded isBlanks_space h isBlanks_nil)
    simpa [writeMembers, memberValues, quote] using Spells.members hone hs

end

theorem isDocument_pretty (j : Json) : IsDocument j.value j.pretty := by
  have h := Spells.padded isBlanks_nil (spells_write 0 j) isBlanks_nil
  rwa [List.nil_append, List.append_nil] at h

end BranchLog.Json
