import BranchLog.Proofs.JsonAtoms
import Mathlib

/-!
# Reading JSON documents

`read?` goes down through the values of a document. Main statement: it reads exactly the documents
of the grammar, each as the value that the grammar gives it; so a text stands for one value at
most.
-/
namespace BranchLog.Json

def skip (cs : List Char) : List Char := cs.dropWhile isBlank

def readPadded (read : Reader Value) (cs : List Char) : Option (Value × List Char) :=
  (read (skip cs)).map fun (v, r) => (v, skip r)

/-- Behind the key. -/
def readFieldValue (read : Reader Value) (key : List Char) (cs : List Char) :
    Option ((String × Value) × List Char) :=
  match skip cs with
  | ':' :: r => (readPadded read r).map fun (v, r) => ((String.ofList key, v), r)
  | _ => none

def readMember (read : Reader Value) (cs : List Char) : Option ((String × Value) × List Char) :=
  match skip cs with
  | '"' :: r => (readChars r).bind fun (key, r) => readFieldValue read key r
  | _ => none

/-- At most `n` elements with commas between them, and the sign that closes them. -/
def readSequence {α : Type} (readOne : Reader α) (close : Char) : (n : Nat) → Reader (List α)
  | 0, _ => none
  | n + 1, cs =>
    match readOne cs with
    | some (a, ',' :: r) => (readSequence readOne close n r).map fun (as, r) => (a :: as, r)
    | some (a, c :: r) => if c = close then some ([a], r) else none
    | _ => none

def readClosed {α : Type} (readOne : Reader α) (close : Char) (cs : List Char) :
    Option (List α × List Char) :=
  match skip cs with
  | [] => none
  | c :: r => if c = close then some ([], r) else readSequence readOne close cs.length cs

/-- Values that lie less than `n` deep. -/
def readValue : (n : Nat) → Reader Value
  | 0, _ => none
  | n + 1, cs =>
    match cs with
    | '"' :: r => (readChars r).map fun (s, r) => (.string (String.ofList s), r)
    | '[' :: r => (readClosed (readPadded (readValue n)) ']' r).map fun (vs, r) => (.array vs, r)
    | '{' :: r => (readClosed (readMember (readValue n)) '}' r).map fun (ms, r) => (.object ms, r)
    | 'n' :: 'u' :: 'l' :: 'l' :: r => some (.null, r)
    | 't' :: 'r' :: 'u' :: 'e' :: r => some (.bool true, r)
    | 'f' :: 'a' :: 'l' :: 's' :: 'e' :: r => some (.bool false, r)
    | cs => readNumber cs

/-- No text holds values that lie deeper than it is long. -/
def read? (text : List Char) : Option Value :=
  match readPadded (readValue (text.length + 1)) text with
  | some (v, []) => some v
  | _ => none

/-- An element of a sequence can end here. -/
def Stops (r : List Char) : Prop := ∀ c ∈ r.head?, c ∈ [',', ']', '}']

section Blanks

variable {b w r : List Char} {p : Phrase} {v : Value}

theorem skip_append (hb : IsBlanks b) (w : List Char) : skip (b ++ w) = skip w :=
  List.dropWhile_append_of_pos hb

theorem skip_cons {c : Char} (hc : isBlank c = false) (w : List Char) : skip (c :: w) = c :: w := by
  rw [skip, List.dropWhile_cons, hc]
  rfl

theorem exists_blanks (cs : List Char) : ∃ b, IsBlanks b ∧ cs = b ++ skip cs :=
  ⟨cs.takeWhile isBlank, fun _ => List.mem_takeWhile_imp, List.takeWhile_append_dropWhile.symm⟩

theorem Stops.skip_eq (h : Stops r) : skip r = r := by
  cases r with
  | nil => rfl
  | cons c r =>
    refine skip_cons ?_ r
    have hc := h c rfl
    simp only [List.mem_cons, List.not_mem_nil, or_false] at hc
    rcases hc with rfl | rfl | rfl <;> rfl

theorem Stops.ends (h : Stops r) (hb : IsBlanks b) : Ends (b ++ r) := by
  intro c hc
  cases b with
  | nil => exact .inr (h c hc)
  | cons d b =>
    cases hc
    exact .inl (hb c (List.mem_cons_self ..))

theorem stops_cons {c : Char} (h : c ∈ [',', ']', '}']) (r : List Char) : Stops (c :: r) := by
  intro d hd
  cases hd
  exact h

/-- Neither a blank nor the end of a sequence. -/
def Opens (c : Char) : Prop := isBlank c = false ∧ c ≠ ']' ∧ c ≠ '}'

theorem opens_of_isDigit {c : Char} (h : c.isDigit = true) : Opens c := by
  refine ⟨?_, ?_, ?_⟩
  · by_contra hb
    simp only [isBlank, Bool.not_eq_false, decide_eq_true_eq, List.mem_cons, List.not_mem_nil,
      or_false] at hb
    rcases hb with rfl | rfl | rfl | rfl <;> simp at h
  · rintro rfl
    simp at h
  · rintro rfl
    simp at h

theorem SpellsNumber.exists_cons {negative : Bool} {d : Numeral.Decimal}
    (h : SpellsNumber negative d w) : ∃ c z, w = c :: z ∧ (c = '-' ∨ c.isDigit = true) := by
  cases h with
  | @mk whole places fraction exponent x hw hf he =>
    cases negative with
    | true => exact ⟨_, _, rfl, .inl rfl⟩
    | false =>
      cases whole with
      | nil => exact absurd rfl hw.1.1
      | cons c whole => exact ⟨_, _, rfl, .inr (hw.1.2 c (List.mem_cons_self ..))⟩

theorem Spells.exists_cons (h : Spells (.value v) w) : ∃ c z, w = c :: z ∧ Opens c := by
  cases h with
  | number h =>
    obtain ⟨c, z, rfl, rfl | hc⟩ := h.exists_cons
    · exact ⟨_, _, rfl, by decide, by decide, by decide⟩
    · exact ⟨_, _, rfl, opens_of_isDigit hc⟩
  | _ => exact ⟨_, _, rfl, by decide, by decide, by decide⟩

theorem exists_skip_append {c : Char} {z : List Char} (h : skip w = c :: z) (r : List Char) :
    skip (w ++ r) = c :: (z ++ r) := by
  rw [skip, List.dropWhile_append, ← skip, h]
  rfl

theorem Spells.exists_skip (h : Spells p w) : ∃ c z, skip w = c :: z ∧ Opens c := by
  induction h with
  | padded hb h hb' ih =>
    obtain ⟨c, z, hskip, hc⟩ := ih
    exact ⟨c, _, by rw [List.append_assoc, skip_append hb, exists_skip_append hskip], hc⟩
  | item h ih => exact ih
  | items h hs ih ihs =>
    obtain ⟨c, z, hskip, hc⟩ := ih
    exact ⟨c, _, exists_skip_append hskip _, hc⟩
  | @member key v b w b' z hb hkey hb' h ih =>
    refine ⟨'"', w ++ ('"' :: b' ++ ':' :: z), ?_, by decide, by decide, by decide⟩
    rw [List.append_assoc, List.append_assoc, skip_append hb, List.cons_append,
      skip_cons (by decide)]
  | lastMember h ih => exact ih
  | members h hs ih ihs =>
    obtain ⟨c, z, hskip, hc⟩ := ih
    exact ⟨c, _, exists_skip_append hskip _, hc⟩
  | number h =>
    obtain ⟨c, z, rfl, hc⟩ := (Spells.number h).exists_cons
    exact ⟨c, z, skip_cons hc.1 z, hc⟩
  | _ => exact ⟨_, _, skip_cons (by decide) _, by decide, by decide, by decide⟩

end Blanks

/-- The reader of the phrase reads this text, whatever stands behind it. -/
def IsRead : Phrase → List Char → Prop
  | .value v, w => ∀ n r, w.length ≤ n → Ends r → readValue (n + 1) (w ++ r) = some (v, r)
  | .padded v, w => ∀ n r, w.length ≤ n → Stops r →
    readPadded (readValue (n + 1)) (w ++ r) = some (v, r)
  | .items vs, w => ∀ n k r, w.length ≤ n → w.length ≤ k →
    readSequence (readPadded (readValue (n + 1))) ']' (k + 1) (w ++ ']' :: r) = some (vs, r)
  | .member key v, w => ∀ n r, w.length ≤ n → Stops r →
    readMember (readValue (n + 1)) (w ++ r) = some ((key, v), r)
  | .members ms, w => ∀ n k r, w.length ≤ n → w.length ≤ k →
    readSequence (readMember (readValue (n + 1))) '}' (k + 1) (w ++ '}' :: r) = some (ms, r)

section Complete

variable {α : Type} {readOne : Reader α} {close : Char} {a : α} {as : List α}
  {b w z r : List Char} {n : Nat}

theorem readClosed_blanks (hb : IsBlanks b) (hclose : isBlank close = false) (r : List Char) :
    readClosed readOne close (b ++ close :: r) = some ([], r) := by
  rw [readClosed, skip_append hb, skip_cons hclose]
  exact if_pos rfl

theorem readClosed_elements {c : Char} (hw : skip w = c :: z) (hc : c ≠ close) (r : List Char) :
    readClosed readOne close (w ++ r) = readSequence readOne close (w ++ r).length (w ++ r) := by
  rw [readClosed, exists_skip_append hw]
  exact if_neg hc

theorem readSequence_last (hclose : close ≠ ',')
    (h : readOne (w ++ close :: r) = some (a, close :: r)) :
    readSequence readOne close (n + 1) (w ++ close :: r) = some ([a], r) := by
  rw [readSequence, h]
  split
  · next heq =>
    cases heq
    exact absurd rfl hclose
  · next heq =>
    cases heq
    exact if_pos rfl
  · next h₁ h₂ => exact absurd rfl (h₂ _ _ _)

theorem readSequence_more (h : readOne (w ++ ',' :: z) = some (a, ',' :: z))
    (hs : readSequence readOne close n z = some (as, r)) :
    readSequence readOne close (n + 1) (w ++ ',' :: z) = some (a :: as, r) := by
  rw [readSequence, h]
  simp only [hs, Option.map_some]

theorem readValue_eq_readNumber {c : Char} (h : c = '-' ∨ c.isDigit = true) (r : List Char) :
    readValue (n + 1) (c :: r) = readNumber (c :: r) := by
  rw [readValue]
  all_goals
    intro z heq
    cases heq
    simp at h

theorem isRead_padded {v : Value} {b' : List Char} (hb : IsBlanks b) (h : Spells (.value v) w)
    (hw : IsRead (.value v) w) (hb' : IsBlanks b') : IsRead (.padded v) (b ++ w ++ b') := by
  intro n r hn hr
  obtain ⟨c, z, rfl, hc⟩ := h.exists_cons
  have hread := hw n (b' ++ r) (by simp only [List.length_append] at hn; omega) (hr.ends hb')
  rw [readPadded, List.append_assoc, List.append_assoc, skip_append hb, List.cons_append,
    skip_cons hc.1, ← List.cons_append, hread, Option.map_some]
  simp only [skip_append hb', hr.skip_eq]

theorem isRead_member {key : String} {v : Value} {b' : List Char} (hb : IsBlanks b)
    (hkey : SpellsChars key.toList w) (hb' : IsBlanks b') (h : IsRead (.padded v) z) :
    IsRead (.member key v) (b ++ '"' :: w ++ '"' :: b' ++ ':' :: z) := by
  intro n r hn hr
  have hread := h n r (by simp only [List.length_append, List.length_cons] at hn; omega) hr
  have htext : b ++ '"' :: w ++ '"' :: b' ++ ':' :: z ++ r =
      b ++ '"' :: (w ++ '"' :: (b' ++ ':' :: (z ++ r))) := by
    simp
  rw [htext, readMember, skip_append hb, skip_cons (by decide)]
  simp only [readChars_append hkey, Option.bind_some, readFieldValue, skip_append hb']
  rw [skip_cons (by decide)]
  simp only [hread, Option.map_some, String.ofList_toList]

theorem isRead_array {vs : List Value} (h : Spells (.items vs) w) (hw : IsRead (.items vs) w) :
    IsRead (.value (.array vs)) ('[' :: w ++ [']']) := by
  intro n r hn hr
  have htext : '[' :: w ++ [']'] ++ r = '[' :: (w ++ ']' :: r) := by simp
  obtain ⟨c, z, hskip, hc⟩ := h.exists_skip
  simp only [List.length_append, List.length_cons] at hn
  obtain ⟨m, rfl⟩ : ∃ m, n = m + 1 := ⟨n - 1, by omega⟩
  obtain ⟨k, hk⟩ : ∃ k, (w ++ ']' :: r).length = k + 1 := ⟨_, List.length_append⟩
  rw [List.length_append, List.length_cons] at hk
  rw [htext, readValue, readClosed_elements hskip hc.2.1, List.length_append, List.length_cons, hk,
    hw m k r (by omega) (by omega), Option.map_some]

theorem isRead_object {ms : List (String × Value)} (h : Spells (.members ms) w)
    (hw : IsRead (.members ms) w) : IsRead (.value (.object ms)) ('{' :: w ++ ['}']) := by
  intro n r hn hr
  have htext : '{' :: w ++ ['}'] ++ r = '{' :: (w ++ '}' :: r) := by simp
  obtain ⟨c, z, hskip, hc⟩ := h.exists_skip
  simp only [List.length_append, List.length_cons] at hn
  obtain ⟨m, rfl⟩ : ∃ m, n = m + 1 := ⟨n - 1, by omega⟩
  obtain ⟨k, hk⟩ : ∃ k, (w ++ '}' :: r).length = k + 1 := ⟨_, List.length_append⟩
  rw [List.length_append, List.length_cons] at hk
  rw [htext, readValue, readClosed_elements hskip hc.2.2, List.length_append, List.length_cons, hk,
    hw m k r (by omega) (by omega), Option.map_some]

/-- The reader reads all that the grammar spells. -/
theorem isRead_of_spells {p : Phrase} (h : Spells p w) : IsRead p w := by
  induction h with
  | null => exact fun n r hn hr => rfl
  | true => exact fun n r hn hr => rfl
  | false => exact fun n r hn hr => rfl
  | number h =>
    intro n r hn hr
    have hread := readNumber_append h hr
    obtain ⟨c, z, rfl, hc⟩ := h.exists_cons
    rwa [List.cons_append, readValue_eq_readNumber hc]
  | @string s w h =>
    intro n r hn hr
    have htext : '"' :: w ++ ['"'] ++ r = '"' :: (w ++ '"' :: r) := by simp
    rw [htext, readValue, readChars_append h, Option.map_some]
    simp only [String.ofList_toList]
  | @emptyArray b hb =>
    intro n r hn hr
    have htext : '[' :: b ++ [']'] ++ r = '[' :: (b ++ ']' :: r) := by simp
    rw [htext, readValue, readClosed_blanks hb (by decide), Option.map_some]
  | array h ih => exact isRead_array h ih
  | @emptyObject b hb =>
    intro n r hn hr
    have htext : '{' :: b ++ ['}'] ++ r = '{' :: (b ++ '}' :: r) := by simp
    rw [htext, readValue, readClosed_blanks hb (by decide), Option.map_some]
  | object h ih => exact isRead_object h ih
  | padded hb h hb' ih => exact isRead_padded hb h ih hb'
  | item h ih =>
    intro n k r hn hk
    exact readSequence_last (by decide) (ih n _ hn (stops_cons (by decide) r))
  | @items v vs w z h hs ih ihs =>
    intro n k r hn hk
    simp only [List.length_append, List.length_cons] at hn hk
    obtain ⟨k, rfl⟩ : ∃ m, k = m + 1 := ⟨k - 1, by omega⟩
    rw [List.append_assoc, List.cons_append]
    exact readSequence_more (ih n _ (by omega) (stops_cons (by decide) _))
      (ihs n k r (by omega) (by omega))
  | member hb hkey hb' h ih => exact isRead_member hb hkey hb' ih
  | lastMember h ih =>
    intro n k r hn hk
    exact readSequence_last (by decide) (ih n _ hn (stops_cons (by decide) r))
  | @members key v ms w z h hs ih ihs =>
    intro n k r hn hk
    simp only [List.length_append, List.length_cons] at hn hk
    obtain ⟨k, rfl⟩ : ∃ m, k = m + 1 := ⟨k - 1, by omega⟩
    rw [List.append_assoc, List.cons_append]
    exact readSequence_more (ih n _ (by omega) (stops_cons (by decide) _))
      (ihs n k r (by omega) (by omega))

end Complete

/-- Elements spelled one after the other with commas between them. -/
inductive Listed {α : Type} (P : α → List Char → Prop) : List α → List Char → Prop where
  | last {a : α} {w : List Char} (h : P a w) : Listed P [a] w
  | more {a : α} {as : List α} {w z : List Char} (h : P a w) (hs : Listed P as z) :
    Listed P (a :: as) (w ++ ',' :: z)

/-- What is read has a spelling. -/
def IsSound {α : Type} (read : Reader α) (P : α → List Char → Prop) : Prop :=
  ∀ cs a r, read cs = some (a, r) → ∃ w, P a w ∧ cs = w ++ r

section Sound

variable {α : Type} {readOne : Reader α} {read : Reader Value} {P : α → List Char → Prop}
  {close : Char}

theorem spells_items_of_listed {vs : List Value} {w : List Char}
    (h : Listed (fun v => Spells (.padded v)) vs w) : Spells (.items vs) w := by
  induction h with
  | last h => exact .item h
  | more h hs ih => exact .items h ih

theorem spells_members_of_listed {ms : List (String × Value)} {w : List Char}
    (h : Listed (fun m => Spells (.member m.1 m.2)) ms w) : Spells (.members ms) w := by
  induction h with
  | last h => exact .lastMember h
  | more h hs ih => exact .members h ih

theorem isSound_readPadded (hread : IsSound read fun v => Spells (.value v)) :
    IsSound (readPadded read) fun v => Spells (.padded v) := by
  intro cs v r h
  obtain ⟨⟨v, z⟩, hv, heq⟩ := Option.map_eq_some_iff.1 h
  cases heq
  obtain ⟨w, hw, hcs⟩ := hread _ _ _ hv
  obtain ⟨b, hb, hbcs⟩ := exists_blanks cs
  obtain ⟨b', hb', hz⟩ := exists_blanks z
  refine ⟨b ++ w ++ b', .padded hb hw hb', ?_⟩
  rw [hbcs, hcs, List.append_assoc, List.append_assoc, ← hz]

theorem exists_of_readFieldValue (hread : IsSound read fun v => Spells (.value v))
    {key cs r : List Char} {m : String × Value}
    (h : readFieldValue read key cs = some (m, r)) :
    ∃ b w, IsBlanks b ∧ Spells (.padded m.2) w ∧ m.1.toList = key ∧ cs = b ++ ':' :: w ++ r := by
  obtain ⟨b, hb, hcs⟩ := exists_blanks cs
  unfold readFieldValue at h
  split at h
  · next z hskip =>
    obtain ⟨⟨v, z'⟩, hv, heq⟩ := Option.map_eq_some_iff.1 h
    cases heq
    obtain ⟨w, hw, rfl⟩ := isSound_readPadded hread _ _ _ hv
    refine ⟨b, w, hb, hw, String.toList_ofList, ?_⟩
    rw [hcs, hskip, List.append_assoc, List.cons_append]
  · cases h

theorem isSound_readMember (hread : IsSound read fun v => Spells (.value v)) :
    IsSound (readMember read) fun m => Spells (.member m.1 m.2) := by
  intro cs m r h
  obtain ⟨b, hb, hcs⟩ := exists_blanks cs
  unfold readMember at h
  split at h
  · next z hskip =>
    obtain ⟨⟨key, z'⟩, hkey, hfield⟩ := Option.bind_eq_some_iff.1 h
    obtain ⟨w, hw, rfl⟩ := exists_of_readChars hkey
    obtain ⟨b', u, hb', hu, rfl, rfl⟩ := exists_of_readFieldValue hread hfield
    refine ⟨_, .member hb hw hb' hu, ?_⟩
    rw [hcs, hskip]
    simp
  · cases h

theorem listed_of_readSequence (hone : IsSound readOne P) {n : Nat} {cs r : List Char}
    {as : List α} (h : readSequence readOne close n cs = some (as, r)) :
    ∃ w, Listed P as w ∧ cs = w ++ close :: r := by
  induction n generalizing cs as with
  | zero => cases h
  | succ n ih =>
    rw [readSequence] at h
    split at h
    · next a z ha =>
      obtain ⟨⟨as, z'⟩, has, heq⟩ := Option.map_eq_some_iff.1 h
      cases heq
      obtain ⟨w, hw, rfl⟩ := hone _ _ _ ha
      obtain ⟨u, hu, rfl⟩ := ih has
      exact ⟨w ++ ',' :: u, .more hw hu, by simp⟩
    · next a c z _ ha =>
      obtain ⟨rfl, heq⟩ := Option.ite_none_right_eq_some.1 h
      cases heq
      obtain ⟨w, hw, rfl⟩ := hone _ _ _ ha
      exact ⟨w, .last hw, rfl⟩
    · cases h

theorem listed_of_readClosed (hone : IsSound readOne P) {cs r : List Char} {as : List α}
    (h : readClosed readOne close cs = some (as, r)) :
    ∃ w, (as = [] ∧ IsBlanks w ∨ Listed P as w) ∧ cs = w ++ close :: r := by
  unfold readClosed at h
  split at h
  · cases h
  · next c z hskip =>
    split at h
    · next hc =>
      cases h
      obtain ⟨b, hb, hcs⟩ := exists_blanks cs
      exact ⟨b, .inl ⟨rfl, hb⟩, by rw [hcs, hskip, hc]⟩
    · obtain ⟨w, hw, hcs⟩ := listed_of_readSequence hone h
      exact ⟨w, .inr hw, hcs⟩

/-- The grammar spells all that the reader reads. -/
theorem isSound_readValue (n : Nat) : IsSound (readValue n) fun v => Spells (.value v) := by
  induction n with
  | zero =>
    intro cs v r h
    cases h
  | succ n ih =>
    intro cs v r h
    unfold readValue at h
    split at h
    · obtain ⟨⟨s, z⟩, hs, heq⟩ := Option.map_eq_some_iff.1 h
      cases heq
      obtain ⟨w, hw, rfl⟩ := exists_of_readChars hs
      rw [← String.toList_ofList (l := s)] at hw
      exact ⟨_, .string hw, by simp⟩
    · obtain ⟨⟨vs, z⟩, hvs, heq⟩ := Option.map_eq_some_iff.1 h
      cases heq
      obtain ⟨w, ⟨rfl, hb⟩ | hw, rfl⟩ := listed_of_readClosed (isSound_readPadded ih) hvs
      · exact ⟨_, .emptyArray hb, by simp⟩
      · exact ⟨_, .array (spells_items_of_listed hw), by simp⟩
    · obtain ⟨⟨ms, z⟩, hms, heq⟩ := Option.map_eq_some_iff.1 h
      cases heq
      obtain ⟨w, ⟨rfl, hb⟩ | hw, rfl⟩ := listed_of_readClosed (isSound_readMember ih) hms
      · exact ⟨_, .emptyObject hb, by simp⟩
      · exact ⟨_, .object (spells_members_of_listed hw), by simp⟩
    · cases h
      exact ⟨_, .null, rfl⟩
    · cases h
      exact ⟨_, .true, rfl⟩
    · cases h
      exact ⟨_, .false, rfl⟩
    · obtain ⟨w, negative, d, hw, rfl, rfl⟩ := exists_of_readNumber h
      exact ⟨w, .number hw, rfl⟩

end Sound

theorem read?_eq_some_iff {v : Value} {text : List Char} :
    read? text = some v ↔ IsDocument v text := by
  constructor
  · intro h
    unfold read? at h
    split at h
    · next v' hread =>
      cases h
      obtain ⟨w, hw, rfl⟩ := isSound_readPadded (isSound_readValue _) _ _ _ hread
      rwa [List.append_nil]
    · cases h
  · intro h
    have hread := isRead_of_spells h text.length [] (Nat.le_refl _) (by simp [Stops])
    rw [List.append_nil] at hread
    rw [read?, hread]

end BranchLog.Json
