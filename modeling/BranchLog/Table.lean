/-!
# Tables with ascending keys

A finite map, kept as its entries in strictly ascending order of keys. Equal maps are equal
values, and `entries` is the order in which a report lists them. `get?_alter` says what every
change does to every look-up.
-/
namespace BranchLog

structure Table (κ α : Type) [LT κ] where
  entries : List (κ × α)
  ascending : entries.Pairwise (fun a b => a.1 < b.1)

namespace Table

section Entries

variable {κ α : Type}

/-- The entry for `k`, if there is a value for it. -/
def entry (k : κ) (a : Option α) : List (κ × α) := (a.map (k, ·)).toList

/-- Changes the value at `k`; no value stands for no entry. -/
def alterEntries [LT κ] [DecidableLT κ] (k : κ) (f : Option α → Option α) :
    List (κ × α) → List (κ × α)
  | [] => entry k (f none)
  | e :: r =>
    if k < e.1 then entry k (f none) ++ e :: r
    else if e.1 < k then e :: alterEntries k f r
    else entry k (f (some e.2)) ++ r

theorem fst_of_mem_entry {k : κ} {a : Option α} {e : κ × α} (h : e ∈ entry k a) : e.1 = k := by
  cases a with
  | none => simp [entry] at h
  | some a => simp [entry] at h; simp [h]

theorem pairwise_entry_append [LT κ] {k : κ} {a : Option α} {es : List (κ × α)}
    (hs : es.Pairwise (fun a b => a.1 < b.1)) (hk : ∀ e ∈ es, k < e.1) :
    (entry k a ++ es).Pairwise (fun a b => a.1 < b.1) := by
  cases a with
  | none => simpa [entry] using hs
  | some a => exact List.pairwise_cons.2 ⟨fun e he => hk e he, hs⟩

theorem mem_alterEntries [LT κ] [DecidableLT κ] {k : κ} {f : Option α → Option α}
    {es : List (κ × α)} {e : κ × α} (h : e ∈ alterEntries k f es) : e.1 = k ∨ e ∈ es := by
  induction es with
  | nil => exact .inl (fst_of_mem_entry h)
  | cons d r ih =>
    simp only [alterEntries] at h
    split at h
    · exact (List.mem_append.1 h).imp fst_of_mem_entry id
    · split at h
      · rcases List.mem_cons.1 h with rfl | h
        · exact .inr (List.mem_cons_self ..)
        · exact (ih h).imp id (List.mem_cons_of_mem _)
      · exact (List.mem_append.1 h).imp fst_of_mem_entry (List.mem_cons_of_mem _)

theorem lookup_eq_none [DecidableEq κ] {k : κ} {es : List (κ × α)} (h : ∀ e ∈ es, e.1 ≠ k) :
    es.lookup k = none :=
  List.lookup_eq_none_iff.2 fun e he => by simpa using (h e he).symm

theorem lookup_entry_append [DecidableEq κ] (k j : κ) (a : Option α) (es : List (κ × α)) :
    (entry k a ++ es).lookup j = if j = k then a.or (es.lookup j) else es.lookup j := by
  cases a with
  | none => simp [entry]
  | some a =>
    by_cases h : j = k
    · simp [entry, h]
    · have hb : (j == k) = false := by simpa using h
      simp [entry, List.lookup_cons, h, hb]

end Entries

section Ordered

variable {κ α : Type} [LT κ] [LE κ] [Std.IsLinearOrder κ] [Std.LawfulOrderLT κ]

theorem eq_of_not_lt {a b : κ} (h : ¬a < b) (h' : ¬b < a) : a = b :=
  Std.le_antisymm (Std.not_lt.1 h') (Std.not_lt.1 h)

theorem lookup_eq_none_of_lt [DecidableEq κ] {k : κ} {e : κ × α} {r : List (κ × α)}
    (hs : (e :: r).Pairwise (fun a b => a.1 < b.1)) (hk : k < e.1) : (e :: r).lookup k = none :=
  lookup_eq_none fun d hd => by
    rcases List.mem_cons.1 hd with rfl | hd
    · exact (Std.ne_of_lt hk).symm
    · exact (Std.ne_of_lt (Std.lt_trans hk (List.rel_of_pairwise_cons hs hd))).symm

variable [DecidableLT κ]

theorem pairwise_alterEntries (k : κ) (f : Option α → Option α) {es : List (κ × α)}
    (hs : es.Pairwise (fun a b => a.1 < b.1)) :
    (alterEntries k f es).Pairwise (fun a b => a.1 < b.1) := by
  induction es with
  | nil => simpa [alterEntries] using pairwise_entry_append (k := k) (a := f none) hs (by simp)
  | cons d r ih =>
    obtain ⟨hd, hr⟩ := List.pairwise_cons.1 hs
    simp only [alterEntries]
    split
    · next hlt =>
      refine pairwise_entry_append hs fun e he => ?_
      rcases List.mem_cons.1 he with rfl | he
      · exact hlt
      · exact Std.lt_trans hlt (hd e he)
    · split
      · next hgt =>
        refine List.pairwise_cons.2 ⟨fun e he => ?_, ih hr⟩
        rcases mem_alterEntries he with h | h
        · exact h ▸ hgt
        · exact hd e h
      · next hlt hgt =>
        exact pairwise_entry_append hr fun e he => eq_of_not_lt hlt hgt ▸ hd e he

theorem lookup_alterEntries [DecidableEq κ] (k j : κ) (f : Option α → Option α)
    {es : List (κ × α)} (hs : es.Pairwise (fun a b => a.1 < b.1)) :
    (alterEntries k f es).lookup j = if j = k then f (es.lookup k) else es.lookup j := by
  induction es with
  | nil => simpa [alterEntries] using lookup_entry_append k j (f none) []
  | cons d r ih =>
    obtain ⟨hd, hr⟩ := List.pairwise_cons.1 hs
    simp only [alterEntries]
    split
    · next hlt =>
      rw [lookup_entry_append]
      by_cases h : j = k
      · subst h; simp [lookup_eq_none_of_lt hs hlt]
      · simp [h]
    · split
      · next hgt =>
        rw [List.lookup_cons, List.lookup_cons, List.lookup_cons, ih hr]
        have hk : (k == d.1) = false := by simpa using (Std.ne_of_lt hgt).symm
        by_cases h : j = k
        · subst h; simp [hk]
        · simp [h]
      · next hlt hgt =>
        have hkd : k = d.1 := eq_of_not_lt hlt hgt
        have hkr : r.lookup k = none :=
          lookup_eq_none fun e he => hkd ▸ (Std.ne_of_lt (hd e he)).symm
        rw [lookup_entry_append, List.lookup_cons, List.lookup_cons]
        by_cases h : j = k
        · subst h; simp [hkr, ← hkd]
        · have hb : (j == d.1) = false := by simpa [← hkd] using h
          simp [h, hb]

end Ordered

section Operations

variable {κ α : Type} [LT κ]

def empty : Table κ α := ⟨[], .nil⟩

def keys (t : Table κ α) : List κ := t.entries.map Prod.fst

def get? [DecidableEq κ] (t : Table κ α) (k : κ) : Option α := t.entries.lookup k

def contains [DecidableEq κ] (t : Table κ α) (k : κ) : Bool := (t.get? k).isSome

theorem mem_keys_iff [DecidableEq κ] {t : Table κ α} {k : κ} :
    k ∈ t.keys ↔ (t.get? k).isSome := by
  rw [keys, get?, List.lookup_isSome_iff]
  simp

theorem get?_eq_some_iff [LE κ] [Std.LawfulOrderLT κ] [DecidableEq κ] {t : Table κ α} {k : κ}
    {a : α} : t.get? k = some a ↔ (k, a) ∈ t.entries := by
  constructor
  · intro h
    obtain ⟨before, after, heq, -⟩ := List.lookup_eq_some_iff.1 h
    simp [heq]
  · intro h
    obtain ⟨before, after, heq⟩ := List.append_of_mem h
    have hascending := t.ascending
    rw [heq, List.pairwise_append] at hascending
    refine List.lookup_eq_some_iff.2 ⟨before, after, heq, fun d hd => ?_⟩
    have hlt := hascending.2.2 d hd _ List.mem_cons_self
    simpa using (Std.ne_of_lt hlt).symm

variable [LE κ] [Std.IsLinearOrder κ] [Std.LawfulOrderLT κ] [DecidableLT κ]

def alter (t : Table κ α) (k : κ) (f : Option α → Option α) : Table κ α :=
  ⟨alterEntries k f t.entries, pairwise_alterEntries k f t.ascending⟩

def insert (t : Table κ α) (k : κ) (a : α) : Table κ α := t.alter k fun _ => some a

/-- Of several entries with one key the last counts. -/
def ofList (es : List (κ × α)) : Table κ α := es.foldl (fun t e => t.insert e.1 e.2) empty

theorem get?_alter [DecidableEq κ] (t : Table κ α) (k j : κ) (f : Option α → Option α) :
    (t.alter k f).get? j = if j = k then f (t.get? k) else t.get? j :=
  lookup_alterEntries k j f t.ascending

theorem isSome_get?_ofList [DecidableEq κ] (es : List (κ × α)) (k : κ) :
    ((ofList es).get? k).isSome = (es.lookup k).isSome := by
  have hfold (t : Table κ α) : ((es.foldl (fun t e => t.insert e.1 e.2) t).get? k).isSome =
      ((es.lookup k).isSome || (t.get? k).isSome) := by
    induction es generalizing t with
    | nil => simp
    | cons e r ih =>
      rw [List.foldl_cons, ih, insert, get?_alter, List.lookup_cons]
      by_cases hk : k = e.1
      · simp [hk]
      · have hb : (k == e.1) = false := by simpa using hk
        simp [hk, hb]
  rw [ofList, hfold, empty, get?, List.lookup_nil]
  simp

end Operations

end Table

end BranchLog
