/-!
# White space and the fields between it

`isBlank` is the Unicode property White_Space. The fields of a text are its maximal runs of other
characters; `fields_append_cons` says that a blank separates, and `blank_free_of_mem_fields` that
nothing else remains.
-/
namespace BranchLog.Text

/-- First and last code points of the ranges of White_Space. -/
def blankRanges : List (Nat × Nat) :=
  [(0x9, 0xd), (0x20, 0x20), (0x85, 0x85), (0xa0, 0xa0), (0x1680, 0x1680), (0x2000, 0x200a),
    (0x2028, 0x2029), (0x202f, 0x202f), (0x205f, 0x205f), (0x3000, 0x3000)]

def isBlank (c : Char) : Bool :=
  blankRanges.any fun r => r.1 ≤ c.toNat && c.toNat ≤ r.2

def fields (cs : List Char) : List (List Char) :=
  (cs.splitOnP isBlank).filter (!·.isEmpty)

@[simp]
theorem fields_nil : fields [] = [] := rfl

theorem fields_append_cons {cs : List Char} (hcs : ∀ c ∈ cs, isBlank c = false) {b : Char}
    (hb : isBlank b) (r : List Char) :
    fields (cs ++ b :: r) = (if cs.isEmpty then [] else [cs]) ++ fields r := by
  rw [fields, List.splitOnP_append_cons_of_forall_mem hcs b hb, List.filter_cons]
  cases cs <;> rfl

theorem fields_of_blank_free {cs : List Char} (hcs : ∀ c ∈ cs, isBlank c = false) :
    fields cs = if cs.isEmpty then [] else [cs] := by
  rw [fields, List.splitOnP_eq_singleton hcs, List.filter_cons]
  cases cs <;> rfl

theorem ne_nil_of_mem_fields {f cs : List Char} (h : f ∈ fields cs) : f ≠ [] := by
  have := (List.mem_filter.1 h).2
  cases f with
  | nil => simp at this
  | cons => simp

theorem blank_free_of_mem_splitOnP {p : Char → Bool} {f cs : List Char}
    (h : f ∈ cs.splitOnP p) : ∀ c ∈ f, p c = false := by
  induction cs generalizing f with
  | nil => simp at h; simp [h]
  | cons d r ih =>
    rw [List.splitOnP_cons_eq_if_modifyHead] at h
    split at h
    · rcases List.mem_cons.1 h with rfl | h
      · simp
      · exact ih h
    · next hd =>
      cases hs : r.splitOnP p with
      | nil => simp [hs] at h
      | cons g gs =>
        rw [hs, List.modifyHead_cons] at h
        rcases List.mem_cons.1 h with rfl | h
        · intro c hc
          rcases List.mem_cons.1 hc with rfl | hc
          · simpa using hd
          · exact ih (hs ▸ List.mem_cons_self ..) c hc
        · exact ih (hs ▸ List.mem_cons_of_mem _ h)

theorem blank_free_of_mem_fields {f cs : List Char} (h : f ∈ fields cs) :
    ∀ c ∈ f, isBlank c = false :=
  blank_free_of_mem_splitOnP (List.mem_filter.1 h).1

end BranchLog.Text
