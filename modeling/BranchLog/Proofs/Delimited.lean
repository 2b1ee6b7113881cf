import Mathlib

/-!
# Codes that show where they end

A value is written and other text follows. `Delimited T write` says that the whole tells both
apart, as long as `T` holds of what follows. Such codes can be put one behind the other, and the
items of a list can be, if no item begins as what follows the list does.
-/
namespace BranchLog

def Delimited {α : Type} (T : List Char → Prop) (write : α → List Char) : Prop :=
  ∀ ⦃a b : α⦄ ⦃x y : List Char⦄, T x → T y → write a ++ x = write b ++ y → a = b ∧ x = y

section Stops

variable {α : Type} {p : α → Bool} {w r : List α}

theorem takeWhile_append_stop (hw : ∀ a ∈ w, p a = true) (hr : ∀ a ∈ r.head?, p a = false) :
    (w ++ r).takeWhile p = w ∧ (w ++ r).dropWhile p = r := by
  rw [List.takeWhile_append_of_pos hw, List.dropWhile_append_of_pos hw]
  cases r with
  | nil => simp
  | cons a r =>
    have ha := hr a rfl
    simp [ha]

/-- A text is cut where the first `a` stands. -/
theorem takeWhile_ne_append [DecidableEq α] {a : α} (hw : a ∉ w) (hr : ∀ b ∈ r.head?, b = a) :
    (w ++ r).takeWhile (· ≠ a) = w ∧ (w ++ r).dropWhile (· ≠ a) = r := by
  refine takeWhile_append_stop (fun b hb => ?_) fun b hb => ?_
  · exact decide_eq_true (ne_of_mem_of_not_mem hb hw)
  · exact decide_eq_false (not_not.2 (hr b hb))

theorem eq_of_append_cons_eq [DecidableEq α] {a : α} {u v x y : List α} (hu : a ∉ u) (hv : a ∉ v)
    (h : u ++ a :: x = v ++ a :: y) : u = v ∧ x = y := by
  obtain ⟨hu, hx⟩ := takeWhile_ne_append hu (r := a :: x) (by simp)
  obtain ⟨hv, hy⟩ := takeWhile_ne_append hv (r := a :: y) (by simp)
  rw [h] at hu hx
  exact ⟨hu.symm.trans hv, List.tail_eq_of_cons_eq (hx.symm.trans hy)⟩

end Stops

theorem toDigits_injective : (Nat.toDigits 10).Injective := by
  intro m n h
  have hread := congrArg (Nat.ofDigitChars 10 · 0) h
  simpa only [Nat.ofDigitChars_ten_toDigits] using hread

theorem notMem_toDigits {c : Char} (hc : c.isDigit = false) (n : Nat) : c ∉ Nat.toDigits 10 n := by
  intro hmem
  have hdigit := Nat.isDigit_of_mem_toDigits (by decide) (by decide) hmem
  rw [hc] at hdigit
  cases hdigit

/-- A number at the end of a text is told from what stands before it by a character that is no
digit, whatever else there is. -/
theorem eq_of_append_toDigits_eq {c : Char} (hc : c.isDigit = false) {u v : List Char} {m n : Nat}
    (h : u ++ c :: Nat.toDigits 10 m = v ++ c :: Nat.toDigits 10 n) : u = v ∧ m = n := by
  have hmem (k : Nat) : c ∉ (Nat.toDigits 10 k).reverse := by
    rw [List.mem_reverse]
    exact notMem_toDigits hc k
  have hrev := congrArg List.reverse h
  simp only [List.reverse_append, List.reverse_cons, List.append_assoc,
    List.singleton_append] at hrev
  obtain ⟨hnum, hrest⟩ := eq_of_append_cons_eq (hmem m) (hmem n) hrev
  exact ⟨List.reverse_injective hrest, toDigits_injective (List.reverse_injective hnum)⟩

namespace Delimited

variable {α β : Type} {T U : List Char → Prop} {v : α → List Char} {w : β → List Char}

theorem prefixed (hv : Delimited T v) (z : List Char) : Delimited T fun a => z ++ v a := by
  intro a b x y hx hy h
  rw [List.append_assoc, List.append_assoc] at h
  exact hv hx hy (List.append_cancel_left h)

theorem append (hv : Delimited T v) (hw : Delimited U w) (hT : ∀ b x, U x → T (w b ++ x)) :
    Delimited U fun p : α × β => v p.1 ++ w p.2 := by
  rintro ⟨a, b⟩ ⟨a', b'⟩ x y hx hy h
  simp only [List.append_assoc] at h
  obtain ⟨rfl, hrest⟩ := hv (hT b x hx) (hT b' y hy) h
  obtain ⟨rfl, rfl⟩ := hw hx hy hrest
  exact ⟨rfl, rfl⟩

/-- Nothing need be known of what follows a character that stands nowhere else. -/
theorem ended (hv : v.Injective) {c : Char} (hc : ∀ a, c ∉ v a) :
    Delimited (fun _ => True) fun a => v a ++ [c] := by
  intro a b x y _ _ h
  simp only [List.append_assoc, List.singleton_append] at h
  obtain ⟨hab, hxy⟩ := eq_of_append_cons_eq (hc a) (hc b) h
  exact ⟨hv hab, hxy⟩

section Items

variable {o : Option Char}

theorem of_flatMap_append (hitem : ∀ a x, T (v a ++ x)) (hend : ∀ x : List Char, x.head? = o → T x)
    (as : List α) {x : List Char} (hx : x.head? = o) : T (as.flatMap v ++ x) := by
  cases as with
  | nil => exact hend x hx
  | cons a as =>
    rw [List.flatMap_cons, List.append_assoc]
    exact hitem a _

theorem head?_flatMap_cons_ne (hne : ∀ a x, (v a ++ x).head? ≠ o) (a : α) (as : List α)
    (x : List Char) : ((a :: as).flatMap v ++ x).head? ≠ o := by
  rw [List.flatMap_cons, List.append_assoc]
  exact hne a _

/-- Another item begins otherwise than what may follow all. -/
theorem flatMap (hv : Delimited T v) (hitem : ∀ a x, T (v a ++ x))
    (hend : ∀ x : List Char, x.head? = o → T x) (hne : ∀ a x, (v a ++ x).head? ≠ o) :
    Delimited (fun x => x.head? = o) fun as : List α => as.flatMap v := by
  intro as bs x y hx hy h
  induction as generalizing bs with
  | nil =>
    cases bs with
    | nil => exact ⟨rfl, h⟩
    | cons b bs =>
      have hb : ((b :: bs).flatMap v ++ y).head? = o := (congrArg List.head? h).symm.trans hx
      exact absurd hb (head?_flatMap_cons_ne hne b bs y)
  | cons a as ih =>
    cases bs with
    | nil =>
      have ha : ((a :: as).flatMap v ++ x).head? = o := (congrArg List.head? h).trans hy
      exact absurd ha (head?_flatMap_cons_ne hne a as x)
    | cons b bs =>
      simp only [List.flatMap_cons, List.append_assoc] at h
      obtain ⟨rfl, hrest⟩ :=
        hv (of_flatMap_append hitem hend as hx) (of_flatMap_append hitem hend bs hy) h
      obtain ⟨rfl, rfl⟩ := ih hrest
      exact ⟨rfl, rfl⟩

end Items

end Delimited

end BranchLog
