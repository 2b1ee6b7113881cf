import BranchLog.Table
import BranchLog.Text.Utf8
import Mathlib

/-!
# The order of strings and the order of their bytes

Strings are compared character by character. `encode_lt_encode` shows that this is the order of
their UTF-8 encodings byte by byte, in which a report lists instruction types.
-/
namespace BranchLog.Text

theorem ofNat_cons_lt {a b : Nat} (ha : a < 256) (hb : b < 256) {x y : List UInt8} :
    UInt8.ofNat a :: x < UInt8.ofNat b :: y ↔ a < b ∨ a = b ∧ x < y := by
  rw [List.cons_lt_cons_iff, UInt8.lt_iff_toNat_lt, ← UInt8.toNat_inj, UInt8.toNat_ofNat',
    UInt8.toNat_ofNat', Nat.mod_eq_of_lt ha, Nat.mod_eq_of_lt hb]

theorem div_lt_or_mod_lt {m n : Nat} (h : m < n) (k : Nat) :
    m / k < n / k ∨ m / k = n / k ∧ m % k < n % k := by
  rcases Nat.lt_or_eq_of_le (Nat.div_le_div_right (c := k) h.le) with hk | hk
  · exact .inl hk
  · refine .inr ⟨hk, ?_⟩
    have hm := Nat.div_add_mod m k
    have hn := Nat.div_add_mod n k
    rw [hk] at hm
    omega

/-- Numbers compare by the groups of six bits that the longest encodings hold. -/
theorem sextets_lt {m n : Nat} (h : m < n) (hn : n < 0x110000) :
    m / 262144 % 8 < n / 262144 % 8 ∨ m / 262144 % 8 = n / 262144 % 8 ∧
      (m / 4096 % 64 < n / 4096 % 64 ∨ m / 4096 % 64 = n / 4096 % 64 ∧
        (m / 64 % 64 < n / 64 % 64 ∨ m / 64 % 64 = n / 64 % 64 ∧ m % 64 < n % 64)) := by
  have two (k : Nat) : k / 4096 = k / 64 / 64 := (Nat.div_div_eq_div_mul k 64 64).symm
  have three (k : Nat) : k / 262144 = k / 64 / 64 / 64 := by
    rw [Nat.div_div_eq_div_mul, Nat.div_div_eq_div_mul]
  rw [Nat.mod_eq_of_lt (a := m / 262144) (by omega), Nat.mod_eq_of_lt (a := n / 262144) (by omega),
    two, two, three, three]
  rcases div_lt_or_mod_lt h 64 with h | ⟨h, hm⟩
  · rcases div_lt_or_mod_lt h 64 with h | ⟨h, hm⟩
    · rcases div_lt_or_mod_lt h 64 with h | ⟨h, hm⟩
      · exact .inl h
      · exact .inr ⟨h, .inl hm⟩
    · rw [h]
      exact .inr ⟨rfl, .inr ⟨rfl, .inl hm⟩⟩
  · rw [h]
    exact .inr ⟨rfl, .inr ⟨rfl, .inr ⟨rfl, hm⟩⟩⟩

/-- The encodings of two characters differ before either ends, in the order of the characters. -/
theorem utf8EncodeChar_append_lt {c d : Char} (h : c < d) (x y : List UInt8) :
    String.utf8EncodeChar c ++ x < String.utf8EncodeChar d ++ y := by
  have hcd : c.val.toNat < d.val.toNat := h
  have hd : d.val.toNat < 0x110000 := by
    have := d.valid
    simp only [UInt32.isValidChar, Nat.isValidChar] at this
    omega
  have hs := sextets_lt hcd hd
  simp only [String.utf8EncodeChar]
  generalize c.val.toNat = m at *
  generalize d.val.toNat = n at *
  split_ifs <;>
    simp (disch := omega) only [List.cons_append, List.nil_append, ofNat_cons_lt] <;> omega

theorem encode_eq_flatMap (s : String) : encode s = s.toList.flatMap String.utf8EncodeChar := by
  rw [encode, ← String.utf8Encode_toList, List.utf8Encode]
  simp

theorem flatMap_utf8EncodeChar_lt {s t : List Char} (h : s < t) :
    s.flatMap String.utf8EncodeChar < t.flatMap String.utf8EncodeChar := by
  induction h with
  | @nil c r =>
    rw [List.flatMap_cons]
    cases hc : String.utf8EncodeChar c with
    | nil => exact absurd hc String.utf8EncodeChar_ne_nil
    | cons => exact List.nil_lt_cons ..
  | rel h => exact utf8EncodeChar_append_lt h ..
  | cons _ ih =>
    rw [List.flatMap_cons, List.flatMap_cons]
    exact List.append_left_lt ih

theorem encode_lt_encode {s t : String} : encode s < encode t ↔ s < t := by
  rw [encode_eq_flatMap, encode_eq_flatMap, String.lt_iff_toList_lt]
  refine ⟨fun h => ?_, flatMap_utf8EncodeChar_lt⟩
  rcases lt_trichotomy s.toList t.toList with hst | hst | hst
  · exact hst
  · rw [hst] at h
    exact absurd h (List.lt_irrefl _)
  · exact absurd h (List.lt_asymm (flatMap_utf8EncodeChar_lt hst))

theorem pairwise_encode_keys {α : Type} (t : Table String α) :
    t.keys.Pairwise (fun a b => encode a < encode b) :=
  List.pairwise_map.2 (t.ascending.imp encode_lt_encode.2)

end BranchLog.Text
