/-!
# Numerals

Natural numbers in a base up to 16, and decimal numbers with a point and an exponent. `FitsDouble`
says of a decimal number that its nearest double is finite; `fitsDouble` decides it without ever
writing out the power of ten of a large exponent.
-/
namespace BranchLog.Numeral

/-- Digits past nine are letters of either case. -/
def digit? (base : Nat) (c : Char) : Option Nat :=
  let value :=
    if c.isDigit then c.toNat - '0'.toNat
    else if 'a' ≤ c ∧ c ≤ 'f' then c.toNat - 'a'.toNat + 10
    else if 'A' ≤ c ∧ c ≤ 'F' then c.toNat - 'A'.toNat + 10
    else base
  if value < base then some value else none

/-- At least one digit, and nothing else. -/
def natural? (base : Nat) (cs : List Char) : Option Nat :=
  if cs.isEmpty then none
  else cs.foldlM (fun n c => (digit? base c).map (n * base + ·)) 0

/-- Whether a minus stands in front, and what follows the sign, if there is one. -/
def splitSign : List Char → Bool × List Char
  | '-' :: r => (true, r)
  | '+' :: r => (false, r)
  | cs => (false, cs)

/-- The number `digits * 10 ^ exponent`. -/
structure Decimal where
  digits : Nat
  exponent : Int
  deriving DecidableEq, Repr

namespace Decimal

def exponent? : List Char → Option Int
  | [] => some 0
  | e :: r =>
    if e = 'e' ∨ e = 'E' then
      let (negative, digits) := splitSign r
      (natural? 10 digits).map fun n => if negative then -n else n
    else none

/-- The digits behind the point, if there is one, and the rest. -/
def splitPlaces : List Char → List Char × List Char
  | '.' :: r => (r.takeWhile Char.isDigit, r.dropWhile Char.isDigit)
  | cs => ([], cs)

/-- Without a sign; a point may stand before or behind all digits. -/
def ofChars? (cs : List Char) : Option Decimal := do
  let (places, rest) := splitPlaces (cs.dropWhile Char.isDigit)
  let digits ← natural? 10 (cs.takeWhile Char.isDigit ++ places)
  let exponent ← exponent? rest
  return ⟨digits, exponent - places.length⟩

/-- Half a unit past the greatest finite double; from here on numbers round to infinity. -/
def doubleLimit : Nat := Nat.pow 2 1024 - Nat.pow 2 970

def tenTo (n : Nat) : Nat := Nat.pow 10 n

def FitsDouble (d : Decimal) : Prop :=
  d.digits * tenTo d.exponent.toNat < doubleLimit * tenTo (-d.exponent).toNat

instance (d : Decimal) : Decidable d.FitsDouble := inferInstanceAs (Decidable (_ < _))

/-- The number of digits in front of the point, which alone decides all but one case. -/
def magnitude (d : Decimal) : Int := (Nat.toDigits 10 d.digits).length + d.exponent

def fitsDouble (d : Decimal) : Bool :=
  if d.digits = 0 ∨ d.magnitude ≤ 308 then true
  else if 309 < d.magnitude then false
  else decide d.FitsDouble

theorem tenTo_add (m n : Nat) : tenTo (m + n) = tenTo m * tenTo n := Nat.pow_add ..

theorem tenTo_pos (n : Nat) : 0 < tenTo n := Nat.pow_pos (by decide)

theorem tenTo_le {m n : Nat} (h : m ≤ n) : tenTo m ≤ tenTo n :=
  Nat.pow_le_pow_right (by decide) h

theorem doubleLimit_pos : 0 < doubleLimit := by decide +kernel

theorem tenTo_308_le : tenTo 308 ≤ doubleLimit := by decide +kernel

theorem le_tenTo_309 : doubleLimit ≤ tenTo 309 := by decide +kernel

theorem length_toDigits_le {n k : Nat} (hk : 0 < k) :
    (Nat.toDigits 10 n).length ≤ k ↔ n < tenTo k :=
  Nat.length_toDigits_le_iff (by decide) hk

theorem digits_lt (n : Nat) : n < tenTo (Nat.toDigits 10 n).length :=
  (length_toDigits_le Nat.length_toDigits_pos).1 (Nat.le_refl _)

theorem tenTo_le_of_ne_zero {n : Nat} (h : n ≠ 0) :
    tenTo ((Nat.toDigits 10 n).length - 1) ≤ n := by
  rcases Nat.lt_or_ge 1 (Nat.toDigits 10 n).length with hl | hl
  · refine Nat.le_of_not_lt fun hn => ?_
    have := (length_toDigits_le (by omega)).2 hn
    omega
  · rw [show (Nat.toDigits 10 n).length - 1 = 0 by omega]
    exact Nat.pos_of_ne_zero h

theorem fitsDouble_of_magnitude_le {d : Decimal} {m : Nat} (hm : tenTo m ≤ doubleLimit)
    (h : d.magnitude ≤ m) : d.FitsDouble := by
  have hn := digits_lt d.digits
  rw [magnitude] at h
  generalize (Nat.toDigits 10 d.digits).length = k at h hn
  calc d.digits * tenTo d.exponent.toNat
      < tenTo k * tenTo d.exponent.toNat := Nat.mul_lt_mul_of_pos_right hn (tenTo_pos _)
    _ = tenTo (k + d.exponent.toNat) := (tenTo_add ..).symm
    _ ≤ tenTo (m + (-d.exponent).toNat) := tenTo_le (by omega)
    _ = tenTo m * tenTo (-d.exponent).toNat := tenTo_add ..
    _ ≤ doubleLimit * tenTo (-d.exponent).toNat := Nat.mul_le_mul_right _ hm

theorem not_fitsDouble_of_lt_magnitude {d : Decimal} {m : Nat} (hm : doubleLimit ≤ tenTo m)
    (h0 : d.digits ≠ 0) (h : m < d.magnitude) : ¬d.FitsDouble := by
  have hn := tenTo_le_of_ne_zero h0
  have hk : 0 < (Nat.toDigits 10 d.digits).length := Nat.length_toDigits_pos
  rw [magnitude] at h
  generalize (Nat.toDigits 10 d.digits).length = k at h hn hk
  refine Nat.not_lt.2 ?_
  calc doubleLimit * tenTo (-d.exponent).toNat
      ≤ tenTo m * tenTo (-d.exponent).toNat := Nat.mul_le_mul_right _ hm
    _ = tenTo (m + (-d.exponent).toNat) := (tenTo_add ..).symm
    _ ≤ tenTo (k - 1 + d.exponent.toNat) := tenTo_le (by omega)
    _ = tenTo (k - 1) * tenTo d.exponent.toNat := tenTo_add ..
    _ ≤ d.digits * tenTo d.exponent.toNat := Nat.mul_le_mul_right _ hn

theorem fitsDouble_of_digits_eq_zero {d : Decimal} (h : d.digits = 0) : d.FitsDouble := by
  rw [FitsDouble, h, Nat.zero_mul]
  exact Nat.mul_pos doubleLimit_pos (tenTo_pos _)

theorem fitsDouble_iff (d : Decimal) : d.fitsDouble = true ↔ d.FitsDouble := by
  rw [fitsDouble]
  split
  · next h =>
    exact ⟨fun _ => h.elim fitsDouble_of_digits_eq_zero
      (fitsDouble_of_magnitude_le tenTo_308_le), fun _ => rfl⟩
  · next h =>
    split
    · next hm =>
      exact ⟨fun h => absurd h (by decide), fun hf => absurd hf
        (not_fitsDouble_of_lt_magnitude le_tenTo_309 (fun h0 => h (.inl h0)) hm)⟩
    · exact decide_eq_true_iff

end Decimal

end BranchLog.Numeral
