import BranchLog.Numeral

/-!
# What an unquoted scalar is read as

Without quotes a null, a truth value or a number in its usual spelling would not be read as text.
-/
namespace BranchLog.Yaml

open Numeral

def isNull (cs : List Char) : Bool :=
  cs ∈ ["", "~", "null", "Null", "NULL"].map String.toList

/-- In any mixture of cases. -/
def isBool (cs : List Char) : Bool :=
  cs.map Char.toLower ∈ ["true", "false"].map String.toList

def unsigned? : List Char → Option Nat
  | '0' :: 'x' :: r => natural? 16 r
  | '0' :: 'o' :: r => natural? 8 r
  | '0' :: 'b' :: r => natural? 2 r
  | cs => natural? 10 cs

/-- How many numbers can be written in so many bits. -/
def wordSize (bits : Nat) : Nat := Nat.pow 2 bits

/-- Numbers of 128 bits; below zero one bit is the sign. -/
def isInteger (cs : List Char) : Bool :=
  let (negative, body) := splitSign cs
  match unsigned? body with
  | none => false
  | some n => if negative then n ≤ wordSize 127 else n < wordSize 128

/-- Too long for a number that begins with a zero. -/
def isPadded (cs : List Char) : Bool :=
  match (splitSign cs).2 with
  | '0' :: r => !r.isEmpty && r.all Char.isDigit
  | _ => false

def isNotANumber (cs : List Char) : Bool :=
  cs ∈ [".nan", ".NaN", ".NAN"].map String.toList

def isInfinite (cs : List Char) : Bool :=
  (splitSign cs).2 ∈ [".inf", ".Inf", ".INF"].map String.toList

def isFinite (cs : List Char) : Bool :=
  match Decimal.ofChars? (splitSign cs).2 with
  | none => false
  | some d => d.fitsDouble

def readsAsText (cs : List Char) : Bool :=
  !(isNull cs || isBool cs || isInteger cs || isPadded cs || isNotANumber cs || isInfinite cs ||
    isFinite cs)

end BranchLog.Yaml
