import BranchLog.Options
import BranchLog.Proofs.Delimited
import Mathlib

/-!
# How arguments are spelled

An argument that sets or raises something is two hyphens, a name and perhaps a value behind an
equals sign. `ofBytes_eq_long_iff` says that exactly these texts are read so, whatever bytes the
value has; none of them can be the value of the option before it.
-/
namespace BranchLog

def Flag.name : Flag → String
  | .strict => "strict"
  | .counts => "counts"
  | .verbose => "verbose"

def Setting.name : Setting → String
  | .input => "input"
  | .format => "format"

namespace Switch

def name : Switch → String
  | .setting s => s.name
  | .flag f => f.name
  | .help => "help"

theorem lookup_name (s : Switch) : switches.lookup s.name = some s := by
  rcases s with (_ | _) | (_ | _ | _) | _ <;> decide +kernel

theorem name_of_lookup {text : String} {s : Switch} (h : switches.lookup text = some s) :
    text = s.name := by
  obtain ⟨before, after, heq, -⟩ := List.lookup_eq_some_iff.1 h
  have hmem : (text, s) ∈ switches := by
    rw [heq]
    simp
  have hall : ∀ e ∈ switches, e.1 = e.2.name := by decide +kernel
  exact hall _ hmem

theorem named?_eq_some_iff {text : List UInt8} {s : Switch} :
    named? text = some s ↔ text = Text.encode s.name := by
  constructor
  · intro h
    obtain ⟨t, ht, hs⟩ := Option.bind_eq_some_iff.1 h
    rw [← name_of_lookup hs, Text.encode_of_decode? ht]
  · rintro rfl
    rw [named?, Text.decode?_encode]
    exact s.lookup_name

theorem equalsSign_notMem_name (s : Switch) : Argument.equalsSign ∉ Text.encode s.name := by
  rcases s with (_ | _) | (_ | _ | _) | _ <;> decide +kernel

theorem encode_name_ne_nil (s : Switch) : Text.encode s.name ≠ [] := by
  rcases s with (_ | _) | (_ | _ | _) | _ <;> decide +kernel

end Switch

namespace Argument

/-- Two hyphens and a name. -/
def named (name : String) : List UInt8 := hyphen :: hyphen :: Text.encode name

/-- With a value behind an equals sign. -/
def joined (name : String) (value : List UInt8) : List UInt8 := named name ++ equalsSign :: value

def ending : List UInt8 := [hyphen, hyphen]

/-- A switch as it is written with a value or without. -/
def spell (s : Switch) : Option (List UInt8) → List UInt8
  | none => named s.name
  | some value => joined s.name value

theorem ofLong_append (s : Switch) {r : List UInt8} (hr : ∀ b ∈ r.head?, b = equalsSign) :
    ofLong (Text.encode s.name ++ r) = .long s r.tail? := by
  obtain ⟨htake, hdrop⟩ := takeWhile_ne_append s.equalsSign_notMem_name hr
  rw [ofLong, htake, hdrop, Switch.named?_eq_some_iff.2 rfl]

theorem eq_of_ofLong {text : List UInt8} {s : Switch} {value : Option (List UInt8)}
    (h : ofLong text = .long s value) : hyphen :: hyphen :: text = spell s value := by
  rw [ofLong] at h
  cases hs : Switch.named? (text.takeWhile (· ≠ equalsSign)) with
  | none =>
    rw [hs] at h
    cases h
  | some s' =>
    rw [hs] at h
    cases h
    have hname := Switch.named?_eq_some_iff.1 hs
    have htext := List.takeWhile_append_dropWhile (p := (· ≠ equalsSign)) (l := text)
    rw [hname] at htext
    cases hdrop : text.dropWhile (· ≠ equalsSign) with
    | nil =>
      rw [hdrop, List.append_nil] at htext
      rw [← htext]
      rfl
    | cons b value =>
      have hb : b = equalsSign := by
        have hhead := List.head?_dropWhile_not (· ≠ equalsSign) text
        rw [hdrop] at hhead
        simpa using hhead
      rw [hdrop, hb] at htext
      rw [← htext]
      rfl

theorem ofBytes_hyphens {text : List UInt8} (h : text ≠ []) :
    ofBytes (hyphen :: hyphen :: text) = ofLong text := by
  have hne : ¬text.isEmpty = true := by simpa using h
  rw [ofBytes, if_neg (not_not.2 rfl), if_pos rfl, if_neg hne]

theorem ofBytes_spell (s : Switch) (value : Option (List UInt8)) :
    ofBytes (spell s value) = .long s value := by
  cases value with
  | none =>
    have hlong := ofLong_append s (r := []) nofun
    rw [List.append_nil] at hlong
    exact (ofBytes_hyphens s.encode_name_ne_nil).trans hlong
  | some value =>
    have hne : Text.encode s.name ++ equalsSign :: value ≠ [] := by simp
    exact (ofBytes_hyphens hne).trans (ofLong_append s (by simp))

theorem ofBytes_eq_long_iff {bytes : List UInt8} {s : Switch} {value : Option (List UInt8)} :
    ofBytes bytes = .long s value ↔ bytes = spell s value := by
  refine ⟨?_, fun h => h ▸ ofBytes_spell s value⟩
  fun_cases ofBytes bytes with
  | case5 a text ha =>
    rw [not_not.1 ha]
    exact eq_of_ofLong
  | _ => exact nofun

theorem ofLong_ne_finish (text : List UInt8) : ofLong text ≠ .finish := by
  rw [ofLong]
  cases Switch.named? (text.takeWhile (· ≠ equalsSign)) <;> exact nofun

theorem ofBytes_eq_finish_iff {bytes : List UInt8} : ofBytes bytes = .finish ↔ bytes = ending := by
  refine ⟨?_, fun h => h ▸ rfl⟩
  fun_cases ofBytes bytes with
  | case4 a text ha htext =>
    rw [not_not.1 ha, List.isEmpty_iff.1 htext]
    exact fun _ => rfl
  | case5 a text => exact fun h => absurd h (ofLong_ne_finish text)
  | _ => exact nofun

theorem isValue_iff {bytes : List UInt8} :
    isValue bytes ↔ bytes = [hyphen] ∨ bytes.head? ≠ some hyphen := by
  simp [isValue]

theorem isValue_hyphens (text : List UInt8) : isValue (hyphen :: hyphen :: text) = false := by
  simp [isValue]

end Argument

end BranchLog
