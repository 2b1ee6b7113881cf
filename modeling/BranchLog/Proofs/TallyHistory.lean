import BranchLog.Proofs.ScanCounts
import Mathlib

/-!
# The history of a tally

A tally is filled one type at a time or by the lines of texts, is asked for a type, and is taken
away and begun anew. `Records` says that it counts what was put in since it was begun; each
operation keeps this (`Records.apply`), and so does every sequence of operations, whatever strict
readings broke off on the way.
-/
namespace BranchLog

/-- What can be done with a tally and the warnings beside it. -/
inductive Operation where
  | insert (type : String)
  | contains (type : String)
  | take
  | addText (source : String) (strict : Bool) (text : List Char)

/-- What an operation gives back. -/
inductive Answer where
  | done
  | contained (found : Bool)
  | taken (counts : Table String Nat)
  | read (stopped : Option ShortLine)

namespace Operation

/-- Where a tally is taken an empty one takes its place. -/
def apply (r : Reading) : Operation → Reading × Answer
  | insert type => ({ r with tally := r.tally.add type }, .done)
  | contains type => (r, .contained (r.tally.contains type))
  | take => ({ r with tally := {} }, .taken r.tally.counts)
  | addText source strict text =>
    let (r, stopped) := r.addText source strict text
    (r, .read stopped)

def run (os : List Operation) : Reading := os.foldl (fun r o => (o.apply r).1) {}

def isTake : Operation → Bool
  | take => true
  | _ => false

/-- The operations behind the last that took the tally. -/
def sinceTake (os : List Operation) : List Operation := os.rtakeWhile (!·.isTake)

def inserted : Operation → List String
  | insert type => [type]
  | _ => []

/-- A strict reading ends with the first short line. -/
def linesRead (strict : Bool) (lines : List (List Char)) : List (List Char) :=
  if strict then
    lines.takeWhile (¬IsShort ·) ++ (lines.dropWhile (¬IsShort ·)).take 1
  else lines

def processed : Operation → List (List Char)
  | addText _ strict text => linesRead strict (Text.lines text)
  | _ => []

end Operation

theorem linesRead_cons_short {line : List Char} (h : IsShort line) (rest : List (List Char)) :
    Operation.linesRead true (line :: rest) = [line] := by
  simp [Operation.linesRead, h]

theorem linesRead_cons {strict : Bool} {line : List Char} (h : strict = true → ¬IsShort line)
    (rest : List (List Char)) :
    Operation.linesRead strict (line :: rest) = line :: Operation.linesRead strict rest := by
  cases strict with
  | false => rfl
  | true => simp [Operation.linesRead, h rfl]

/-- A reading that breaks off has counted the short line and nothing behind it. -/
theorem Reading.tally_addLines (r : Reading) (source : String) (strict : Bool) (number : Nat)
    (lines : List (List Char)) :
    (r.addLines source strict number lines).1.tally =
      (Operation.linesRead strict lines).foldl Tally.read r.tally := by
  induction lines generalizing r number with
  | nil => cases strict <;> rfl
  | cons line rest ih =>
    rw [addLines, addLine_eq]
    by_cases hline : IsShort line
    · rw [short?, if_pos hline]
      cases strict with
      | true =>
        rw [linesRead_cons_short hline]
        rfl
      | false =>
        rw [linesRead_cons (by simp)]
        exact ih _ _
    · rw [short?_eq_none_iff.2 hline, linesRead_cons fun _ => hline]
      exact ih _ _

/-- Every operation but taking the tally adds what it puts in. -/
theorem Tally.Records.apply {r : Reading} {types : List String} {lines : List (List Char)}
    (h : r.tally.Records types lines) {o : Operation} (ho : o.isTake = false) :
    (o.apply r).1.tally.Records (types ++ o.inserted) (lines ++ o.processed) := by
  cases o with
  | insert type =>
    simpa [Operation.apply, Operation.inserted, Operation.processed] using h.add type
  | contains type => simpa [Operation.apply, Operation.inserted, Operation.processed] using h
  | take => cases ho
  | addText source strict text =>
    have hread := h.foldl_read (Operation.linesRead strict (Text.lines text))
    rw [← Reading.tally_addLines r source strict 1] at hread
    simpa [Operation.apply, Operation.inserted, Operation.processed, Reading.addText] using hread

namespace Operation

theorem run_concat (os : List Operation) (o : Operation) :
    run (os ++ [o]) = (o.apply (run os)).1 := by
  rw [run, List.foldl_append]
  rfl

theorem sinceTake_concat (os : List Operation) (o : Operation) :
    sinceTake (os ++ [o]) = if o.isTake then [] else sinceTake os ++ [o] := by
  rw [sinceTake, List.rtakeWhile_concat, sinceTake]
  cases o.isTake <;> rfl

theorem records_run (os : List Operation) :
    (run os).tally.Records ((sinceTake os).flatMap inserted) ((sinceTake os).flatMap processed) := by
  induction os using List.reverseRecOn with
  | nil => exact Tally.records_empty
  | append_singleton os o ih =>
    rw [run_concat, sinceTake_concat]
    cases ho : o.isTake with
    | true =>
      cases o with
      | take => exact Tally.records_empty
      | _ => cases ho
    | false => simpa using ih.apply ho

/-- After any operations a tally counts what was put in since it was last taken, short readings
included. -/
theorem tally_counts_history (os : List Operation) :
    (∀ type, (run os).tally.counts.get? type =
      if ((sinceTake os).flatMap inserted).count type +
        ((sinceTake os).flatMap processed).countP (LineClass.ofLine · = .token type) = 0 then none
      else some (((sinceTake os).flatMap inserted).count type +
        ((sinceTake os).flatMap processed).countP (LineClass.ofLine · = .token type))) ∧
    (∀ e ∈ (run os).tally.counts.entries, e.2 ≠ 0) ∧
    (run os).tally.matched = ((run os).tally.counts.entries.map Prod.snd).sum ∧
    (run os).tally.lines = ((sinceTake os).flatMap processed).length ∧
    (run os).tally.types.Pairwise (fun a b => Text.encode a < Text.encode b) ∧
    (∀ type, type ∈ (run os).tally.types ↔ (run os).tally.contains type) ∧
    ∀ type, (contains type).apply (run os) =
      (run os, .contained ((run os).tally.contains type)) := by
  have h := records_run os
  refine ⟨h.get?, ?_, h.total, h.length, ascending_types _, ?_, fun _ => rfl⟩
  · intro e he hzero
    have hget := Table.get?_eq_some_iff.2 he
    rw [h.get?, hzero] at hget
    split at hget
    · cases hget
    · next hne => exact hne (Option.some.inj hget)
  · intro type
    exact Table.mem_keys_iff

example :
    let r := run [.insert "A", .take,
      .addText "log" true
        "[Br Condition] Instruction: a b X\n[Br Condition] Instruction: c\nnoise".toList,
      .insert "X"]
    r.tally.counts.entries = [("X", 2)] ∧ r.tally.lines = 2 := by
  decide +kernel

end Operation

end BranchLog
