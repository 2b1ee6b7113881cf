import BranchLog.Proofs.ByteOrder
import BranchLog.Proofs.JsonReader
import BranchLog.Report.Render
import Mathlib

/-!
# Reports read back from JSON

What a report says as a JSON value, field by field, and that this is what any reader of JSON finds
in the rendered report.
-/
namespace BranchLog

open Json

def Json.Value.natural (n : Nat) : Value := .number false ⟨n, 0⟩

def WarningKind.jsonValue : WarningKind → Value
  | .malformedLine => .string "malformed_line"
  | .ignoredFile => .string "ignored_file"

def Warning.jsonValue (w : Warning) : Value :=
  .object [("kind", w.kind.jsonValue), ("message", .string w.message)]

/-- The fields in their order; counts stand in the order of the table. -/
def Report.jsonValue (r : Report) (path : String) : Value :=
  .object [
    ("version", .natural r.version),
    ("generated_at", .string r.generatedAt),
    ("input", .object [("path", .string path), ("strict", .bool r.strict)]),
    ("files_scanned", .natural r.files),
    ("lines_scanned", .natural r.lines),
    ("matched_lines", .natural r.matched),
    ("tokens", .array (r.types.map .string)),
    ("counts", .object (r.counts.entries.map fun e => (e.1, .natural e.2))),
    ("warnings", .array (r.warnings.map Warning.jsonValue))]

namespace Report

theorem value_warning (w : Warning) : w.toJson.value = w.jsonValue := by
  rcases w with ⟨_ | _, message⟩ <;> rfl

theorem value_toJson (r : Report) (path : String) : (r.toJson path).value = r.jsonValue path := by
  simp only [toJson, jsonValue, value, memberValues, values_eq_map, memberValues_eq_map,
    List.map_map, Function.comp_def, Value.natural, value_warning]

/-- The rendered report is a JSON document and a final newline. It is read as the fields of the
report in their order, with each text and number as it was. -/
theorem render_json_reads_back (r : Report) (counts : Bool) {path : String}
    (hp : r.path.text? = some path) :
    ∃ document, r.render .json counts = .ok (String.ofList (document ++ ['\n'])) ∧
      IsDocument (r.jsonValue path) document ∧
      read? document = some (r.jsonValue path) ∧
      read? (document ++ ['\n']) = some (r.jsonValue path) ∧
      Text.encode path = r.path.bytes ∧
      r.counts.keys.Pairwise (fun a b => Text.encode a < Text.encode b) := by
  have hdocument := isDocument_pretty (r.toJson path)
  rw [value_toJson] at hdocument
  have hnewline : IsBlanks ['\n'] := by simp [IsBlanks, isBlank]
  refine ⟨(r.toJson path).pretty, ?_, hdocument, read?_eq_some_iff.2 hdocument,
    read?_eq_some_iff.2 (hdocument.append_blanks hnewline), Text.encode_of_decode? hp,
    Text.pairwise_encode_keys r.counts⟩
  rw [render, pathText, hp]
  rfl

/-- Quotes, breaks and characters past the first 65536 in all places of a text. -/
def awkwardReport : Report where
  version := 1
  generatedAt := "1970-01-01T00:00:00Z"
  path := .ofString "a\"\\\n\u0001é😀"
  strict := true
  files := 2
  lines := 3
  matched := 18446744073709551615
  types := ["b\r", "a"]
  counts := .ofList [("b\r", 18446744073709551615), ("a", 0)]
  warnings := [⟨.malformedLine, "\t"⟩, ⟨.ignoredFile, ""⟩]

theorem render_json_reads_back_awkwardReport :
    awkwardReport.path.text? = some "a\"\\\n\u0001é😀" ∧
      ∃ document, awkwardReport.render .json false = .ok (String.ofList (document ++ ['\n'])) ∧
        read? document = some (awkwardReport.jsonValue "a\"\\\n\u0001é😀") := by
  have hp : awkwardReport.path.text? = some "a\"\\\n\u0001é😀" := Text.decode?_encode _
  obtain ⟨document, hrender, -, hread, -⟩ := render_json_reads_back awkwardReport false hp
  exact ⟨hp, document, hrender, hread⟩

end Report

end BranchLog
