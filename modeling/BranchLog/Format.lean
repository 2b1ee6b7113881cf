/-!
# Formats of a report
-/
namespace BranchLog

inductive Format where
  | text
  | json
  | yaml
  deriving DecidableEq, Repr

namespace Format

def name : Format → String
  | .text => "text"
  | .json => "json"
  | .yaml => "yaml"

def named? (s : String) : Option Format :=
  [text, json, yaml].find? (·.name = s)

theorem named?_name (f : Format) : named? f.name = some f := by
  cases f <;> rfl

theorem name_of_named? {s : String} {f : Format} (h : named? s = some f) : f.name = s := by
  simpa using List.find?_some h

end Format

end BranchLog
