import BranchLog.Report.Basic
import BranchLog.Yaml.Scalar

/-!
# Reports as YAML

One field on a line, the items of lists and maps below it. A key that is long or has a break in it
stands on a line of its own behind a question mark.
-/
namespace BranchLog

namespace Yaml

def natural (n : Nat) : List Char := Nat.toDigits 10 n

def bool (b : Bool) : List Char := (if b then "true" else "false").toList

/-- A field whose value ends its line. -/
def field (key : String) (value : List Char) : List Char := key.toList ++ ':' :: ' ' :: value

def naturalField (key : String) (n : Nat) : List Char := field key (natural n ++ ['\n'])

/-- In bytes. -/
def longestKey : Nat := 128

def standsAlone (key : String) : Bool :=
  longestKey < key.utf8ByteSize || key.toList.any isBreak

def count (key : String) (n : Nat) : List Char :=
  if standsAlone key then
    "  ? ".toList ++ scalarLine 4 key ++ "  : ".toList ++ natural n ++ ['\n']
  else "  ".toList ++ scalar 4 key ++ ':' :: ' ' :: natural n ++ ['\n']

/-- The lines of all entries, or the sign for none. -/
def entries (key : String) (emptySign : String) (items : List (List Char)) : List Char :=
  if items.isEmpty then field key (emptySign.toList ++ ['\n'])
  else key.toList ++ ':' :: '\n' :: items.flatten

end Yaml

open Yaml

def Warning.toYaml (w : Warning) : List Char :=
  field "- kind" (w.kind.name.toList ++ ['\n']) ++ field "  message" (scalarLine 4 w.message)

/-- YAML holds text only, so the path is given as text. -/
def Report.toYaml (r : Report) (path : String) : List Char :=
  naturalField "version" r.version ++
  field "generated_at" (scalarLine 2 r.generatedAt) ++
  "input:\n".toList ++
  field "  path" (scalarLine 4 path) ++
  field "  strict" (bool r.strict ++ ['\n']) ++
  naturalField "files_scanned" r.files ++
  naturalField "lines_scanned" r.lines ++
  naturalField "matched_lines" r.matched ++
  entries "tokens" "[]" (r.types.map fun t => '-' :: ' ' :: scalarLine 2 t) ++
  entries "counts" "\x7b\x7d" (r.counts.entries.map fun e => count e.1 e.2) ++
  entries "warnings" "[]" (r.warnings.map Warning.toYaml)

end BranchLog
