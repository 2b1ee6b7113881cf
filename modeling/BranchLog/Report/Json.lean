import BranchLog.Json
import BranchLog.Report.Basic

/-!
# Reports as JSON
-/
namespace BranchLog

def Warning.toJson (w : Warning) : Json :=
  .object [("kind", .string w.kind.name), ("message", .string w.message)]

/-- JSON holds text only, so the path is given as text. -/
def Report.toJson (r : Report) (path : String) : Json :=
  .object [
    ("version", .number r.version),
    ("generated_at", .string r.generatedAt),
    ("input", .object [("path", .string path), ("strict", .bool r.strict)]),
    ("files_scanned", .number r.files),
    ("lines_scanned", .number r.lines),
    ("matched_lines", .number r.matched),
    ("tokens", .array (r.types.map .string)),
    ("counts", .object (r.counts.entries.map fun e => (e.1, .number e.2))),
    ("warnings", .array (r.warnings.map Warning.toJson))]

end BranchLog
