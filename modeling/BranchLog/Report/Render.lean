import BranchLog.Format
import BranchLog.Report.Json
import BranchLog.Report.Yaml

/-!
# Rendering a report

Text always succeeds; JSON and YAML cannot hold a path that is no text.
-/
namespace BranchLog.Report

inductive RenderError where
  | pathNotText
  deriving DecidableEq, Repr

def RenderError.message : RenderError → String
  | .pathNotText => "failed to serialize report"

def RenderError.cause : RenderError → String
  | .pathNotText => "path contains invalid UTF-8 characters"

def pathText (r : Report) : Except RenderError String :=
  match r.path.text? with
  | some text => .ok text
  | none => .error .pathNotText

/-- `counts` matters for text alone. -/
def render (r : Report) (format : Format) (counts : Bool) : Except RenderError String :=
  match format with
  | .text => .ok (r.listing counts)
  | .json => r.pathText.map fun path => String.ofList ((r.toJson path).pretty ++ ['\n'])
  | .yaml => r.pathText.map fun path => String.ofList (r.toYaml path)

end BranchLog.Report
