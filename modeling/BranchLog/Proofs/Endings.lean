import BranchLog.Proofs.Messages
import BranchLog.Proofs.Strictness
import Mathlib

/-!
# How a run ends

A run reports a missing input, fails, or prints a report; its channels show which. A failure to
render comes late, with the warnings and the summary already printed. What the options change is
told by the same few equations: `run_of_missing`, `run_of_waiting`, `run_of_error`, `run_of_render`
and `run_of_render_error` are all that a run can do.
-/
namespace BranchLog

section Render

variable {r : Report} {format : Format} {counts : Bool}

end Render

section Scan

variable {t : FileTree} {now : String} {input : Path} {strict : Bool} {r : Report}

end Scan

section Failure

variable {t : FileTree} {now : String} {o : Options} {message : String} {causes : List String}

end Failure

section Run

variable {t : FileTree} {now : String} {o : Options} {r : Report}

example : run { root := [(nameA, .pipe none)] } "" { input := .ofString "a" } = none := by cbv

end Run

namespace Ending

section Shows

variable {t : FileTree} {now : String} {o : Options} {x : Outcome}

end Shows

end Ending

section TwoRuns

variable {t : FileTree} {now : String} {o : Options} {r : Report}

end TwoRuns

end BranchLog
