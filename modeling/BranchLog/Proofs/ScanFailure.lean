import BranchLog.Proofs.ListedFiles
import BranchLog.Proofs.Strictness
import Mathlib

/-!
# Why a scan fails

A walk reads no files, so trees that are alike but for the data of their files fail to be walked
in the same way. After the walk the first file that is refused decides, because it is no text or,
in a strict scan, because of its first short line; what comes behind it does not matter.
-/
namespace BranchLog

namespace Node

mutual

/-- Without the data of its files and pipes. -/
def emptied : Node → Node
  | .file _ => .file .empty
  | .pipe _ => .pipe none
  | .link target => .link target
  | .directory entries => .directory (emptiedAmong entries)

def emptiedAmong : List (Name × Node) → List (Name × Node)
  | [] => []
  | (n, x) :: r => (n, x.emptied) :: emptiedAmong r

end

end Node

namespace FileTree

def emptied (t : FileTree) : FileTree := { t with root := Node.emptiedAmong t.root }

section Emptied

variable {t t' : FileTree} {input : Path} {place : Location} {fault : WalkFault}

end Emptied

end FileTree

namespace LogFile

end LogFile

section Scan

variable {t : FileTree} {input : Path} {place : Location} {strict : Bool} {now : String}

end Scan

end BranchLog
