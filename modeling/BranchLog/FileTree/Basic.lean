import BranchLog.Path
import BranchLog.Table

/-!
# File trees

The entries of a directory stand in no order, and of several with one name the first counts;
`names` lists them in order. A location is the names from an entry up to the root, so its head is
the name of the entry and its tail the directory that holds it. A directory is among `directories`
and is higher than each directory in it, which is what bounds a walk.
-/
namespace BranchLog

/-- Innermost name first; the root has none. -/
abbrev Location := List Name

/-- A pipe gives what its writers put into it, and that only when the last of them has closed it;
until then a reader waits. -/
inductive Node where
  | file (data : ByteArray)
  | pipe (written : Option ByteArray)
  | link (target : Path)
  | directory (entries : List (Name × Node))

namespace Node

def child? (n : Name) : Node → Option Node
  | .directory entries => entries.lookup n
  | _ => none

mutual

/-- Where the directories are in a node at `place`, itself included. -/
def directories (place : Location) : Node → List Location
  | .directory entries => place :: directoriesAmong place entries
  | _ => []

def directoriesAmong (place : Location) : List (Name × Node) → List Location
  | [] => []
  | (n, x) :: r => x.directories (n :: place) ++ directoriesAmong place r

end

mutual

/-- How many directories lie in each other at most. -/
def height : Node → Nat
  | .directory entries => heightAmong entries + 1
  | _ => 0

def heightAmong : List (Name × Node) → Nat
  | [] => 0
  | (_, x) :: r => max x.height (heightAmong r)

end

theorem mem_of_lookup {n : Name} {x : Node} {entries : List (Name × Node)}
    (h : entries.lookup n = some x) : (n, x) ∈ entries := by
  obtain ⟨l, r, hlr, -⟩ := List.lookup_eq_some_iff.1 h
  simp [hlr]

theorem directories_subset_among {place : Location} {n : Name} {x : Node}
    {entries : List (Name × Node)} (h : (n, x) ∈ entries) :
    x.directories (n :: place) ⊆ directoriesAmong place entries := by
  induction entries with
  | nil => simp at h
  | cons e r ih =>
    rw [directoriesAmong]
    rcases List.mem_cons.1 h with rfl | h
    · exact List.subset_append_left ..
    · exact fun _ hd => List.mem_append_right _ (ih h hd)

theorem height_le_among {n : Name} {x : Node} {entries : List (Name × Node)}
    (h : (n, x) ∈ entries) : x.height ≤ heightAmong entries := by
  induction entries with
  | nil => simp at h
  | cons e r ih =>
    rw [heightAmong]
    rcases List.mem_cons.1 h with rfl | h
    · exact Nat.le_max_left ..
    · exact Nat.le_trans (ih h) (Nat.le_max_right ..)

theorem directories_child?_subset {place : Location} {n : Name} {x y : Node}
    (h : x.child? n = some y) : y.directories (n :: place) ⊆ x.directories place := by
  cases x with
  | directory entries =>
    rw [directories]
    exact fun _ hd =>
      List.mem_cons_of_mem _ (directories_subset_among (mem_of_lookup h) hd)
  | _ => simp [child?] at h

theorem height_child?_lt {n : Name} {x y : Node} (h : x.child? n = some y) :
    y.height < x.height := by
  cases x with
  | directory entries =>
    rw [height]
    exact Nat.lt_succ_of_le (height_le_among (mem_of_lookup h))
  | _ => simp [child?] at h

end Node

/-- The root is a directory. Relative paths start at `working`. -/
structure FileTree where
  root : List (Name × Node) := []
  working : Location := []

namespace FileTree

def node? (t : FileTree) : Location → Option Node
  | [] => some (.directory t.root)
  | n :: above => (t.node? above).bind (Node.child? n)

def isDirectory (t : FileTree) (place : Location) : Bool :=
  match t.node? place with
  | some (.directory _) => true
  | _ => false

theorem isDirectory_iff {t : FileTree} {place : Location} :
    t.isDirectory place = true ↔ ∃ entries, t.node? place = some (.directory entries) := by
  rw [isDirectory]
  split <;> simp_all

/-- Whether a read would wait for the writers. -/
def isOpenPipe (t : FileTree) (place : Location) : Bool :=
  match t.node? place with
  | some (.pipe none) => true
  | _ => false

theorem isOpenPipe_iff {t : FileTree} {place : Location} :
    t.isOpenPipe place = true ↔ t.node? place = some (.pipe none) := by
  rw [isOpenPipe]
  split <;> simp_all

/-- The names of the entries of a directory, ascending. -/
def names (t : FileTree) (place : Location) : List Name :=
  match t.node? place with
  | some (.directory entries) => (Table.ofList entries).keys
  | _ => []

/-- Where the directories are, the root included. -/
def directories (t : FileTree) : List Location := (Node.directory t.root).directories []

/-- Nothing has no height. -/
def height (t : FileTree) (place : Location) : Nat := ((t.node? place).map Node.height).getD 0

theorem directories_node?_subset {t : FileTree} {place : Location} {x : Node}
    (h : t.node? place = some x) : x.directories place ⊆ t.directories := by
  induction place generalizing x with
  | nil => cases h; exact List.Subset.refl _
  | cons n above ih =>
    obtain ⟨y, hy, hx⟩ := Option.bind_eq_some_iff.1 h
    exact List.Subset.trans (Node.directories_child?_subset hx) (ih hy)

theorem mem_directories {t : FileTree} {place : Location} (h : t.isDirectory place = true) :
    place ∈ t.directories := by
  obtain ⟨entries, h⟩ := isDirectory_iff.1 h
  exact directories_node?_subset h (by rw [Node.directories]; exact List.mem_cons_self ..)

theorem height_cons_lt {t : FileTree} {n : Name} {above : Location} {x : Node}
    (h : t.node? (n :: above) = some x) : t.height (n :: above) < t.height above := by
  obtain ⟨y, hy, hx⟩ := Option.bind_eq_some_iff.1 h
  simpa [height, h, hy] using Node.height_child?_lt hx

end FileTree

end BranchLog
