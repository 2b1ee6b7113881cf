import BranchLog.FileTree.Resolve

/-!
# Changing a file tree

Each change takes a path as `resolve` does, except that the last name of the path need not exist
yet. A change that cannot be made leaves the tree as it is.
-/
namespace BranchLog

/-- In the place of the first entry with that name, or behind all. -/
def Node.store (n : Name) (x : Node) : List (Name × Node) → List (Name × Node)
  | [] => [(n, x)]
  | e :: r => if e.1 = n then (n, x) :: r else e :: store n x r

/-- Changes the entries of the directory that the names lead down to, if it is there. -/
def Node.changeBelow (change : List (Name × Node) → List (Name × Node)) :
    List Name → List (Name × Node) → List (Name × Node)
  | [], entries => change entries
  | n :: below, entries =>
    match entries.lookup n with
    | some (.directory inner) => store n (.directory (changeBelow change below inner)) entries
    | _ => entries

namespace FileTree

/-- Changes the entries of the directory `place`. -/
def change (t : FileTree) (place : Location)
    (change : List (Name × Node) → List (Name × Node)) : FileTree :=
  { t with root := Node.changeBelow change place.reverse t.root }

/-- The root stays as it is. -/
def put (t : FileTree) (place : Location) (x : Node) : FileTree :=
  match place with
  | [] => t
  | n :: above => t.change above (Node.store n x)

/-- Without the node at `place` and all below it. -/
def prune (t : FileTree) (place : Location) : FileTree :=
  match place with
  | [] => t
  | n :: above => t.change above fun entries => entries.filter (·.1 ≠ n)

/-- Where the last of some steps would put an entry, links before it followed. -/
def slotFrom (t : FileTree) (place : Location) (steps : List Step) : Option Location :=
  match steps.getLast?, t.resolveFrom place steps.dropLast with
  | some (.down n), .ok parent => if t.isDirectory parent then some (n :: parent) else none
  | _, _ => none

def slot? (t : FileTree) (p : Path) : Option Location :=
  if p.isTooLong then none else t.slotFrom (start t.working p) p.steps

/-- The slot of an entry that may be written with slashes at its end if it is a directory. -/
def entry? (t : FileTree) (p : Path) : Option Location :=
  (t.slot? p.dropEndSlashes).filter fun place => !p.endsInSlash || t.isDirectory place

/-- Follows links from the slot to where data would be written. -/
def followed (t : FileTree) : (links : Nat) → Location → Option Location
  | links, place =>
    match t.node? place, links with
    | some (.link _), 0 => none
    | some (.link target), left + 1 =>
      (t.slotFrom (start place.tail target) target.steps).bind (t.followed left)
    | _, _ => some place

/-- The place of the entry that a step asks for, if nothing is there. -/
def gap? (t : FileTree) (place : Location) : Step → Option Location
  | .down n =>
    if t.isDirectory place && (t.node? (n :: place)).isNone then some (n :: place) else none
  | _ => none

/-- Makes a directory wherever the next step has none to go to, and ends at any other fault. -/
def makeFrom (t : FileTree) (w : Way) : List Step → FileTree
  | [] => t
  | step :: rest =>
    match t.gap? w.place step, t.follow w [step] with
    | some place, _ => (t.put place (.directory [])).makeFrom { w with place } rest
    | none, .ok w => t.makeFrom w rest
    | none, .error _ => t

/-- With the directories on the way that do not exist yet. -/
def makeDirectories (t : FileTree) (p : Path) : FileTree :=
  if p.isTooLong || p.hasZero then t
  else t.makeFrom ⟨mostLinks, start t.working p⟩ p.steps

/-- Replaces or creates a file; `change` makes the new data of the old. -/
def changeFile (t : FileTree) (p : Path) (change : ByteArray → ByteArray) : FileTree :=
  match (t.slot? p).bind (t.followed mostLinks) with
  | none => t
  | some place =>
    match t.node? place with
    | none => t.put place (.file (change .empty))
    | some (.file data) => t.put place (.file (change data))
    | some _ => t

def writeFile (t : FileTree) (p : Path) (data : ByteArray) : FileTree :=
  t.changeFile p fun _ => data

def appendFile (t : FileTree) (p : Path) (data : ByteArray) : FileTree :=
  t.changeFile p (· ++ data)

/-- A new entry, where there is none. -/
def create (t : FileTree) (p : Path) (x : Node) : FileTree :=
  match t.slot? p with
  | none => t
  | some place => if (t.node? place).isNone then t.put place x else t

/-- A link must lead somewhere, if only by name. -/
def createLink (t : FileTree) (p target : Path) : FileTree :=
  if target.bytes.isEmpty || target.isTooLong || target.hasZero then t
  else t.create p (.link target)

def remove (t : FileTree) (p : Path) : FileTree :=
  match t.entry? p with
  | none => t
  | some place => t.prune place

/-- A directory can replace an empty directory only, all else anything but a directory. -/
def canReplace (source : Node) : Option Node → Bool
  | none => true
  | some target =>
    match source, target with
    | .directory _, .directory inside => inside.isEmpty
    | .directory _, _ => false
    | _, .directory _ => false
    | _, _ => true

/-- An entry takes all below it along; a link is moved itself. -/
def move (t : FileTree) (source target : Location) : FileTree :=
  match t.node? source with
  | none => t
  | some x =>
    if source.isSuffixOf target || !canReplace x (t.node? target) then t
    else (t.prune source).put target x

/-- Only a directory can be given a name with slashes at its end. -/
def rename (t : FileTree) (p q : Path) : FileTree :=
  match t.entry? p, t.slot? q.dropEndSlashes with
  | some source, some target =>
    if q.endsInSlash && !t.isDirectory source then t else t.move source target
  | _, _ => t

end FileTree

end BranchLog
