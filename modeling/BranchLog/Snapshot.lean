import BranchLog.FileTree.Edit

/-!
# Taking a file tree from the disk

Holds what a scan of one input can come to: the links on the way to the input, and all below it and
behind the links there. A link is kept with the real path it leads to. A pipe is read only where it
is the input, which takes until its writers close it.
-/
namespace BranchLog

structure Snapshot where
  tree : FileTree
  loaded : List Location := []

namespace Snapshot

/-- The place of an absolute path that goes through no link. -/
def placeOf (real : String) : Location :=
  ((Path.ofString real).steps.filterMap fun
    | .down n => some n
    | _ => none).reverse

def parentOf (real : String) : String :=
  String.ofList (real.toList.reverse.dropWhile (· ≠ '/')).reverse

/-- A node with the directories above it. -/
def put (s : Snapshot) (real : String) (x : Node) : Snapshot :=
  { s with tree :=
    (s.tree.makeDirectories (.ofString (parentOf real))).put (placeOf real) x }

/-- A target that leads nowhere for the reason that the system gives; numbers of errors may come
with a minus. `stub` is a file of the tree alone. -/
def deadEnd (self : String) : IO.Error → String
  | .inappropriateType _ _ _ => stub ++ "/."
  | .invalidArgument _ code _ =>
    if min code.toNat (UInt32.size - code.toNat) = 40 then self
    else String.ofList (List.replicate (longestName + 1) 'x')
  | _ => stub ++ "x"
where
  stub : String := "/\u0001"

mutual

/-- A directory and all below it. -/
partial def loadDirectory (s : Snapshot) (real : String) : IO Snapshot := do
  if s.loaded.contains (placeOf real) then return s
  let mut s := { s with
    tree := s.tree.makeDirectories (.ofString real), loaded := placeOf real :: s.loaded }
  for entry in ← (← IO.FS.realPath ⟨real⟩).readDir do
    let path := entry.path.toString
    match (← entry.path.symlinkMetadata).type with
    | .dir => s ← loadDirectory s path
    | .file => s := s.put path (.file (← IO.FS.readBinFile ⟨path⟩))
    | .other => s := s.put path (.pipe none)
    | .symlink => s ← loadLink s entry
  return s

partial def loadLink (s : Snapshot) (entry : IO.FS.DirEntry) : IO Snapshot := do
  let path := entry.path.toString
  match ← entry.path.metadata.toBaseIO with
  | .error e => return s.put path (.link (.ofString (deadEnd path e)))
  | .ok _ =>
    let target := (← IO.FS.realPath ⟨path⟩).toString
    loadNode (s.put path (.link (.ofString target))) target

partial def loadNode (s : Snapshot) (real : String) : IO Snapshot := do
  match (← (← IO.FS.realPath ⟨real⟩).metadata).type with
  | .dir => loadDirectory s real
  | .file => return s.put real (.file (← IO.FS.readBinFile ⟨real⟩))
  | _ => return s.put real (.pipe none)

end

/-- The links among the first pieces of a path, which the system has resolved. -/
def loadWay (s : Snapshot) (walked : String) : List String → IO Snapshot
  | [] => return s
  | piece :: rest => do
    let parent ← IO.FS.realPath ⟨if walked.isEmpty then "." else walked⟩
    let entry : IO.FS.DirEntry := { root := parent, fileName := piece }
    let mut s := s
    if piece ∉ ["", ".", ".."] then
      if (← entry.path.symlinkMetadata).type matches .symlink then
        s ← loadLink s entry
    loadWay s (walked ++ piece ++ "/") rest

/-- What `input` can come to, seen from the working directory. -/
def take (input : Path) : IO FileTree := do
  let working := (← IO.currentDir).toString
  let start : Snapshot := { tree := { working := placeOf working } }
  let start := { start with tree :=
    (start.tree.makeDirectories (.ofString working)).put (placeOf deadEnd.stub) (.file .empty) }
  let text := input.display
  match ← (IO.FS.realPath ⟨text⟩).toBaseIO with
  | .error _ => return start.tree
  | .ok real =>
    let s ← start.loadWay "" (text.splitOn "/")
    match (← real.metadata).type with
    | .other =>
      return (s.put real.toString (.pipe (some (← IO.FS.readBinFile real)))).tree
    | _ => return (← loadNode s real.toString).tree

end Snapshot

end BranchLog
