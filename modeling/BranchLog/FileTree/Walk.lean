import BranchLog.FileTree.Resolve

/-!
# Walking a directory

The files below a directory, links followed, in the order of their names. A link that leads nowhere
ends the walk, and so does one to a directory that the walk is already in. Real directories are
entered unchecked: `enter_lt` shows that the walk ends all the same, since an entered link takes up
one more directory of the tree and all else goes to a directory of less height.
-/
namespace BranchLog

structure LogFile where
  path : Path
  data : ByteArray

/-- A directory as the walk came to it. -/
structure Visit where
  path : Path
  place : Location
  deriving DecidableEq

inductive WalkFault where
  | loop (path ancestor : Path)
  | unresolved (path : Path) (fault : Fault)
  deriving DecidableEq

/-- Outer causes first. -/
def WalkFault.causes : WalkFault → List String
  | .loop path ancestor =>
    ["File system loop found: " ++ path.display ++ " points to an ancestor " ++ ancestor.display]
  | .unresolved path fault =>
    ["IO error for operation on " ++ path.display ++ ": " ++ fault.message, fault.message]

namespace FileTree

/-- What a walk does with one entry. -/
inductive Entry where
  | leaf (found : Option LogFile)
  | enter (v : Visit)

/-- Only files hold a log. -/
def leafAt (t : FileTree) (path : Path) (place : Location) : Entry :=
  match t.node? place with
  | some (.file data) => .leaf (some ⟨path, data⟩)
  | _ => .leaf none

/-- An entry that a link leads to; of several ancestors at its place the innermost counts. -/
def linkedEntry (t : FileTree) (trail : List Visit) (path : Path) (place : Location) :
    Except WalkFault Entry :=
  if t.isDirectory place then
    match trail.find? (·.place = place) with
    | some ancestor => .error (.loop path ancestor.path)
    | none => .ok (.enter ⟨path, place⟩)
  else .ok (t.leafAt path place)

/-- The entry `n` of the directory `here`, below the directories `above`. Links and directories are
looked up by their paths, files only when they are read. -/
def entryAt (t : FileTree) (here : Visit) (above : List Visit) (n : Name) :
    Except WalkFault Entry :=
  let path := here.path.join n
  match t.node? (n :: here.place) with
  | some (.link _) =>
    match t.resolve path with
    | .ok place => t.linkedEntry (here :: above) path place
    | .error fault => .error (.unresolved path fault)
  | some (.directory _) =>
    if path.isTooLong then .error (.unresolved path .nameTooLong)
    else .ok (.enter ⟨path, n :: here.place⟩)
  | _ => .ok (t.leafAt path (n :: here.place))

/-- The directories that the trail is not in. -/
def unvisited (t : FileTree) (trail : List Visit) : List Location :=
  t.directories.filter fun place => trail.all (·.place ≠ place)

theorem unvisited_cons (t : FileTree) (v : Visit) (trail : List Visit) :
    t.unvisited (v :: trail) = (t.unvisited trail).filter (v.place ≠ ·) := by
  simp [unvisited, List.filter_filter]

theorem length_unvisited_cons_le (t : FileTree) (v : Visit) (trail : List Visit) :
    (t.unvisited (v :: trail)).length ≤ (t.unvisited trail).length := by
  rw [unvisited_cons]
  exact List.length_filter_le ..

theorem length_unvisited_cons_lt {t : FileTree} {v : Visit} {trail : List Visit}
    (hv : t.isDirectory v.place = true) (ht : ∀ a ∈ trail, a.place ≠ v.place) :
    (t.unvisited (v :: trail)).length < (t.unvisited trail).length := by
  rw [unvisited_cons]
  refine List.length_filter_lt_length_iff_exists.2 ⟨v.place, ?_, by simp⟩
  exact List.mem_filter.2 ⟨mem_directories hv, by simpa using ht⟩

/-- What is left to a walk: directories to enter by a link, then levels to go down. -/
def remaining (t : FileTree) (here : Visit) (above : List Visit) : Nat × Nat :=
  ((t.unvisited (here :: above)).length, t.height here.place)

theorem enter_lt {t : FileTree} {here v : Visit} {above : List Visit} {n : Name}
    (h : t.entryAt here above n = .ok (.enter v)) :
    Prod.Lex (· < ·) (· < ·) (t.remaining v (here :: above)) (t.remaining here above) := by
  simp only [entryAt] at h
  split at h
  · split at h
    · next place _ =>
      simp only [linkedEntry] at h
      split at h
      · next hd =>
        split at h
        · simp at h
        · next hf =>
          cases h
          refine .left _ _ (length_unvisited_cons_lt hd ?_)
          simpa using hf
      · simp only [leafAt] at h
        split at h <;> simp at h
    · simp at h
  · next hn =>
    split at h
    · simp at h
    · cases h
      have hl := length_unvisited_cons_le t ⟨here.path.join n, n :: here.place⟩ (here :: above)
      rcases Nat.lt_or_eq_of_le hl with hl | hl
      · exact .left _ _ hl
      · rw [remaining, remaining, hl]
        exact .right _ (height_cons_lt hn)
  · simp only [leafAt] at h
    split at h <;> simp at h

theorem enter_decreases {t : FileTree} {here v : Visit} {above : List Visit} {n : Name}
    {ns rest : List Name} (h : t.entryAt here above n = .ok (.enter v)) :
    Prod.Lex (Prod.Lex (· < ·) (· < ·)) (· < ·)
      (t.remaining v (here :: above), ns.length) (t.remaining here above, rest.length) :=
  .left _ _ (enter_lt h)

theorem rest_decreases {t : FileTree} {here : Visit} {above : List Visit} {n : Name}
    {rest : List Name} :
    Prod.Lex (Prod.Lex (· < ·) (· < ·)) (· < ·)
      (t.remaining here above, rest.length) (t.remaining here above, (n :: rest).length) :=
  .right _ (by simp)

/-- The files at and below the named entries of a directory. -/
def walk (t : FileTree) (here : Visit) (above : List Visit) :
    List Name → Except WalkFault (List LogFile)
  | [] => .ok []
  | n :: rest =>
    match _h : t.entryAt here above n with
    | .error fault => .error fault
    | .ok (.leaf found) => (t.walk here above rest).map (found.toList ++ ·)
    | .ok (.enter v) =>
      match t.walk v (here :: above) (t.names v.place) with
      | .error fault => .error fault
      | .ok inner => (t.walk here above rest).map (inner ++ ·)
termination_by names => (t.remaining here above, names.length)
decreasing_by
  · exact rest_decreases
  · exact enter_decreases _h
  · exact rest_decreases

/-- The files of an input: all below a directory, else the node itself under its name as given. An
open pipe is found without its data, which a scan waits for before it reads. -/
def logFiles (t : FileTree) (input : Path) (place : Location) :
    Except WalkFault (List LogFile) :=
  match t.node? place with
  | some (.directory _) => t.walk ⟨input, place⟩ [] (t.names place)
  | some (.file data) => .ok [⟨input, data⟩]
  | some (.pipe written) => .ok [⟨input, written.getD .empty⟩]
  -- no path leads to a link itself, or to nothing
  | some (.link _) | none => .ok [⟨input, .empty⟩]

end FileTree

end BranchLog
