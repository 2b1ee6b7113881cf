import BranchLog.FileTree.Basic

/-!
# Where a path leads

A path is followed step by step. Every step needs a directory to be taken from, and a link on the
way is replaced by the steps of its target, whether more steps follow or not. A way through more
than `mostLinks` links is given up.
-/
namespace BranchLog.FileTree

def mostLinks : Nat := 40

/-- A place, and how many links the way may still go through from there. -/
structure Way where
  links : Nat
  place : Location

/-- Where the steps of a path begin, as seen from `place`. -/
def start (place : Location) (p : Path) : Location := if p.isAbsolute then [] else place

def follow (t : FileTree) : Way → List Step → Except Fault Way
  | w, [] => .ok w
  | ⟨links, place⟩, step :: rest =>
    match t.node? place with
    | some (.directory entries) =>
      match step with
      | .stay => t.follow ⟨links, place⟩ rest
      | .up => t.follow ⟨links, place.tail⟩ rest
      | .blocked fault => .error fault
      | .down n =>
        match entries.lookup n, links with
        | none, _ => .error .notFound
        | some (.link _), 0 => .error .tooManyLinks
        | some (.link target), left + 1 =>
          t.follow ⟨left, start place target⟩ (target.steps ++ rest)
        | some _, links => t.follow ⟨links, n :: place⟩ rest
    | _ => .error .notDirectory
termination_by w steps => (w.links, steps.length)

/-- Where steps from `place` lead, which is never a link. -/
def resolveFrom (t : FileTree) (place : Location) (steps : List Step) : Except Fault Location :=
  (t.follow ⟨mostLinks, place⟩ steps).map Way.place

def resolve (t : FileTree) (p : Path) : Except Fault Location :=
  if p.bytes.isEmpty then .error .notFound
  else if p.isTooLong then .error .nameTooLong
  else t.resolveFrom (start t.working p) p.steps

end BranchLog.FileTree
