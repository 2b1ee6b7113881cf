import BranchLog.Text.Utf8

/-!
# Paths

A path is bytes; its pieces between slashes are the steps it takes through a file tree. `Name`
holds the pieces that can name an entry of a directory, in the order in which a directory is
listed.
-/
namespace BranchLog

/-- Why a path leads nowhere. -/
inductive Fault where
  | notFound
  | notDirectory
  | tooManyLinks
  | nameTooLong
  deriving DecidableEq, Repr

def Fault.message : Fault → String
  | .notFound => "No such file or directory (os error 2)"
  | .notDirectory => "Not a directory (os error 20)"
  | .tooManyLinks => "Too many levels of symbolic links (os error 40)"
  | .nameTooLong => "File name too long (os error 36)"

def slash : UInt8 := 0x2f

def dot : UInt8 := 0x2e

/-- In bytes. -/
def longestName : Nat := 255

def IsName (bytes : List UInt8) : Prop :=
  bytes ∉ [[], [dot], [dot, dot]] ∧ slash ∉ bytes ∧ 0 ∉ bytes ∧ bytes.length ≤ longestName

instance (bytes : List UInt8) : Decidable (IsName bytes) :=
  inferInstanceAs (Decidable (_ ∧ _))

structure Name where
  bytes : List UInt8
  isName : IsName bytes
  deriving DecidableEq

namespace Name

instance : LT Name := ⟨fun a b => a.bytes < b.bytes⟩

instance : LE Name := ⟨fun a b => a.bytes ≤ b.bytes⟩

instance : DecidableLT Name := fun a b => inferInstanceAs (Decidable (a.bytes < b.bytes))

theorem ext {a b : Name} (h : a.bytes = b.bytes) : a = b := by
  cases a; cases b; cases h; rfl

instance : Std.IsLinearOrder Name where
  le_refl a := Std.le_refl a.bytes
  le_trans _ _ _ h h' := Std.le_trans (α := List UInt8) h h'
  le_antisymm _ _ h h' := ext (Std.le_antisymm h h')
  le_total a b := Std.le_total (a := a.bytes) (b := b.bytes)

instance : Std.LawfulOrderLT Name where
  lt_iff a b := Std.LawfulOrderLT.lt_iff a.bytes b.bytes

end Name

/-- What one piece of a path asks for. -/
inductive Step where
  | stay
  | up
  | down (name : Name)
  | blocked (fault : Fault)
  deriving DecidableEq

def Step.ofPiece (piece : List UInt8) : Step :=
  if h : IsName piece then .down ⟨piece, h⟩
  else if piece = [dot, dot] then .up
  else if 0 ∈ piece then .blocked .notFound
  else if longestName < piece.length then .blocked .nameTooLong
  else .stay

theorem Step.ofPiece_name (n : Name) : ofPiece n.bytes = .down n := by
  rw [ofPiece, dif_pos n.isName]

structure Path where
  bytes : List UInt8
  deriving DecidableEq

/-- In bytes. -/
def longestPath : Nat := 4095

namespace Path

def ofString (s : String) : Path := ⟨Text.encode s⟩

def text? (p : Path) : Option String := Text.decode? p.bytes

def display (p : Path) : String := Text.display p.bytes

def isAbsolute (p : Path) : Bool := p.bytes.head? = some slash

/-- Too long to be looked up, wherever it leads. -/
def isTooLong (p : Path) : Bool := longestPath < p.bytes.length

/-- Can be written down but not handed over: a zero byte would end it. -/
def hasZero (p : Path) : Bool := p.bytes.contains 0

def endsInSlash (p : Path) : Bool := p.bytes.getLast? = some slash

def dropEndSlashes (p : Path) : Path := ⟨(p.bytes.reverse.dropWhile (· = slash)).reverse⟩

/-- An empty piece, between two slashes or behind the last, stays where it is. -/
def steps (p : Path) : List Step := (p.bytes.splitOn slash).map Step.ofPiece

/-- The entry `n` of the directory `p`. -/
def join (p : Path) (n : Name) : Path :=
  if p.endsInSlash then ⟨p.bytes ++ n.bytes⟩ else ⟨p.bytes ++ slash :: n.bytes⟩

end Path

end BranchLog
