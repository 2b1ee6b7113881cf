import BranchLog.Format
import BranchLog.Path

/-!
# The command line

Arguments are read from left to right and the first refusal ends the reading. An option with a
value in an argument of its own waits until the next known option or the end settles it, so that a
fault in between is found first.
-/
namespace BranchLog

/-- Why a command line is not obeyed. -/
inductive Refusal where
  | unknownArgument
  | tooManyValues
  | invalidValue
  | argumentConflict
  | displayHelp
  deriving DecidableEq, Repr

/-- Help was asked for; all else is a mistake. -/
def Refusal.exitCode : Refusal → Nat
  | .displayHelp => 0
  | _ => 2

inductive Flag where
  | strict
  | counts
  | verbose
  deriving DecidableEq, Repr

/-- An option that takes a value. -/
inductive Setting where
  | input
  | format
  deriving DecidableEq, Repr

inductive Switch where
  | setting (s : Setting)
  | flag (f : Flag)
  | help
  deriving DecidableEq, Repr

def switches : List (String × Switch) :=
  [("input", .setting .input), ("format", .setting .format), ("strict", .flag .strict),
    ("counts", .flag .counts), ("verbose", .flag .verbose), ("help", .help)]

def Switch.named? (name : List UInt8) : Option Switch :=
  (Text.decode? name).bind fun s => switches.lookup s

structure Options where
  input : Path
  strict : Bool := false
  format : Format := .text
  counts : Bool := false
  verbose : Bool := false
  deriving DecidableEq

/-- The shape of one argument. -/
inductive Argument where
  | finish
  | long (s : Switch) (value : Option (List UInt8))
  | shortHelp
  | unknown
  deriving DecidableEq

namespace Argument

def hyphen : UInt8 := 0x2d

def equalsSign : UInt8 := 0x3d

/-- What stands behind the two hyphens: a name, and a value behind the first equals sign. -/
def ofLong (text : List UInt8) : Argument :=
  match Switch.named? (text.takeWhile (· ≠ equalsSign)) with
  | some s => .long s (text.dropWhile (· ≠ equalsSign)).tail?
  | none => .unknown

def ofBytes : List UInt8 → Argument
  | [] => .unknown
  | [_] => .unknown
  | a :: b :: r =>
    if a ≠ hyphen then .unknown
    else if b = hyphen then if r.isEmpty then .finish else ofLong r
    else if b = 0x68 then .shortHelp
    else .unknown

/-- Can be the value of the option before it. -/
def isValue (bytes : List UInt8) : Bool := bytes = [hyphen] || bytes.head? ≠ some hyphen

end Argument

/-- An option whose value comes in an argument of its own. -/
inductive Waiting where
  | expecting (s : Setting)
  | holding (s : Setting) (value : List UInt8)
  deriving DecidableEq

/-- What the arguments read so far have settled, and the option that waits. -/
structure Draft where
  flags : List Flag := []
  input : Option Path := none
  format : Option Format := none
  waiting : Option Waiting := none
  finished : Bool := false
  deriving DecidableEq

namespace Draft

def settle (d : Draft) : Setting → List UInt8 → Except Refusal Draft
  | .input, value =>
    if d.input.isSome then .error .argumentConflict
    else if value.isEmpty then .error .invalidValue
    else .ok { d with input := some ⟨value⟩ }
  | .format, value =>
    if d.format.isSome then .error .argumentConflict
    else match (Text.decode? value).bind Format.named? with
      | none => .error .invalidValue
      | some format => .ok { d with format := some format }

def settleWaiting (d : Draft) : Except Refusal Draft :=
  match d.waiting with
  | none => .ok d
  | some (.expecting _) => .error .invalidValue
  | some (.holding s value) => settle { d with waiting := none } s value

def raise (d : Draft) (f : Flag) : Except Refusal Draft :=
  if f ∈ d.flags then .error .argumentConflict else .ok { d with flags := f :: d.flags }

/-- A switch settles the option before it, but a value it cannot have is found first. -/
def switch (d : Draft) : Switch → Option (List UInt8) → Except Refusal Draft
  | .help, some _ => .error .tooManyValues
  | .flag _, some _ => .error .tooManyValues
  | .help, none => do
    let _ ← d.settleWaiting
    .error .displayHelp
  | .flag f, none => do
    let d ← d.settleWaiting
    d.raise f
  | .setting s, some value => do
    let d ← d.settleWaiting
    d.settle s value
  | .setting s, none => do
    let d ← d.settleWaiting
    return { d with waiting := some (.expecting s) }

/-- The expected value, if the argument can be one. -/
def expected? (d : Draft) (argument : List UInt8) : Option Draft :=
  match d.waiting with
  | some (.expecting s) =>
    if Argument.isValue argument then some { d with waiting := some (.holding s argument) }
    else none
  | _ => none

def read (d : Draft) (argument : List UInt8) : Except Refusal Draft :=
  if d.finished then .error .unknownArgument
  else match d.expected? argument with
    | some d => .ok d
    | none =>
      match Argument.ofBytes argument with
      | .unknown => .error .unknownArgument
      | .finish => .ok { d with finished := true }
      | .shortHelp => d.switch .help none
      | .long s value => d.switch s value

end Draft

namespace Options

/-- Where the instrumented fuzzing run leaves its log. -/
def defaultInput : Path := .ofString "/struct_fuzz/constraint_fuzz/data/libaom/br_conds"

/-- The environment names the input where no argument does. -/
def chooseInput (given : Option Path) (environment : Option (List UInt8)) :
    Except Refusal Path :=
  match given, environment with
  | some p, _ => .ok p
  | none, some [] => .error .invalidValue
  | none, some bytes => .ok ⟨bytes⟩
  | none, none => .ok defaultInput

def parse (arguments : List (List UInt8)) (environment : Option (List UInt8)) :
    Except Refusal Options := do
  let d ← arguments.foldlM Draft.read {}
  let d ← d.settleWaiting
  let input ← chooseInput d.input environment
  return {
    input
    strict := d.flags.contains .strict
    format := d.format.getD .text
    counts := d.flags.contains .counts
    verbose := d.flags.contains .verbose }

end Options

end BranchLog
