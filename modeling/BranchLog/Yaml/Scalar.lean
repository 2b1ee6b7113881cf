import BranchLog.Yaml.Implicit

/-!
# Scalars

A text is written in one of four styles: plain, between single quotes, between double quotes, or
as a literal block of indented lines. `Style.of` takes the first style that can hold the text; only
double quotes can hold all.
-/
namespace BranchLog.Yaml

def isBreak (c : Char) : Bool := c ∈ ['\n', '\r', '\u0085', '\u2028', '\u2029']

def isPrintable (c : Char) : Bool :=
  c = '\n' || (' ' ≤ c && c ≤ '~') || ('\u00a0' ≤ c && !(c ∈ ['\ufeff', '\ufffe', '\uffff']))

/-- Ends a token of the layout. -/
def isGap (c : Char) : Bool := c ∈ [' ', '\t', '\x00'] || isBreak c

/-- Two neighbours of which the first satisfies `p` and the second `q`. -/
def hasPair (p q : Char → Bool) (cs : List Char) : Bool :=
  (cs.zip cs.tail).any fun (a, b) => p a && q b

def isSpace (c : Char) : Bool := c = ' '

inductive Style where
  | plain
  | single
  | double
  | literal
  deriving DecidableEq, Repr

/-- Begin a token wherever they stand first. -/
def indicators : List Char := "#,[]{}&*!|>'\"%@\x60".toList

/-- Begin a token before a gap or at the end. -/
def leaders : List Char := ['?', ':', '-']

def opensToken : List Char → Bool
  | [] => true
  | c :: r => c ∈ indicators || (c ∈ leaders && r.head?.all isGap)

def marksDocument (cs : List Char) : Bool :=
  "---".toList.isPrefixOf cs || "...".toList.isPrefixOf cs

/-- A key ends at a colon before a gap, a comment begins at a sharp behind one. -/
def endsToken (cs : List Char) : Bool :=
  hasPair (· = ':') isGap cs.tail || cs.tail.getLast? = some ':' || hasPair isGap (· = '#') cs

def hasLooseEnd (cs : List Char) : Bool :=
  let loose (c : Char) := isSpace c || isBreak c
  cs.head?.any loose || cs.getLast?.any loose

def fitsPlain (cs : List Char) : Bool :=
  readsAsText cs && !marksDocument cs && !opensToken cs && !endsToken cs && !hasLooseEnd cs &&
    cs.all fun c => isPrintable c && !isBreak c

def fitsSingle (cs : List Char) : Bool :=
  cs.all isPrintable && !hasPair isSpace isBreak cs && !hasPair isBreak isSpace cs

def fitsLiteral (cs : List Char) : Bool :=
  cs.all isPrintable && !hasPair isSpace isBreak cs && cs.getLast? ≠ some ' '

def Style.of (cs : List Char) : Style :=
  if '\n' ∈ cs then if fitsLiteral cs then .literal else .double
  else if fitsPlain cs then .plain
  else if fitsSingle cs then .single
  else .double

def spaces (n : Nat) : List Char := List.replicate n ' '

/-- Breaks stand as they are, and the first character behind them is indented. -/
def indentLines (indent : Nat) : (atStart : Bool) → List Char → List Char
  | _, [] => []
  | atStart, c :: r =>
    if isBreak c then c :: indentLines indent true r
    else (if atStart then spaces indent else []) ++ c :: indentLines indent false r

def writeSingle (indent : Nat) (cs : List Char) : List Char :=
  let doubled := cs.flatMap fun c => if c = '\'' then ['\'', '\''] else [c]
  '\'' :: indentLines indent false (doubled ++ ['\''])

def hexDigit (n : Nat) : Char := (Nat.digitChar n).toUpper

/-- The names of characters in escapes. -/
def escapeNames : List (Char × Char) :=
  [('\x00', '0'), ('\x07', 'a'), ('\x08', 'b'), ('\t', 't'), ('\n', 'n'), ('\x0b', 'v'),
    ('\x0c', 'f'), ('\r', 'r'), ('\x1b', 'e'), ('"', '"'), ('\\', '\\'), ('\u0085', 'N'),
    ('\u2028', 'L'), ('\u2029', 'P')]

def escapeCode (n : Nat) : List Char :=
  if n < 0x100 then ['x', hexDigit (n / 0x10), hexDigit (n % 0x10)]
  else ['u', hexDigit (n / 0x1000), hexDigit (n / 0x100 % 0x10), hexDigit (n / 0x10 % 0x10),
    hexDigit (n % 0x10)]

def escape (c : Char) : List Char :=
  match escapeNames.lookup c with
  | some name => ['\\', name]
  | none => if isPrintable c then [c] else '\\' :: escapeCode c.toNat

def writeDouble (cs : List Char) : List Char := '"' :: cs.flatMap escape ++ ['"']

/-- The indentation is announced where the first line does not show it. -/
def indentationMark (cs : List Char) : List Char :=
  if cs.head?.any fun c => isSpace c || isBreak c then ['2'] else []

/-- One break at the end needs no mark: none is `-`, more are `+`. -/
def endMark (cs : List Char) : List Char :=
  match cs.reverse with
  | [] => ['-']
  | [c] => if isBreak c then ['+'] else ['-']
  | c :: d :: _ => if !isBreak c then ['-'] else if isBreak d then ['+'] else []

def writeLiteral (indent : Nat) (cs : List Char) : List Char :=
  '|' :: indentationMark cs ++ endMark cs ++ '\n' :: indentLines indent true cs

def Style.write (indent : Nat) (cs : List Char) : Style → List Char
  | .plain => cs
  | .single => writeSingle indent cs
  | .double => writeDouble cs
  | .literal => writeLiteral indent cs

def scalar (indent : Nat) (s : String) : List Char :=
  (Style.of s.toList).write indent s.toList

/-- A literal block may end its last line itself. -/
def endsLine (s : String) : Bool :=
  Style.of s.toList = .literal && s.toList.getLast?.any isBreak

/-- A scalar at the end of a line. -/
def scalarLine (indent : Nat) (s : String) : List Char :=
  scalar indent s ++ if endsLine s then [] else ['\n']

end BranchLog.Yaml
