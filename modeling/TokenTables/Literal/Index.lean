import Std.Data.TreeMap
import TokenTables.Diagnostic.WideChar
import TokenTables.KindSet
import TokenTables.Text.Case
import TokenTables.Text.Quoted

/-!
The string literals of one lexical state, indexed by position and character: each cell tells which literals
go on past it and which end there.
-/

namespace TokenTables

/-- Settings that hold for every literal. -/
structure LiteralSettings where
  ignoreCase : Bool := false
  unicodeInput : Bool := false
deriving DecidableEq, Repr

structure Literal where
  chars : List Char
  kind : Kind
  /-- Its production ignores case. -/
  ignoreCase : Bool := false
  location : Location := .unknown
deriving DecidableEq, Repr

namespace Literal

def image (l : Literal) : String := String.ofList l.chars

def length (l : Literal) : Nat := l.chars.length

end Literal

/-- The literals that pass through one position on one character. -/
structure LiteralCell where
  /-- Those with more characters to come. -/
  continuing : KindSet := {}
  /-- Those that end here. -/
  ending : KindSet := {}
deriving Repr, Inhabited

namespace LiteralCell

def addContinuing (cell : LiteralCell) (k : Kind) : LiteralCell :=
  { cell with continuing := cell.continuing.insert k }

def addEnding (cell : LiteralCell) (k : Kind) : LiteralCell :=
  { cell with ending := cell.ending.insert k }

end LiteralCell

/-- What the automaton has matched at best while a literal was read, and at which position. -/
structure Progress where
  kind : Option Kind := none
  matchedAt : Nat := 0
deriving DecidableEq, Repr, Inhabited

/-- Where to go on in the automaton once a literal is given up, and what is matched by then. -/
structure Resumption where
  kind : Option Kind
  matchedAt : Nat
  /-- The names of the active states. -/
  states : List Nat
deriving DecidableEq, Repr

namespace Resumption

/-- By kind, none first, then by position and then by states. -/
def order : Resumption → Resumption → Ordering :=
  compareLex (compareOn (·.kind)) (compareLex (compareOn (·.matchedAt)) (compareOn (·.states)))

end Resumption

/-- The cells of one position. -/
abbrev LiteralCells := Std.TreeMap Char LiteralCell

/-- For each resumption after a position, the literals it applies to. -/
abbrev Resumptions := Std.TreeMap Resumption KindSet Resumption.order

structure LiteralIndex where
  options : LiteralSettings := {}
  cells : Array LiteralCells := #[]
  /-- In order of registration. -/
  literals : List Literal := []
  /-- The length of the longest literal. -/
  maxLength : Nat := 0
  /-- The last kind among the literals. -/
  lastKind : Option Kind := none
  /-- Productions disagree on ignoring case. -/
  mixesCase : Bool := false
  /-- Literals that another one extends. -/
  extendedKinds : KindSet := {}
  /-- Whether such a literal ends at a position. -/
  extendedEnds : List Bool := []
  progress : Std.TreeMap Kind (List Progress) := {}
  resumptions : Array Resumptions := #[]

namespace LiteralIndex

/-- The characters under which the cells of a literal are kept. -/
def cellKeys (options : LiteralSettings) (ignoreCase : Bool) (c : Char) : List Char :=
  if options.ignoreCase then [Text.toLower c]
  else if ignoreCase then
    if Text.toLower c == Text.toUpper c then [Text.toLower c] else [Text.toLower c, Text.toUpper c]
  else [c]

def addToCells (cells : LiteralCells) (keys : List Char) (change : LiteralCell → LiteralCell) :
    LiteralCells :=
  keys.foldl (fun cells key => cells.alter key fun cell => some (change (cell.getD {}))) cells

/-- Adds the rest of a literal from position `pos` on. -/
def addChars (t : LiteralIndex) (l : Literal) : (pos : Nat) → List Char → LiteralIndex
  | _, [] => t
  | pos, c :: rest =>
    let change := fun (cell : LiteralCell) =>
      if rest.isEmpty then cell.addEnding l.kind else cell.addContinuing l.kind
    let keys := cellKeys t.options l.ignoreCase c
    addChars { t with cells := t.cells.modify pos fun cells => addToCells cells keys change } l (pos + 1) rest

/-- Registers a literal; the empty one is left out. -/
def insert (t : LiteralIndex) (l : Literal) : LiteralIndex :=
  if l.chars.isEmpty then t
  else
    let room := t.cells ++ Array.replicate (l.length - t.cells.size) {}
    let t := { t with
      cells := room
      maxLength := max t.maxLength l.length
      lastKind := some (max (t.lastKind.getD l.kind) l.kind) }
    let t := t.addChars l 0 l.chars
    { t with literals := t.literals ++ [l] }

/-- What is reported about the characters of a literal. -/
def insertReports (t : LiteralIndex) (l : Literal) : List Report :=
  if t.options.unicodeInput then []
  else (l.chars.filter fun c => wideStart ≤ c.toNat).map fun c =>
    wideCharReport "non-ASCII characters used in string literal"
      s!"character {Text.quoted c} above U+00FF" l.location

def isEmpty (t : LiteralIndex) : Bool := t.literals.isEmpty

/-- `longer` begins with `shorter`, with case ignored if either or the run ignores it. -/
def extends? (t : LiteralIndex) (longer shorter : Literal) : Bool :=
  shorter.chars.isPrefixOf longer.chars ||
    ((t.options.ignoreCase || longer.ignoreCase || shorter.ignoreCase) &&
      Text.beginsButForCase longer.chars shorter.chars)

/-- Some literal other than the one at place `i` extends it. -/
def isExtended (t : LiteralIndex) (i : Nat) (l : Literal) : Bool :=
  t.literals.zipIdx.any fun (other, j) => j != i && t.extends? other l

/-- Marks the literals that others extend. In a mixed state every literal counts as one. -/
def markExtended (t : LiteralIndex) : LiteralIndex :=
  let extended := t.literals.zipIdx.filterMap fun (l, i) =>
    if t.mixesCase || t.isExtended i l then some l else none
  { t with
    extendedKinds := KindSet.ofList (extended.map (·.kind))
    extendedEnds := (List.range t.maxLength).map fun pos => extended.any fun l => l.length == pos + 1 }

/-- The cells of a position. -/
def cellsAt (t : LiteralIndex) (pos : Nat) : Option LiteralCells := t.cells[pos]?

def isExtendedKind (t : LiteralIndex) (k : Kind) : Bool := t.extendedKinds.contains k

def extendedEndAt (t : LiteralIndex) (pos : Nat) : Bool := t.extendedEnds.getD pos false

/-- The resumptions after a position. -/
def resumptionsAt (t : LiteralIndex) (pos : Nat) : Resumptions := t.resumptions.getD pos {}

/-- The literals in order of kinds. -/
def byKind (t : LiteralIndex) : List Literal := t.literals.mergeSort fun a b => a.kind ≤ b.kind

/-- The first kind among the literals spelled exactly so. -/
def kindOf (t : LiteralIndex) (chars : List Char) : Option Kind :=
  ((t.literals.filter (·.chars == chars)).map (·.kind)).min?

end LiteralIndex

end TokenTables
