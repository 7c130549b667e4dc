import TokenTables.CodeSet
import TokenTables.Ordered
import TokenTables.Text.CodeRange

/-!
The characters a state moves on: a bit set for ASCII, and ascending lists of single code points and of
ranges for the rest.
-/

namespace TokenTables.Automaton

open Text (CodeRange)

/-- The first code point outside ASCII. -/
def asciiEnd : Nat := 0x80

structure Moves where
  ascii : CodeSet asciiEnd := CodeSet.empty
  /-- Single code points outside ASCII, ascending. -/
  singles : List Nat := []
  /-- Ranges of two or more code points outside ASCII, ascending. -/
  ranges : List CodeRange := []
deriving DecidableEq, Repr

namespace Moves

def isEmpty (m : Moves) : Bool := m.ascii == CodeSet.empty && m.singles.isEmpty && m.ranges.isEmpty

def acceptsCode (m : Moves) (code : Nat) : Bool :=
  if code < asciiEnd then m.ascii.contains code
  else m.singles.contains code || m.ranges.any (·.contains code)

def accepts (m : Moves) (c : Char) : Bool := m.acceptsCode c.toNat

def addCode (m : Moves) (code : Nat) : Moves :=
  if code < asciiEnd then { m with ascii := m.ascii.insert code }
  else { m with singles := insertNat code m.singles }

/-- Adds a range; the part inside ASCII goes to the bit set, and what is left of it to one list or the
other. -/
def addRange (m : Moves) (r : CodeRange) : Moves :=
  if r.last < r.first then m
  else
    let m := { m with ascii := m.ascii.insertRange r.first (min r.last (asciiEnd - 1)) }
    let first := max r.first asciiEnd
    if r.last < asciiEnd then m
    else if first == r.last then m.addCode first
    else { m with ranges := insertOrdered CodeRange.before ⟨first, r.last⟩ m.ranges }

def addRanges (m : Moves) (ranges : List CodeRange) : Moves := ranges.foldl addRange m

def union (m other : Moves) : Moves :=
  addRanges (other.singles.foldl addCode { m with ascii := m.ascii ||| other.ascii }) other.ranges

end Moves

end TokenTables.Automaton
