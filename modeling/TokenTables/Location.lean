/-!
Positions in a grammar file, ordered line by line.
-/

namespace TokenTables

/-- A position counted from line 1, column 1. -/
structure Location where
  line : Nat
  column : Nat
deriving DecidableEq, Repr, Inhabited

namespace Location

/-- The position of what was not written anywhere. -/
def unknown : Location := ⟨0, 0⟩

def isUnknown (l : Location) : Bool := l == unknown

/-- Earlier lines first, then earlier columns. -/
def before (a b : Location) : Bool := a.line < b.line || (a.line == b.line && a.column ≤ b.column)

def order (a b : Location) : Ordering := (compare a.line b.line).then (compare a.column b.column)

/-- The wording of messages. -/
def describe (l : Location) : String := s!"line {l.line}, column {l.column}"

/-- The short form. -/
def brief (l : Location) : String := s!"{l.line}:{l.column}"

end Location

end TokenTables
