/-!
Token kinds. A kind is its place in the grammar's declaration order, and of two kinds that match the same
text the earlier one wins.
-/

namespace TokenTables

/-- A token kind: its place in declaration order, from 1. -/
abbrev Kind := Nat

namespace Kind

/-- The kind of the end of the input, which no regex has. -/
def endOfInput : Kind := 0

/-- The earlier of two kinds; no kind at all loses to any kind. -/
def better : Option Kind → Option Kind → Option Kind
  | some a, some b => some (min a b)
  | some a, none => some a
  | none, b => b

/-- The kind as sets of kinds show it. -/
def tag (k : Kind) : String := s!"#{k}"

end Kind

end TokenTables
