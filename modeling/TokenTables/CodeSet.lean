/-!
Sets of the codes below a bound, one bit each.
-/

namespace TokenTables

/-- A set of codes below `n`. -/
abbrev CodeSet (n : Nat) := BitVec n

namespace CodeSet

variable {n : Nat}

def empty : CodeSet n := 0#n

def contains (s : CodeSet n) (code : Nat) : Bool := s.getLsbD code

def insert (s : CodeSet n) (code : Nat) : CodeSet n := s ||| BitVec.twoPow n code

/-- Adds the codes from `first` to `last`, both included. -/
def insertRange (s : CodeSet n) (first last : Nat) : CodeSet n :=
  (List.range' first (last + 1 - first)).foldl insert s

def ofList (codes : List Nat) : CodeSet n := codes.foldl insert empty

/-- The set in words of 64 codes, the least first. -/
def words (s : CodeSet n) : List (BitVec 64) :=
  (List.range (n / 64)).map fun i => s.extractLsb' (64 * i) 64

end CodeSet

end TokenTables
