import TokenTables.Text.CaseTable

/-!
Case folding for literals and character classes that ignore case. Only mappings of one character to
one character count, so folding never changes a length.
-/

namespace TokenTables.Text

/-- Moves `c` along the run that covers it, if any. -/
def shifted (runs : List CaseRun) (c : Char) : Char :=
  match runs.find? (·.covers c.toNat) with
  | some run => Char.ofNat (run.image c.toNat)
  | none => c

def toLower (c : Char) : Char := if c.toNat < 0x80 then c.toLower else shifted lowerRuns c

def toUpper (c : Char) : Char := if c.toNat < 0x80 then c.toUpper else shifted upperRuns c

/-- `c` and then its lower-case and upper-case forms, each once. -/
def caseForms (c : Char) : List Char := [c, toLower c, toUpper c].eraseDups

/-- Two characters are the same but for case if they share a lower-case or an upper-case form. -/
def sameButForCase (a b : Char) : Bool := a == b || toLower a == toLower b || toUpper a == toUpper b

/-- `text` begins with `start`, but for case. -/
def beginsButForCase : (text start : List Char) → Bool
  | _, [] => true
  | [], _ :: _ => false
  | c :: text, s :: start => sameButForCase c s && beginsButForCase text start

def equalButForCase (a b : List Char) : Bool :=
  a.length == b.length && beginsButForCase a b

end TokenTables.Text
