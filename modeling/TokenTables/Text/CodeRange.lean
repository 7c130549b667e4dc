/-!
Inclusive ranges of code points, and lists of them as sets: `normalize` makes a list ascending and
disjoint, `complement` turns such a list into what it leaves out of the Basic Multilingual Plane.
-/

namespace TokenTables.Text

/-- The last code point of the Basic Multilingual Plane, and the last one a grammar may use. -/
def lastCode : Nat := 0xFFFF

/-- The code points from `first` to `last`, both included. -/
structure CodeRange where
  first : Nat
  last : Nat
deriving DecidableEq, Repr

namespace CodeRange

def single (code : Nat) : CodeRange := ⟨code, code⟩

def contains (r : CodeRange) (code : Nat) : Bool := r.first ≤ code && code ≤ r.last

/-- By first code point, then by last. -/
def before (a b : CodeRange) : Bool := a.first < b.first || (a.first == b.first && a.last ≤ b.last)

/-- Joins neighbours that overlap or touch, in a list that ascends by `first`. -/
def coalesce : List CodeRange → List CodeRange
  | [] => []
  | [r] => [r]
  | a :: b :: rest =>
    if b.first ≤ a.last + 1 then coalesce (⟨a.first, max a.last b.last⟩ :: rest)
    else a :: coalesce (b :: rest)
termination_by ranges => ranges.length

/-- The same code points as ascending ranges with gaps between them. -/
def normalize (ranges : List CodeRange) : List CodeRange := coalesce (ranges.mergeSort before)

/-- What normalized `ranges` leave out of `start` to `lastCode`. -/
def complementFrom (start : Nat) : List CodeRange → List CodeRange
  | [] => if start ≤ lastCode then [⟨start, lastCode⟩] else []
  | r :: rest =>
    if start < r.first then ⟨start, r.first - 1⟩ :: complementFrom (r.last + 1) rest
    else complementFrom (r.last + 1) rest

/-- What normalized `ranges` leave out of the Basic Multilingual Plane. -/
def complement (ranges : List CodeRange) : List CodeRange := complementFrom 0 ranges

/-- The parts of `r` on either side of the surrogate block, which holds no characters. -/
def outsideSurrogates (r : CodeRange) : List CodeRange :=
  (if r.first < 0xD800 then [⟨r.first, min r.last 0xD7FF⟩] else []) ++
    (if 0xDFFF < r.last then [⟨max r.first 0xE000, r.last⟩] else [])

/-- The characters of `r`, ascending. -/
def chars (r : CodeRange) : List Char :=
  r.outsideSurrogates.flatMap fun part =>
    (List.range' part.first (part.last + 1 - part.first)).map Char.ofNat

end CodeRange

end TokenTables.Text
