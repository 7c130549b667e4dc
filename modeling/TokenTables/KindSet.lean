import TokenTables.Kind

/-!
Sets of kinds, held as 64-bit words that grow on demand. Two sets are equal, and hash alike, when their words
agree up to empty words at the end.
-/

namespace TokenTables

/-- A set of kinds. Word `i` holds the kinds from `64 * i` on. -/
structure KindSet where
  words : Array (BitVec 64) := #[]
deriving Repr, Inhabited

namespace KindSet

def empty : KindSet := {}

/-- Word `i`, empty past the end. -/
def word (s : KindSet) (i : Nat) : BitVec 64 := s.words.getD i 0#64

def contains (s : KindSet) (k : Kind) : Bool := (s.word (k / 64)).getLsbD (k % 64)

/-- The same set over at least `n` words. -/
def grow (s : KindSet) (n : Nat) : KindSet :=
  ⟨s.words ++ Array.replicate (n - s.words.size) 0#64⟩

def insert (s : KindSet) (k : Kind) : KindSet :=
  ⟨(s.grow (k / 64 + 1)).words.modify (k / 64) (· ||| BitVec.twoPow 64 (k % 64))⟩

/-- Inserts `k`, and tells whether it was absent. -/
def insertNew (s : KindSet) (k : Kind) : KindSet × Bool := (s.insert k, !s.contains k)

def insertAll (s : KindSet) (kinds : List Kind) : KindSet := kinds.foldl insert s

def ofList (kinds : List Kind) : KindSet := empty.insertAll kinds

def union (s t : KindSet) : KindSet :=
  ⟨(s.grow t.words.size).words.mapIdx fun i w => w ||| t.word i⟩

/-- The members of word `i`, ascending. -/
def wordMembers (s : KindSet) (i : Nat) : List Kind := ((List.range 64).filter (s.word i).getLsbD).map (64 * i + ·)

/-- The members, ascending. -/
def toList (s : KindSet) : List Kind := (List.range s.words.size).flatMap s.wordMembers

def isEmpty (s : KindSet) : Bool := s.words.all (· == 0#64)

/-- The number of members: the bits set in all words. -/
def size (s : KindSet) : Nat := s.words.toList.foldl (fun n w => n + w.cpop.toNat) 0

/-- The least member. -/
def first? (s : KindSet) : Option Kind := s.toList.head?

/-- The words up to the last one in use. -/
def usedWords (s : KindSet) : List (BitVec 64) :=
  (s.words.toList.reverse.dropWhile (· == 0#64)).reverse

instance : BEq KindSet where
  beq s t := s.usedWords == t.usedWords

instance : Hashable KindSet where
  hash s := hash s.usedWords

/-- The members between braces, as messages show them. -/
def describe (s : KindSet) : String :=
  "\x7b" ++ ", ".intercalate (s.toList.map Kind.tag) ++ "\x7d"

end KindSet

end TokenTables
