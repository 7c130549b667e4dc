import TokenTables.Automaton.Entry
import TokenTables.Grammar
import TokenTables.Literal.Candidates

/-!
Generated tokenizers: the tables that a loop over the input needs. At each place it takes the longest
match, of equal ones the earliest kind, and then acts as that kind's tables say.
-/

namespace TokenTables

open Automaton (DispatchTable Entry EntryName)

/-- What some kind of the grammar makes the loop prepare for. -/
structure Features where
  /-- A skipped or special kind has an action, or a special one a state change. -/
  actsOnSkip : Bool := false
  actsOnMore : Bool := false
  actsOnSpecial : Bool := false
  actsOnToken : Bool := false
  /-- A lexical state matches the empty text. -/
  matchesEmpty : Bool := false
  /-- Empty matches may go on for ever. -/
  mayLoop : Bool := false
  hasMore : Bool := false
  hasSpecial : Bool := false
  hasSkip : Bool := false
deriving DecidableEq, Repr

/-- What a match of a kind means. -/
structure KindMeaning where
  kind : Kind
  /-- The text of a literal that minds case. -/
  image : Option String
  disposition : Disposition
  nextState : Option Nat
  action : Option Action
deriving DecidableEq, Repr

structure LexicalState where
  name : String
  /-- The name active before the first character. -/
  initial : Option EntryName
  /-- The kind that any one character matches. -/
  wildcard : Option Kind
  /-- Its literals disagree on ignoring case. -/
  mixesCase : Bool
  hasAutomaton : Bool
  /-- The kind that the empty text matches. -/
  emptyMatch : Option Kind
  /-- Empty matches may come back to this state. -/
  mayLoop : Bool := false
  /-- A kind that leaves its token unfinished leads here. -/
  reachedByMore : Bool := false
  /-- The place of its first entry among all entries. -/
  firstEntry : Nat
  entryCount : Nat
  literals : LiteralIndex

structure Tokenizer where
  states : List LexicalState
  entries : Array Entry
  dispatch : DispatchTable
  literals : CandidateTables
  skipped : KindSet
  unfinished : KindSet
  specials : KindSet
  tokens : KindSet
  /-- For each kind the lexical state to go to, `none` to stay. -/
  nextStates : List (Option Nat)
  /-- For each kind what it means, `none` if it is private or unused. -/
  meanings : List (Option KindMeaning)
  features : Features
  lastKind : Kind

namespace Tokenizer

/-- The lexical state that tokenizing starts in. -/
def startState : Nat := 0

def stateNames (t : Tokenizer) : List String := t.states.map (·.name)

def stateIndex? (t : Tokenizer) (name : String) : Option Nat := t.stateNames.idxOf? name

def meaning? (t : Tokenizer) (k : Kind) : Option KindMeaning := (t.meanings[k]?).join

/-- What becomes of a match of `k`. -/
def disposition? (t : Tokenizer) (k : Kind) : Option Disposition :=
  if t.specials.contains k then some .special
  else if t.skipped.contains k then some .skip
  else if t.unfinished.contains k then some .more
  else if t.tokens.contains k then some .token
  else none

/-- The lexical state after a match of `k`, `none` to stay. -/
def nextState? (t : Tokenizer) (k : Kind) : Option Nat := (t.nextStates[k]?).join

/-- The members of a group, or the name by itself. -/
def expand (t : Tokenizer) (name : EntryName) : List EntryName :=
  match t.entries[name]? with
  | some (.group members) => members
  | _ => [name]

end Tokenizer

end TokenTables
