import TokenTables.Literal.Resumption

/-!
The literal tables of a whole run: for each lexical state and first character the literals that may follow,
longest first, and for each kind of literal the automaton state to go on from.
-/

namespace TokenTables

open Automaton (Graph EntryName)

structure Candidate where
  chars : List Char
  /-- The kind reported, which is earlier than the literal's own if a regex takes the same text. -/
  kind : Kind
  ignoreCase : Bool
deriving DecidableEq, Repr

namespace Candidate

def image (e : Candidate) : String := String.ofList e.chars

/-- The text begins with this literal. -/
def begins (e : Candidate) (text : List Char) : Bool :=
  if e.ignoreCase then Text.beginsButForCase text e.chars else e.chars.isPrefixOf text

/-- Puts an entry before the first one that is no longer. -/
def place (e : Candidate) : List Candidate → List Candidate
  | [] => [e]
  | first :: rest =>
    if first.chars.length ≤ e.chars.length then e :: first :: rest else first :: e.place rest

end Candidate

/-- By lexical state, then by character. -/
abbrev stateCharOrder : Nat × Char → Nat × Char → Ordering := compareLex (compareOn (·.1)) (compareOn (·.2))

/-- By lexical state, then by kind. -/
abbrev stateKindOrder : Nat × Kind → Nat × Kind → Ordering := compareLex (compareOn (·.1)) (compareOn (·.2))

structure CandidateTables where
  /-- By lexical state and first character. -/
  byFirst : Std.TreeMap (Nat × Char) (List Candidate) stateCharOrder := {}
  /-- Where to go on after a literal, by lexical state and kind. -/
  startStates : Std.TreeMap (Nat × Kind) EntryName stateKindOrder := {}

namespace CandidateTables

/-- The literals of a lexical state that may begin with `c`. -/
def beginningWith (t : CandidateTables) (lexState : Nat) (c : Char) : List Candidate :=
  t.byFirst.getD (lexState, c) []

def addEntry (t : CandidateTables) (lexState : Nat) (e : Candidate) (key : Char) : CandidateTables :=
  { t with byFirst := t.byFirst.alter (lexState, key) fun entries => some (e.place (entries.getD [])) }

/-- Sets the state to go on from, or takes it away. -/
def setStart (t : CandidateTables) (lexState : Nat) (k : Kind) : Option EntryName → CandidateTables
  | some name => { t with startStates := t.startStates.insert (lexState, k) name }
  | none => { t with startStates := t.startStates.erase (lexState, k) }

end CandidateTables

namespace LiteralIndex

/-- The kind of an earlier regex that takes the whole of a literal. -/
def shadowingKind (t : LiteralIndex) (l : Literal) : Option Kind := do
  let steps ← t.progress[l.kind]?
  let step ← steps[l.length - 1]?
  let k ← step.kind
  if step.matchedAt = l.length - 1 ∧ k < l.kind then some k else none

def shadowedReport (l : Literal) (k : Kind) : Report :=
  .always <| (Diagnostic.warning .shadowedLiteral
    (s!"Token: \"{l.image}\" will not be matched as specified. " ++
      s!"It will be matched as token of kind: {k} instead.")).pointingAt
    l.location "matched by an earlier regular expression"

/-- The entry of a literal, with its characters in lower case if the whole run ignores case. -/
def entryOf (t : LiteralIndex) (l : Literal) : Candidate where
  chars := if t.options.ignoreCase then l.chars.map Text.toLower else l.chars
  kind := (t.shadowingKind l).getD l.kind
  ignoreCase := t.options.ignoreCase || l.ignoreCase

/-- The first characters under which an entry is kept. -/
def entryKeys (e : Candidate) : List Char :=
  match e.chars with
  | [] => []
  | c :: _ => if e.ignoreCase then Text.caseForms c else [c]

/-- What registering literals changes: the tables, the graph (which may gain names of groups), and what is
reported. -/
structure TableUpdate where
  tables : CandidateTables
  graph : Graph
  reports : List Report := []

/-- Enters one literal. -/
def enterLiteral (t : LiteralIndex) (lexState offset : Nat) (u : TableUpdate) (l : Literal) : TableUpdate :=
  let e := t.entryOf l
  let tables := (entryKeys e).foldl (fun tables key => tables.addEntry lexState e key) u.tables
  let (graph, start) := t.startState (l.length - 1) l.kind u.graph
  { tables := tables.setStart lexState e.kind (start.map (· + offset))
    graph
    reports := u.reports ++ (t.shadowingKind l).toList.map (shadowedReport l) }

/-- Enters the literals of a lexical state, in order of kinds, with state names moved up by `offset`. -/
def register (t : LiteralIndex) (lexState offset : Nat) (g : Graph) (tables : CandidateTables) :
    TableUpdate :=
  t.byKind.foldl (t.enterLiteral lexState offset) { tables, graph := g }

end LiteralIndex

end TokenTables
