import TokenTables.Automaton.Moves
import TokenTables.Kind

/-!
The nondeterministic automaton of one lexical state. States are numbered in order of creation; a state
either moves on characters to one next state or has epsilon moves.
-/

namespace TokenTables.Automaton

/-- The place of a state in its graph. -/
abbrev StateId := Nat

/-- The place of a state, or of a set of states, in the exported table. -/
abbrev EntryName := Nat

structure State where
  moves : Moves := {}
  /-- Entered after any of the moves. -/
  next : Option StateId := none
  /-- Entered without reading a character, ascending until states are merged. -/
  epsilon : List StateId := []
  /-- The best kind reached through epsilon moves, once closed. -/
  kind : Option Kind := none
  /-- The kind matched after a move out of this state. -/
  reported : Option Kind := none
  isFinal : Bool := false
  name : Option EntryName := none
  /-- Named after another state that behaves the same. -/
  isAlias : Bool := false
  /-- The epsilon moves are complete. -/
  isClosed : Bool := false
  keptEpsilon : Nat := 0
  /-- The names behind the epsilon moves, once asked for. -/
  namesBehind : Option (List EntryName) := none
  /-- The dispatch method for characters outside ASCII. -/
  dispatch : Option Nat := none
deriving DecidableEq, Repr

namespace State

def hasMoves (s : State) : Bool := !s.moves.isEmpty

/-- Worth keeping among epsilon moves: a match ends here or a character can be read. -/
def matters (s : State) : Bool := s.isFinal || s.hasMoves

def accepts (s : State) (c : Char) : Bool := s.moves.accepts c

/-- The moves and kinds of `s`, without edges or names. -/
def bare (s : State) : State :=
  { moves := s.moves, kind := s.kind, reported := s.reported, isFinal := s.isFinal }

/-- Takes over the moves of `other` and the better kinds. -/
def merge (s other : State) : State :=
  { s with
    moves := s.moves.union other.moves
    kind := Kind.better s.kind other.kind
    reported := Kind.better s.reported other.reported
    isFinal := s.isFinal || other.isFinal }

end State

/-- A set of named states with a name of its own. -/
structure NameGroup where
  members : List EntryName
  name : EntryName
deriving DecidableEq, Repr

structure Graph where
  states : Array State := #[]
  /-- Where every regex of the lexical state begins. -/
  initial : Option StateId := none
  /-- States made by merging, with the states each one stands for. -/
  merged : List (List StateId × StateId) := []
  /-- The first state of each name. -/
  named : Array StateId := #[]
  groups : Array NameGroup := #[]
deriving DecidableEq, Repr

namespace Graph

def size (g : Graph) : Nat := g.states.size

def state (g : Graph) (id : StateId) : State := g.states.getD id {}

/-- Adds a state; its number is the size of `g`. -/
def addState (g : Graph) (s : State) : Graph := { g with states := g.states.push s }

def alter (g : Graph) (id : StateId) (change : State → State) : Graph :=
  { g with states := g.states.modify id change }

def linkEpsilon (g : Graph) (source target : StateId) : Graph :=
  g.alter source fun s => { s with epsilon := insertNat target s.epsilon }

/-- A match of `kind` ends in state `id`. -/
def acceptAt (g : Graph) (id : StateId) (kind : Kind) : Graph :=
  g.alter id fun s => { s with isFinal := true, kind := Kind.better s.kind (some kind) }

/-- The initial state, made on first use. -/
def withInitial (g : Graph) : Graph × StateId :=
  match g.initial with
  | some id => (g, id)
  | none => ({ g.addState {} with initial := some g.size }, g.size)

/-- The states active before the first character, once closed. -/
def openingStates (g : Graph) : List StateId :=
  match g.initial with
  | some id => (g.state id).epsilon
  | none => []

/-- The kind matched by the empty text, once closed. -/
def openingKind (g : Graph) : Option Kind := g.initial.bind fun id => (g.state id).kind

/-- Reads `c` in every active state: the best kind reported, and the states active afterwards. -/
def step (g : Graph) (c : Char) (active : List StateId) : Option Kind × List StateId :=
  active.reverse.foldl
    (fun (best, after) id =>
      let s := g.state id
      if s.accepts c then
        let entered := match s.next with
          | some next => (g.state next).epsilon
          | none => []
        (Kind.better best s.reported, entered.reverse.foldl (fun acc t => insertNat t acc) after)
      else (best, after))
    (none, [])

/-- The names of those states that have one. -/
def entryNames (g : Graph) (ids : List StateId) : List EntryName :=
  ascending (ids.filterMap fun id => (g.state id).name)

/-- How many names of single states are in use. -/
def nameCount (g : Graph) : Nat := g.named.size

end Graph

end TokenTables.Automaton
