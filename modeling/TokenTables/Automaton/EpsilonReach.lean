import TokenTables.Automaton.Graph
import TokenTables.Unvisited

/-!
Epsilon closure. A state's epsilon moves grow by the useful states behind them, and its kind becomes the
best one found there, in rounds over everything reachable until no list grows.
-/

namespace TokenTables.Automaton

/-- A step of a depth-first walk. -/
inductive WalkStep where
  | enter (id : StateId)
  | leave (id : StateId)
deriving DecidableEq, Repr

namespace Graph

/-- Walks the epsilon moves between states that are not closed, and lists them as they are left. -/
def walk (g : Graph) : (todo : List WalkStep) → (entered left : List StateId) → List StateId
  | [], _, left => left.reverse
  | .leave id :: todo, entered, left => g.walk todo entered (id :: left)
  | .enter id :: todo, entered, left =>
    if fresh : id < g.size ∧ entered.contains id = false ∧ (g.state id).isClosed = false then
      g.walk ((g.state id).epsilon.map .enter ++ .leave id :: todo) (id :: entered) left
    else g.walk todo entered left
termination_by todo entered => (unvisited g.size entered, todo.length)
decreasing_by
  · exact Prod.Lex.right _ (by simp)
  · exact Prod.Lex.left _ _ (unvisited_cons_lt fresh.1 fresh.2.1)
  · exact Prod.Lex.right _ (by simp)

/-- The open states that `id` reaches by epsilon moves, itself last. -/
def openReach (g : Graph) (id : StateId) : List StateId := g.walk [.enter id] [] []

/-- Adds the useful states behind `target` to a list of epsilon moves. -/
def gatherFrom (g : Graph) (target : StateId) (epsilon : List StateId) : List StateId :=
  (g.state target).epsilon.foldl
    (fun found id => if (g.state id).matters && !found.contains id then insertNat id found else found) epsilon

/-- Goes through a list of epsilon moves by place, from place `i` on, while it grows. -/
def gather (g : Graph) : (places i : Nat) → List StateId → Option Kind → List StateId × Option Kind
  | 0, _, epsilon, kind => (epsilon, kind)
  | places + 1, i, epsilon, kind =>
    match epsilon[i]? with
    | none => (epsilon, kind)
    | some target =>
      g.gather places (i + 1) (g.gatherFrom target epsilon) (Kind.better kind (g.state target).kind)

/-- Everything one look behind the epsilon moves of `s` finds. A list gains each state once at most, so it
has no more places than this. -/
def gatherAll (g : Graph) (s : State) : List StateId × Option Kind :=
  g.gather (s.epsilon.length + g.size) 0 s.epsilon s.kind

/-- Takes over what the epsilon moves of `id` lead to, and tells whether the list grew. A state with moves
also counts itself. -/
def absorb (g : Graph) (id : StateId) : Graph × Bool :=
  let s := g.state id
  let (epsilon, kind) := g.gatherAll s
  let withSelf := if s.hasMoves && !epsilon.contains id then insertNat id epsilon else epsilon
  (g.alter id fun s => { s with epsilon := withSelf, kind }, s.epsilon.length < epsilon.length)

def absorbAll (g : Graph) (ids : List StateId) : Graph × Bool :=
  ids.foldl (fun (g, grew) id =>
    let (g, grewHere) := g.absorb id
    (g, grew || grewHere)) (g, false)

def markClosed (g : Graph) (ids : List StateId) : Graph :=
  ids.foldl (fun g id => g.alter id fun s => { s with isClosed := true }) g

/-- Repeats rounds from `id` until one leaves every list as it is. -/
def closeRounds (id : StateId) : (rounds : Nat) → Graph → Graph
  | 0, g => g
  | rounds + 1, g =>
    let ids := g.openReach id
    let (g, grew) := g.absorbAll ids
    if grew then closeRounds id rounds g else g.markClosed ids

/-- Completes the epsilon moves of `id` and of all it reaches. Each round but the last adds a state to some
list, so there are no more rounds than pairs of states. -/
def close (g : Graph) (id : StateId) : Graph := closeRounds id (g.size * g.size + 1) g

/-- Completes all epsilon moves, the states last made first. -/
def closeAll (g : Graph) : Graph := (List.range g.size).reverse.foldl close g

end Graph

end TokenTables.Automaton
