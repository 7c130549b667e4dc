import TokenTables.Automaton.EpsilonReach

/-!
Closing a whole graph. In each completed list of epsilon moves, states with equal moves or with a common
next state may be merged, which makes new states; then the list is pruned to states with moves.
-/

namespace TokenTables.Automaton

/-- Whether closing merges states. -/
inductive Closing where
  | plain
  | merging
deriving DecidableEq, Repr

/-- Which states closing merges. -/
structure MergeRule where
  equalMoves : Bool
  commonNext : Bool
deriving DecidableEq, Repr

theorem length_lt_of_partition {α : Type} {p : α → Bool} {xs more rest : List α} {x : α}
    (split : xs.partition p = (x :: more, rest)) : rest.length < xs.length := by
  rw [List.partition_eq_filter_filter, Prod.mk.injEq] at split
  obtain ⟨inside, outside⟩ := split
  rw [← outside, List.length_filter_lt_length_iff_exists]
  obtain ⟨mem, good⟩ := List.mem_filter.mp (inside ▸ List.mem_cons_self : x ∈ xs.filter p)
  exact ⟨x, mem, by simp [good]⟩

namespace Graph

/-- A state with the moves of the first member, which then goes on to wherever a member goes. -/
def addMerged (g : Graph) (members : List StateId) : Graph × StateId :=
  match members with
  | [] => (g.addState {}, g.size)
  | first :: others =>
    let hub := g.size + 1
    let start := { (g.state first).bare with next := some hub }
    let merged := others.foldl (fun s id => { s with
      kind := Kind.better s.kind (g.state id).kind
      isFinal := s.isFinal || (g.state id).isFinal }) start
    let nexts := members.filterMap fun id => (g.state id).next
    let wired := nexts.foldl (fun g next => g.linkEpsilon hub next) ((g.addState merged).addState {})
    (wired, g.size)

/-- The state that stands for these members, made on first use. -/
def mergedState (g : Graph) (members : List StateId) : Graph × StateId :=
  match g.merged.lookup members with
  | some id => (g, id)
  | none =>
    let (g, id) := g.addMerged members
    ({ g with merged := (members, id) :: g.merged }, id)

def movesAlike (g : Graph) (a b : StateId) : Bool :=
  (g.state a).hasMoves && (g.state a).moves == (g.state b).moves

def goesAlike (g : Graph) (a b : StateId) : Bool := (g.state a).next == (g.state b).next

set_option linter.unusedVariables false in
/-- Replaces states of equal moves by one state, put at the end of the list. `kept` has been dealt with. -/
def mergeEqualMoves (g : Graph) (kept : List StateId) : List StateId → Graph × List StateId
  | [] => (g, kept)
  | first :: rest =>
    match split : rest.partition (g.movesAlike first) with
    | ([], _) => g.mergeEqualMoves (kept ++ [first]) rest
    | (same :: more, others) =>
      let (g, id) := g.mergedState ((same :: more).foldl (fun acc id => insertNat id acc) [first])
      g.mergeEqualMoves kept (others ++ [id])
termination_by todo => todo.length
decreasing_by
  · simp
  · have shorter := length_lt_of_partition split
    simpa using shorter

set_option linter.unusedVariables false in
/-- Replaces states of one next state by a state with all their moves, put at the end of the list. -/
def mergeCommonNext (g : Graph) (kept : List StateId) : List StateId → Graph × List StateId
  | [] => (g, kept)
  | first :: rest =>
    match split : rest.partition (g.goesAlike first) with
    | ([], _) => g.mergeCommonNext (kept ++ [first]) rest
    | (same :: more, others) =>
      let start := { (g.state first).bare with next := (g.state first).next }
      let merged := (same :: more).foldl (fun s id => s.merge (g.state id)) start
      (g.addState merged).mergeCommonNext kept (others ++ [g.size])
termination_by todo => todo.length
decreasing_by
  · simp
  · have shorter := length_lt_of_partition split
    simpa using shorter

/-- Merges until a list has nothing left to merge. -/
def mergeAll (rule : MergeRule) (g : Graph) (ids : List StateId) : Graph × List StateId :=
  let equal := if rule.equalMoves then g.mergeEqualMoves [] ids else (g, ids)
  let common := if rule.commonNext then equal.1.mergeCommonNext [] equal.2 else equal
  if common.2.length < ids.length then mergeAll rule common.1 common.2 else common
termination_by ids.length

/-- Closes `id`, merges among its epsilon moves and keeps those that have moves. -/
def completeState (rule : MergeRule) (g : Graph) (id : StateId) : Graph :=
  let g := g.close id
  let (g, ids) := mergeAll rule g (g.state id).epsilon
  let useful := ids.filter fun id => (g.state id).hasMoves
  g.alter id fun s => { s with epsilon := useful, keptEpsilon := useful.length }

/-- Closes and prunes every state, the last made first, and then the states that merging made. -/
def completeAll (g : Graph) (mode : Closing) : Graph :=
  let merging := mode == .merging
  let closed := (List.range g.size).reverse.foldl (completeState ⟨merging, merging⟩) g
  (List.range' g.size (closed.size - g.size)).foldl (completeState ⟨false, merging⟩) closed

end Graph

end TokenTables.Automaton
