import TokenTables.Automaton.Graph

/-!
Names for the exported table. States with moves are named from 0 as a walk along moves and epsilon moves
settles them; a state that behaves like a named one shares its name. Sets of names get names after those
of single states.
-/

namespace TokenTables.Automaton.Graph

/-- `id` and the states after it by moves, the last first, up to the first that has a name. -/
def unnamedChain (g : Graph) : (limit : Nat) → StateId → List StateId → List StateId
  | 0, _, chain => chain
  | limit + 1, id, chain =>
    if (g.state id).name.isSome then chain
    else match (g.state id).next with
      | none => id :: chain
      | some next => g.unnamedChain limit next (id :: chain)

/-- Where two states go after their moves comes to the same. -/
def sameSuccessors (g : Graph) (a b : State) : Bool :=
  a.next == b.next ||
    match a.next, b.next with
    | some i, some j => (g.state i).epsilon == (g.state j).epsilon
    | _, _ => false

/-- The name of the last other state that has one and behaves like `id`. -/
def nameOfEqual? (g : Graph) (id : StateId) : Option EntryName :=
  let s := g.state id
  let isEqual := fun other =>
    let t := g.state other
    other != id && t.name.isSome && t.reported == s.reported && s.moves == t.moves && g.sameSuccessors s t
  ((List.range g.size).reverse.find? isEqual).bind fun other => (g.state other).name

/-- Reports the kind of the next state after the moves of `id`. -/
def reportNext (g : Graph) (id : StateId) : Graph :=
  match (g.state id).next with
  | none => g
  | some next =>
    match (g.state next).kind with
    | none => g
    | some kind => g.alter id fun s => { s with reported := some kind }

/-- Gives `id` the next free name. -/
def addName (g : Graph) (id : StateId) : Graph :=
  { g.alter id (fun s => { s with name := some g.nameCount }) with named := g.named.push id }

/-- Names `id`, whose next state has been settled, and then by `visit` the states behind its next state. -/
def settle (visit : Graph → StateId → Graph) (g : Graph) (id : StateId) : Graph :=
  let g := g.reportNext id
  let s := g.state id
  if s.name.isSome || !s.hasMoves then g
  else match g.nameOfEqual? id with
    | some name => g.alter id fun s => { s with name := some name, isAlias := true }
    | none =>
      let g := g.addName id
      match s.next with
      | some next => if 0 < (g.state next).keptEpsilon then visit g next else g
      | none => g

/-- Names `id` after the states that follow it by moves. -/
def nameChain (visit : Graph → StateId → Graph) (g : Graph) (id : StateId) : Graph :=
  (g.unnamedChain (g.size + 1) id []).foldl (settle visit) g

/-- Collects the names behind the epsilon moves of `id`, naming states on the way. While they are collected
the list counts as empty, so requests nest no deeper than there are states. -/
def collectNames : (depth : Nat) → Graph → StateId → Graph × List EntryName
  | 0, g, _ => (g, [])
  | depth + 1, g, id =>
    match (g.state id).namesBehind with
    | some names => (g, names)
    | none =>
      let targets := (g.state id).epsilon
      let g := g.alter id fun s => { s with namesBehind := some [] }
      let (g, names) := targets.foldl
        (fun (g, names) target =>
          if (g.state target).hasMoves then
            let g := nameChain (fun g id => (collectNames depth g id).1) g target
            match (g.state target).name with
            | some name => (g, names ++ [name])
            | none => (g, names)
          else (g, names))
        (g, [])
      (g.alter id fun s => { s with keptEpsilon := names.length, namesBehind := some names }, names)

/-- The names behind the epsilon moves of `id`. -/
def namesBehind (g : Graph) (id : StateId) : Graph × List EntryName := collectNames (g.size + 1) g id

/-- Names `id` and what it leads to. -/
def nameFrom (g : Graph) (id : StateId) : Graph := nameChain (fun g id => (g.namesBehind id).1) g id

/-- The name of a set of names: a single one stands for itself, and equal sets share a name. -/
def nameOfGroup (g : Graph) (names : List EntryName) : Graph × Option EntryName :=
  match ascending names with
  | [] => (g, none)
  | [single] => (g, some single)
  | members =>
    match g.groups.find? (·.members == members) with
    | some group => (g, some group.name)
    | none =>
      let name := g.nameCount + g.groups.size
      ({ g with groups := g.groups.push ⟨members, name⟩ }, some name)

/-- Names every state that the initial state leads to, and the set it starts in. There is no name if no
state has moves. -/
def nameAll (g : Graph) : Graph × Option EntryName :=
  match g.initial with
  | none => (g, none)
  | some initial =>
    let g := (g.state initial).epsilon.foldl nameFrom g
    if g.nameCount = 0 then (g, none)
    else
      let (g, names) := (g.nameFrom initial).namesBehind initial
      g.nameOfGroup names

end TokenTables.Automaton.Graph
