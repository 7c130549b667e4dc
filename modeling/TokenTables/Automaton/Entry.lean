import TokenTables.Automaton.Dispatch

/-!
The exported table of a graph: an entry for each name, those of single states first.
-/

namespace TokenTables.Automaton

/-- A named state: its moves, and what holds after one of them. -/
structure MoveEntry where
  moves : Moves
  next : List EntryName
  kind : Option Kind
  dispatch : Option Nat
deriving DecidableEq, Repr

inductive Entry where
  | single (e : MoveEntry)
  /-- A set of entries, which moves as its members do. -/
  | group (members : List EntryName)
deriving DecidableEq, Repr

namespace MoveEntry

/-- Whether the entry moves on `c`; outside ASCII its dispatch method decides. -/
def accepts (e : MoveEntry) (t : DispatchTable) (c : Char) : Except BeyondTable Bool :=
  if c.toNat < asciiEnd then .ok (e.moves.ascii.contains c.toNat)
  else match e.dispatch with
    | none => .ok false
    | some method => t.accepts method c

end MoveEntry

namespace Entry

/-- Groups do not move themselves. -/
def accepts (e : Entry) (t : DispatchTable) (c : Char) : Except BeyondTable Bool :=
  match e with
  | single e => e.accepts t c
  | group _ => .ok false

end Entry

namespace Graph

/-- The entry of a named state, with the names after it moved up by `offset`. -/
def entry (g : Graph) (offset : Nat) (id : StateId) : Entry :=
  let s := g.state id
  let next := match s.next with
    | some next => g.entryNames (g.state next).epsilon
    | none => []
  .single ⟨s.moves, next.map (· + offset), s.reported, s.dispatch⟩

/-- The entries of all names, with every name moved up by `offset`. -/
def entries (g : Graph) (offset : Nat) : List Entry :=
  g.named.toList.map (g.entry offset) ++
    g.groups.toList.map fun c => .group (c.members.map (· + offset))

end Graph

end TokenTables.Automaton
