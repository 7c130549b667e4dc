import TokenTables.Automaton.Graph

/-!
Paths through a graph and the texts they read. An epsilon move reads nothing, a move one character.
-/

namespace TokenTables.Automaton.Graph

/-- A path reads the text on its way from one state to the other. -/
inductive Path (g : Graph) : StateId → List Char → StateId → Prop where
  | here {id} : Path g id [] id
  | epsilon {source target stop text} (edge : target ∈ (g.state source).epsilon)
      (after : Path g target text stop) : Path g source text stop
  | move {source target stop c text} (accepts : (g.state source).accepts c)
      (edge : (g.state source).next = some target) (after : Path g target text stop) :
    Path g source (c :: text) stop

theorem Path.trans {g : Graph} {a b c : StateId} {text more : List Char} (first : g.Path a text b)
    (second : g.Path b more c) : g.Path a (text ++ more) c := by
  induction first with
  | here => exact second
  | epsilon edge _ ih => exact .epsilon edge (ih second)
  | move accepts edge _ ih => exact .move accepts edge (ih second)

end TokenTables.Automaton.Graph
