import TokenTables.Diagnostic
import TokenTables.Grammar

/-!
Labels whose expressions refer to each other in a circle, found by a depth-first walk along references.
-/

namespace TokenTables

/-- What a walk along references has found. -/
structure CycleSearch where
  /-- Labels whose references have all been followed. -/
  done : List String := []
  /-- Each cycle begins and ends with one label, and each of its labels refers to the next. -/
  cycles : List (List String) := []
deriving DecidableEq, Repr

namespace CycleSearch

/-- The part of a path from `label` on, closed to a cycle. The path leads backwards. -/
def cycleTo (label : String) (path : List String) : List String :=
  label :: (path.takeWhile (· != label)).reverse ++ [label]

set_option linter.unusedVariables false in
/-- Follows the references of each label in turn, at the end of a path. -/
def visitAll (defs : Definitions) : (path labels : List String) → CycleSearch → CycleSearch
  | _, [], walk => walk
  | path, label :: rest, walk =>
    if walk.done.contains label then visitAll defs path rest walk
    else if onPath : path.contains label = true then
      visitAll defs path rest { walk with cycles := walk.cycles ++ [cycleTo label path] }
    else match found : defs.lookup label with
      | none => visitAll defs path rest walk
      | some r =>
        let walk := visitAll defs (label :: path) r.references walk
        visitAll defs path rest { walk with done := label :: walk.done }
termination_by path labels => (unexpanded defs path, labels.length)
decreasing_by
  · exact Prod.Lex.right _ (by simp)
  · exact Prod.Lex.right _ (by simp)
  · exact Prod.Lex.right _ (by simp)
  · exact Prod.Lex.left _ _ (unexpanded_cons_lt found (by simpa using onPath))
  · exact Prod.Lex.right _ (by simp)

end CycleSearch

namespace Grammar

/-- The labels in order of the kinds they name. -/
def labelsByKind (g : Grammar) : List String :=
  (g.labelled.mergeSort fun a b => a.2.kind ≤ b.2.kind).map (·.1)

/-- The cycles that a walk from every label finds. -/
def referenceCycles (g : Grammar) : List (List String) :=
  (CycleSearch.visitAll g.definitions [] g.labelsByKind {}).cycles

def loopReport (g : Grammar) (cycle : List String) : Option Diagnostic := do
  let start ← g.definitions.lookup (← cycle.head?)
  let shown := " --> ".intercalate (cycle.map fun label => s!"...{label}...")
  return (Diagnostic.error .referenceLoop s!"Loop in regular expression detected: \"{shown}\"").pointingAt
    start.location "refers back to itself"

def loopReports (g : Grammar) : List Diagnostic := g.referenceCycles.filterMap g.loopReport

end Grammar

end TokenTables
