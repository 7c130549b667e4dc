import TokenTables.Regex.Definitions
import TokenTables.Regex.Fault

/-!
The alternatives of a choice, with the alternatives of nested and referenced choices in their places.
-/

namespace TokenTables.Automaton

set_option linter.unusedVariables false in
/-- Splices nested choices and references to choices in place. A referenced choice that is being spliced,
or a label in `active`, whose expansion is under way, may not come up again. -/
def spliceChoices (defs : Definitions) (active : List String) :
    (splicing : List String) → List Regex → Except RegexFault (List Regex)
  | _, [] => .ok []
  | splicing, .choice _ inner :: rest => do
    let here ← spliceChoices defs active splicing inner
    let others ← spliceChoices defs active splicing rest
    return here ++ others
  | splicing, .reference loc label :: rest =>
    match found : defs.lookup label with
    | some (.choice _ inner) =>
      if fresh : splicing.contains label = false ∧ active.contains label = false then do
        let here ← spliceChoices defs active (label :: splicing) inner
        let others ← spliceChoices defs active splicing rest
        return here ++ others
      else .error (.circularReference label loc)
    | _ => do
      let others ← spliceChoices defs active splicing rest
      return .reference loc label :: others
  | splicing, r :: rest => do
    let others ← spliceChoices defs active splicing rest
    return r :: others
termination_by splicing alternatives => (unexpanded defs splicing, sizeOf alternatives)
decreasing_by
  all_goals simp_wf
  all_goals first
    | exact Prod.Lex.right _ (by omega)
    | exact Prod.Lex.left _ _ (unexpanded_cons_lt found fresh.1)

end TokenTables.Automaton
