import TokenTables.Grammar.Check.Names
import TokenTables.Grammar.Check.ReferenceLoops
import TokenTables.Grammar.Check.Regexes
import TokenTables.Grammar.Check.Strings

/-!
All checks on a grammar. Everything they report but strings superseded in part is an error, and only a
grammar without errors is turned into a tokenizer.
-/

namespace TokenTables.Grammar

/-- What is wrong with a grammar. `ignoreCase` holds for every production. -/
def check (g : Grammar) (ignoreCase : Bool) : List Diagnostic :=
  g.stateReports ++ g.endOfInputReports ++ g.labelReports ++ g.regexReports ++ g.loopReports ++
    g.stringReports ignoreCase

end TokenTables.Grammar
