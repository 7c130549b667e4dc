import TokenTables.Grammar.Check
import TokenTables.Tokenizer.Assembly

/-!
From grammars to tokenizers. A grammar with errors yields none; warnings come along with the tokenizer.
-/

namespace TokenTables

/-- Why there is no tokenizer. -/
inductive GenerationError where
  | noStates
  /-- Everything reported, warnings included, by location. -/
  | faultyGrammar (diagnostics : List Diagnostic)
deriving DecidableEq, Repr

namespace GenerationError

def diagnostics : GenerationError → List Diagnostic
  | noStates => []
  | faultyGrammar diagnostics => diagnostics

def message : GenerationError → String
  | noStates => "lexical grammar declares no lexical states"
  | faultyGrammar diagnostics =>
    s!"lexical grammar has {(diagnostics.filter (·.isError)).length} error(s)"

end GenerationError

/-- A tokenizer with the warnings raised on the way, by location. -/
structure Generation where
  tokenizer : Tokenizer
  diagnostics : List Diagnostic

/-- Checks a grammar and assembles its tokenizer. -/
def generate (g : Grammar) (options : GenerationOptions) : Except GenerationError Generation :=
  if g.states.isEmpty then .error .noStates
  else
    let checked := DiagnosticLog.reportAll { policy := options.diagnostics }
      ((g.check options.ignoreCase).map Report.always)
    if checked.forbidsResult then .error (.faultyGrammar checked.sorted)
    else
      let assembly := Assembly.ofGrammar g options
      let log := checked.reportAll (Assembly.allReports g assembly)
      if log.forbidsResult then .error (.faultyGrammar log.sorted)
      else .ok ⟨Assembly.tokenizer g options assembly, log.sorted⟩

end TokenTables
