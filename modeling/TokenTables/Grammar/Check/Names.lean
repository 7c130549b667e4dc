import TokenTables.Diagnostic
import TokenTables.Grammar

/-!
Checks on the names of a grammar: lexical states that do not exist, end-of-input rules out of place, and
labels that clash.
-/

namespace TokenTables.Grammar

def unknownState (name : String) (loc : Location) : Diagnostic :=
  (Diagnostic.error .unknownState s!"Lexical state \"{name}\" has not been defined.").pointingAt
    loc "unknown lexical state"

/-- Reports each of the names that is no lexical state. -/
def missingStates (g : Grammar) (names : List String) (loc : Location) : List Diagnostic :=
  (names.filter fun name => (g.stateIndex? name).isNone).map (unknownState · loc)

/-- Lexical states that productions apply to or rules go to, but the grammar does not have. -/
def stateReports (g : Grammar) : List Diagnostic :=
  g.productions.flatMap fun p =>
    g.missingStates (p.states.getD []) p.location ++
      p.rules.flatMap fun r => g.missingStates r.nextState.toList r.location

/-- What is wrong with one end-of-input rule, given the last one before it that does anything. -/
def endOfInputFaults (p : Production) (r : TokenRule) (earlier : Option Location) : List Diagnostic :=
  (if p.isGlobal then []
    else [(Diagnostic.error .partialEndOfInput
      "EOF action/state change must be specified for all states, i.e., <*>TOKEN:.").pointingAt
      r.location "declared for some lexical states only"]) ++
  (if p.disposition = .token then []
    else [(Diagnostic.error .endOfInputDisposition
      "EOF action/state change can be specified only in a TOKEN specification.").pointingAt
      r.location s!"declared in a {p.disposition.keyword} production"]) ++
  earlier.toList.map fun first =>
    ((Diagnostic.error .duplicateEndOfInput
      "Duplicate action/state change specification for <EOF>.").pointingAt
      r.location "second specification").mentioning first "first specification"

/-- End-of-input rules that are not for all states, not in a token production, or repeated. -/
def endOfInputReports (g : Grammar) : List Diagnostic :=
  let rules := g.productions.flatMap fun p => (p.rules.filter (·.isEndOfInput)).map (p, ·)
  (rules.foldl (fun (found, earlier) (p, r) =>
    let acts := r.nextState.isSome || r.liveAction.isSome
    (found ++ endOfInputFaults p r earlier, if acts then some r.location else earlier))
    ([], none)).1

/-- What is wrong with the label of `t`, given the regexes before it. -/
def labelFaults (g : Grammar) (before : List TokenDef) (t : TokenDef) : List Diagnostic :=
  match t.label with
  | none => []
  | some label =>
    ((before.find? (·.label == some label)).toList.map fun first =>
      ((Diagnostic.error .duplicateLabel s!"Multiply defined lexical token name \"{label}\".").pointingAt
        t.location "redefined here").mentioning first.location "first defined here") ++
    (if (g.stateIndex? label).isNone then []
      else [(Diagnostic.error .labelNamesState
        s!"Lexical token name \"{label}\" is the same as that of a lexical state.").pointingAt
        t.location "token name"])

/-- Labels given twice, or to a lexical state as well. -/
def labelReports (g : Grammar) : List Diagnostic :=
  g.regexes.zipIdx.flatMap fun (t, i) => g.labelFaults (g.regexes.take i) t

end TokenTables.Grammar
